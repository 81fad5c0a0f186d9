import Mathlib.Data.List.Basic
import Mathlib.Tactic

/-!
# Walking a tree depth first

`walk` yields what is below a vertex, every vertex in front of what is below it. It is the loop of
an iterator: the stack holds what is left of every vertex that is open, and a vertex whose children
cannot all be read ends the loop with its failure. `Yields` is the same by recursion, and
`Yields.walk_eq` that they agree.

A walk without a failure yields what is reached (`Yields.mem_iff`); in a forest it yields it once,
and nothing behind what is below it (`Yields.pairwise`). A walk with a failure yields the beginning
of the walk without it (`Yields.isPrefix`).
-/

set_option autoImplicit false
set_option relaxedAutoImplicit false

namespace WsServer.Foundations.DepthFirst

/-- The children that are read, and why no more are. -/
structure Listing (Vertex Fault : Type) where
  children : List Vertex
  failure : Option Fault

variable {Vertex Fault : Type} (list : Vertex → Listing Vertex Fault)

/-- The vertices that are yielded behind `out`, and the failure that ends the walk. -/
def walk : ℕ → List (Listing Vertex Fault) → List Vertex → Option (List Vertex × Option Fault)
  | 0, _, _ => none
  | _ + 1, [], out => some (out, none)
  | fuel + 1, ⟨[], none⟩ :: stack, out => walk fuel stack out
  | _ + 1, ⟨[], some e⟩ :: _, out => some (out, some e)
  | fuel + 1, ⟨v :: vs, failure⟩ :: stack, out =>
    walk fuel (list v :: ⟨vs, failure⟩ :: stack) (out ++ [v])

/-- The walk through a listing yields these vertices and ends so. -/
inductive Yields : Listing Vertex Fault → List Vertex → Option Fault → Prop
  | done {failure : Option Fault} : Yields ⟨[], failure⟩ [] failure
  | broken {v : Vertex} {vs below : List Vertex} {failure : Option Fault} {e : Fault}
      (hbelow : Yields (list v) below (some e)) : Yields ⟨v :: vs, failure⟩ (v :: below) (some e)
  | next {v : Vertex} {vs below rest : List Vertex} {failure r : Option Fault}
      (hbelow : Yields (list v) below none) (hrest : Yields ⟨vs, failure⟩ rest r) :
      Yields ⟨v :: vs, failure⟩ (v :: (below ++ rest)) r

variable {list} {l : Listing Vertex Fault} {out : List Vertex} {r : Option Fault}

/-! ### The loop -/

theorem Yields.walk_eq (h : Yields list l out r) :
    ∃ n, ∀ fuel stack acc, walk list (n + fuel) (l :: stack) acc =
      r.elim (walk list fuel stack (acc ++ out)) fun e ↦ some (acc ++ out, some e) := by
  induction h with
  | @done failure =>
    refine ⟨1, fun fuel stack acc ↦ ?_⟩
    rw [Nat.add_comm]
    rcases failure with _ | e <;> simp [walk]
  | @broken v vs below failure e _ ih =>
    obtain ⟨n, hn⟩ := ih
    refine ⟨n + 1, fun fuel stack acc ↦ ?_⟩
    rw [Nat.add_right_comm, walk, hn]
    simp
  | @next v vs below rest failure r _ _ ihbelow ihrest =>
    obtain ⟨n, hn⟩ := ihbelow
    obtain ⟨m, hm⟩ := ihrest
    refine ⟨n + m + 1, fun fuel stack acc ↦ ?_⟩
    rw [Nat.add_right_comm, walk, Nat.add_assoc, hn, Option.elim_none, hm]
    simp

/-- From some amount of fuel on the walk ends. -/
theorem Yields.exists_fuel (h : Yields list l out r) :
    ∃ n, ∀ fuel ≥ n, walk list fuel [l] [] = some (out, r) := by
  obtain ⟨n, hn⟩ := h.walk_eq
  refine ⟨n + 1, fun fuel hfuel ↦ ?_⟩
  obtain ⟨extra, rfl⟩ := Nat.exists_eq_add_of_le hfuel
  rw [Nat.add_assoc, hn, Nat.add_comm]
  rcases r with _ | e <;> simp [walk]

/-- `v` is read below `u`. -/
def Child (list : Vertex → Listing Vertex Fault) (u v : Vertex) : Prop := v ∈ (list u).children

theorem exists_yields (hwf : WellFounded fun v u ↦ Child list u v) (l : Listing Vertex Fault) :
    ∃ out r, Yields list l out r := by
  have hall : ∀ (vs : List Vertex) (failure : Option Fault),
      (∀ v ∈ vs, ∃ out r, Yields list (list v) out r) →
      ∃ out r, Yields list ⟨vs, failure⟩ out r := by
    intro vs failure hvs
    induction vs with
    | nil => exact ⟨[], failure, .done⟩
    | cons v vs ih =>
      rw [List.forall_mem_cons] at hvs
      obtain ⟨⟨below, r, hbelow⟩, hvs⟩ := hvs
      rcases r with _ | e
      · obtain ⟨rest, r, hrest⟩ := ih hvs
        exact ⟨_, r, .next hbelow hrest⟩
      · exact ⟨_, some e, .broken hbelow⟩
  have hvertex : ∀ v, ∃ out r, Yields list (list v) out r := fun v ↦
    hwf.induction v fun u ih ↦ hall (list u).children (list u).failure ih
  exact hall l.children l.failure fun v _ ↦ hvertex v

/-- A walk seen through a map. -/
theorem Yields.map {Label : Type} {list' : Label → Listing Label Fault} {f : Vertex → Label}
    (hf : ∀ v, list' (f v) = ⟨(list v).children.map f, (list v).failure⟩)
    (h : Yields list l out r) : Yields list' ⟨l.children.map f, l.failure⟩ (out.map f) r := by
  induction h with
  | done => exact .done
  | broken _ ih => exact .broken ((hf _).symm ▸ ih)
  | @next v vs below rest _ _ _ _ ihbelow ihrest =>
    rw [List.map_cons, List.map_cons, List.map_append]
    exact .next ((hf _).symm ▸ ihbelow) ihrest

/-! ### What is yielded -/

/-- `v` is in the listing or below what is in it. -/
def Reached (list : Vertex → Listing Vertex Fault) (l : Listing Vertex Fault) (v : Vertex) : Prop :=
  ∃ c ∈ l.children, Relation.ReflTransGen (Child list) c v

section Reached

variable {u v : Vertex} {vs : List Vertex} {failure : Option Fault}

theorem reached_cons : Reached list ⟨u :: vs, failure⟩ v ↔
    v = u ∨ Reached list (list u) v ∨ Reached list ⟨vs, failure⟩ v := by
  unfold Reached
  rw [List.exists_mem_cons_iff, Relation.ReflTransGen.cases_head_iff, or_assoc, eq_comm]
  rfl

theorem reached_list_iff : Reached list (list u) v ↔ Relation.TransGen (Child list) u v := by
  rw [Relation.TransGen.head'_iff]
  rfl

theorem reached_nil : ¬ Reached list ⟨[], failure⟩ v := by simp [Reached]

end Reached

theorem Yields.reached (h : Yields list l out r) {v : Vertex} (hv : v ∈ out) :
    Reached list l v := by
  induction h with
  | done => simp at hv
  | broken _ ih =>
    rw [reached_cons]
    rcases List.mem_cons.mp hv with hv | hv
    · exact Or.inl hv
    · exact Or.inr (Or.inl (ih hv))
  | next _ _ ihbelow ihrest =>
    rw [reached_cons]
    rcases List.mem_cons.mp hv with hv | hv
    · exact Or.inl hv
    rcases List.mem_append.mp hv with hv | hv
    · exact Or.inr (Or.inl (ihbelow hv))
    · exact Or.inr (Or.inr (ihrest hv))

theorem Yields.mem_iff (h : Yields list l out r) (hr : r = none) {v : Vertex} :
    v ∈ out ↔ Reached list l v := by
  induction h with
  | done => exact iff_of_false List.not_mem_nil reached_nil
  | broken => cases hr
  | next _ _ ihbelow ihrest =>
    rw [reached_cons, List.mem_cons, List.mem_append, ihbelow rfl, ihrest hr]

/-- The walk ends with a failure of what it has come to. -/
theorem Yields.failure_of (h : Yields list l out r) {e : Fault} (hr : r = some e) :
    l.failure = some e ∨ ∃ v ∈ out, (list v).failure = some e := by
  induction h with
  | done => exact Or.inl hr
  | broken _ ih =>
    rcases ih hr with hfailure | ⟨v, hv, hfailure⟩
    · exact Or.inr ⟨_, List.mem_cons_self, hfailure⟩
    · exact Or.inr ⟨v, List.mem_cons_of_mem _ hv, hfailure⟩
  | next _ _ _ ih =>
    rcases ih hr with hfailure | ⟨v, hv, hfailure⟩
    · exact Or.inl hfailure
    · exact Or.inr ⟨v, List.mem_cons_of_mem _ (List.mem_append_right _ hv), hfailure⟩

theorem Yields.eq_none_iff (h : Yields list l out r) :
    r = none ↔ l.failure = none ∧ ∀ v, Reached list l v → (list v).failure = none := by
  constructor
  · intro hr
    induction h with
    | done => exact ⟨hr, fun v hv ↦ absurd hv reached_nil⟩
    | broken => cases hr
    | @next v vs below rest failure r _ _ ihbelow ihrest =>
      refine ⟨(ihrest hr).1, fun w hw ↦ ?_⟩
      rcases reached_cons.mp hw with rfl | hw | hw
      · exact (ihbelow rfl).1
      · exact (ihbelow rfl).2 w hw
      · exact (ihrest hr).2 w hw
  · rintro ⟨hl, hreached⟩
    rcases r with _ | e
    · rfl
    · rcases h.failure_of rfl with hfailure | ⟨v, hv, hfailure⟩
      · simp [hl] at hfailure
      · simp [hreached v (h.reached hv)] at hfailure

/-! ### In a forest -/

/-- Every vertex is read below one other at most, and there once. -/
structure IsForest (list : Vertex → Listing Vertex Fault) : Prop where
  nodup : ∀ v, (list v).children.Nodup
  parent : ∀ u u' v, Child list u v → Child list u' v → u = u'
  wellFounded : WellFounded fun v u ↦ Child list u v

namespace IsForest

variable (hforest : IsForest list) {u v w : Vertex}

include hforest

theorem not_below_self (hchild : Child list u v) : ¬ Relation.ReflTransGen (Child list) v u := by
  intro hpath
  have hcycle : Relation.TransGen (Child list) u u := .head' hchild hpath
  rw [← Relation.transGen_swap] at hcycle
  exact hforest.wellFounded.transGen.irrefl.irrefl u hcycle

theorem not_above_sibling {p : Vertex} (hu : Child list p u) (hv : Child list p v) (hne : u ≠ v) :
    ¬ Relation.ReflTransGen (Child list) u v := by
  intro hpath
  obtain heq | ⟨q, hpath, hq⟩ := Relation.ReflTransGen.cases_tail_iff _ _ _ |>.mp hpath
  · exact hne heq.symm
  · obtain rfl := hforest.parent _ _ _ hq hv
    exact hforest.not_below_self hu hpath

/-- Nothing is below two siblings. -/
theorem siblings_apart {p : Vertex} (hu : Child list p u) (hv : Child list p v) (hne : u ≠ v)
    (huw : Relation.ReflTransGen (Child list) u w) : ¬ Relation.ReflTransGen (Child list) v w := by
  intro hvw
  have huw' := Relation.reflTransGen_swap.mpr huw
  have hvw' := Relation.reflTransGen_swap.mpr hvw
  rcases Relation.ReflTransGen.total_of_right_unique
    (fun c a b ha hb ↦ hforest.parent a b c ha hb) huw' hvw' with h | h
  · exact hforest.not_above_sibling hv hu hne.symm (Relation.reflTransGen_swap.mp h)
  · exact hforest.not_above_sibling hu hv hne (Relation.reflTransGen_swap.mp h)

end IsForest

/-- Nothing is below two vertices of the list. -/
def Apart (list : Vertex → Listing Vertex Fault) (vs : List Vertex) : Prop :=
  vs.Pairwise fun u v ↦ ∀ w, Relation.ReflTransGen (Child list) u w →
    ¬ Relation.ReflTransGen (Child list) v w

theorem IsForest.apart (hforest : IsForest list) (v : Vertex) : Apart list (list v).children :=
  (hforest.nodup v).imp_of_mem fun ha hb hne _ ↦ hforest.siblings_apart ha hb hne

/-- Nothing is yielded behind what is below it, and nothing is yielded twice. -/
theorem Yields.pairwise (hforest : IsForest list) (h : Yields list l out r)
    (hl : Apart list l.children) :
    out.Pairwise fun u v ↦ ¬ Relation.ReflTransGen (Child list) v u := by
  have hbehind : ∀ {v w}, Reached list (list v) w → ¬ Relation.ReflTransGen (Child list) w v := by
    rintro v w ⟨c, hc, hcw⟩ hwv
    exact hforest.not_below_self hc (hcw.trans hwv)
  induction h with
  | done => exact .nil
  | @broken v vs below failure e hbelow ih =>
    exact .cons (fun w hw ↦ hbehind (hbelow.reached hw)) (ih (hforest.apart v))
  | @next v vs below rest failure r hbelow hrest ihbelow ihrest =>
    obtain ⟨hv, hvs⟩ := List.pairwise_cons.mp hl
    have hapart : ∀ {u w}, Relation.ReflTransGen (Child list) v u → w ∈ rest →
        ¬ Relation.ReflTransGen (Child list) w u := by
      intro u w hvu hw hwu
      obtain ⟨c, hc, hcw⟩ := hrest.reached hw
      exact hv c hc u hvu (hcw.trans hwu)
    refine .cons (fun w hw ↦ ?_) (List.pairwise_append.mpr
      ⟨ihbelow (hforest.apart v), ihrest hvs, fun u hu w hw ↦ ?_⟩)
    · rcases List.mem_append.mp hw with hw | hw
      · exact hbehind (hbelow.reached hw)
      · exact hapart .refl hw
    · obtain ⟨c, hc, hcu⟩ := hbelow.reached hu
      exact hapart (.head hc hcu) hw

/-! ### Without the failures -/

/-- The listing `l'` goes on where `l` fails. -/
structure Listing.Cut (l l' : Listing Vertex Fault) : Prop where
  isPrefix : l.children <+: l'.children
  eq_of_none : l.failure = none → l.children = l'.children

theorem Yields.isPrefix {whole : Vertex → Listing Vertex Fault} {l' : Listing Vertex Fault}
    {out' : List Vertex} (hcut : ∀ v, (list v).Cut (whole v)) (h : Yields list l out r)
    (h' : Yields whole l' out' none) (hl : l.Cut l') : out <+: out' ∧ (r = none → out = out') := by
  induction h generalizing l' out' with
  | done =>
    refine ⟨List.nil_prefix, fun hr ↦ ?_⟩
    rcases l' with ⟨_ | ⟨c, cs⟩, failure⟩
    · cases h'
      rfl
    · simpa using hl.eq_of_none hr
  | @broken v vs below failure e hbelow ih =>
    refine ⟨?_, by simp⟩
    obtain ⟨more, hmore⟩ := hl.isPrefix
    rcases l' with ⟨_ | ⟨c, cs⟩, failure⟩
    · simp at hmore
    obtain ⟨rfl, -⟩ := List.cons.inj hmore
    cases h' with
    | next hbelow' hrest' =>
      exact List.cons_prefix_cons.mpr
        ⟨rfl, (ih hbelow' (hcut v)).1.trans (List.prefix_append _ _)⟩
  | @next v vs below rest failure r hbelow hrest ihbelow ihrest =>
    obtain ⟨more, hmore⟩ := hl.isPrefix
    rcases l' with ⟨_ | ⟨c, cs⟩, failure⟩
    · simp at hmore
    obtain ⟨rfl, hcs⟩ := List.cons.inj hmore
    cases h' with
    | next hbelow' hrest' =>
      obtain rfl := (ihbelow hbelow' (hcut v)).2 rfl
      obtain ⟨hpre, heq⟩ := ihrest hrest'
        ⟨⟨more, hcs⟩, fun hfailure ↦ (List.cons.inj (hl.eq_of_none hfailure)).2⟩
      refine ⟨List.cons_prefix_cons.mpr ⟨rfl, ?_⟩, fun hr ↦ by rw [heq hr]⟩
      exact (List.prefix_append_right_inj _).mpr hpre

end WsServer.Foundations.DepthFirst
