import Mathlib.Algebra.BigOperators.Group.Finset.Basic
import Mathlib.Logic.Relation
import Mathlib.Tactic

/-!
# Rooted trees given by parent links and child lists

An arborescence is a finite set of vertices in which every vertex but the root has a parent, with
the children of each vertex listed in some order. A rank that grows from parent to child excludes
cycles. Statements about subtrees are proved from the leaves up (`child_induction`) or from the root
down (`parent_induction`); the weight of a subtree splits into the weights of the subtrees of the
children (`sum_subtree`).
-/

set_option autoImplicit false
set_option relaxedAutoImplicit false

namespace WsServer.Foundations

open Finset

/-- Concatenating a list for the only element with a property. -/
theorem flatMap_ite_of_unique {α β : Type} {P : α → Prop} [DecidablePred P] {l : List α}
    (hl : l.Nodup) (hunique : ∀ a ∈ l, ∀ b ∈ l, P a → P b → a = b) (x : List β) :
    (l.flatMap fun a ↦ if P a then x else []) = if ∃ a ∈ l, P a then x else [] := by
  induction l with
  | nil => simp
  | cons a l ih =>
    obtain ⟨hnot, hl⟩ := List.nodup_cons.mp hl
    have hrest := ih hl fun b hb c hc ↦
      hunique b (List.mem_cons_of_mem _ hb) c (List.mem_cons_of_mem _ hc)
    rw [List.flatMap_cons, hrest]
    by_cases ha : P a
    · have hnone : ¬∃ b ∈ l, P b := by
        rintro ⟨b, hb, hPb⟩
        have heq := hunique a List.mem_cons_self b (List.mem_cons_of_mem _ hb) ha hPb
        exact hnot (heq ▸ hb)
      simp [ha, hnone]
    · simp [ha]

structure Arborescence (V : Type) where
  verts : Finset V
  root : V
  parent : V → Option V
  children : V → List V
  rank : V → ℕ
  root_mem : root ∈ verts
  rank_lt : ∀ v ∈ verts, rank v < verts.card
  parent_eq_none : ∀ v ∈ verts, parent v = none ↔ v = root
  parent_mem : ∀ c p, parent c = some p → c ∈ verts ∧ p ∈ verts ∧ rank p < rank c
  mem_children : ∀ p c, c ∈ children p ↔ parent c = some p
  children_nodup : ∀ p, (children p).Nodup

namespace Arborescence

variable {V : Type} (T : Arborescence V)

/-! ### Induction along the tree -/

theorem exists_parent {v : V} (hv : v ∈ T.verts) (hne : v ≠ T.root) : ∃ p, T.parent v = some p := by
  cases hp : T.parent v with
  | none => exact absurd ((T.parent_eq_none v hv).mp hp) hne
  | some p => exact ⟨p, rfl⟩

theorem children_eq_nil {v : V} (hv : v ∉ T.verts) : T.children v = [] :=
  List.eq_nil_iff_forall_not_mem.mpr fun c hc ↦
    hv (T.parent_mem c v ((T.mem_children v c).mp hc)).2.1

/-- From the root down. -/
theorem parent_induction {P : V → Prop} (hroot : P T.root)
    (hstep : ∀ p c, T.parent c = some p → P p → P c) {v : V} (hv : v ∈ T.verts) : P v := by
  induction hn : T.rank v using Nat.strong_induction_on generalizing v with
  | _ n ih =>
    by_cases hne : v = T.root
    · exact hne ▸ hroot
    · obtain ⟨p, hp⟩ := T.exists_parent hv hne
      obtain ⟨-, hpv, hlt⟩ := T.parent_mem v p hp
      exact hstep p v hp (ih _ (hn ▸ hlt) hpv rfl)

/-- From the leaves up. -/
theorem child_induction {P : V → Prop}
    (hstep : ∀ v ∈ T.verts, (∀ c ∈ T.children v, P c) → P v) {v : V} (hv : v ∈ T.verts) : P v := by
  induction hn : T.verts.card - T.rank v using Nat.strong_induction_on generalizing v with
  | _ n ih =>
    apply hstep v hv
    intro c hc
    obtain ⟨hcv, -, hlt⟩ := T.parent_mem c v ((T.mem_children v c).mp hc)
    have hbound := T.rank_lt c hcv
    exact ih _ (by omega) hcv rfl

variable {T} in
/-- What is enough levels for a vertex is enough, less one, for its children. -/
theorem fuel_child {fuel : ℕ} {v c : V} (hc : c ∈ T.children v)
    (hfuel : T.verts.card ≤ fuel + 1 + T.rank v) :
    c ∈ T.verts ∧ T.verts.card ≤ fuel + T.rank c := by
  obtain ⟨hcv, -, hlt⟩ := T.parent_mem c v ((T.mem_children v c).mp hc)
  exact ⟨hcv, by omega⟩

/-! ### Subtrees -/

/-- `T.Below v w`: the parent links lead from `w` to `v`. -/
def Below (v w : V) : Prop := Relation.ReflTransGen (fun p c ↦ T.parent c = some p) v w

variable {T}

theorem Below.refl (v : V) : T.Below v v := Relation.ReflTransGen.refl

theorem below_iff {v w : V} : T.Below v w ↔ w = v ∨ ∃ c ∈ T.children v, T.Below c w := by
  unfold Below
  rw [Relation.ReflTransGen.cases_head_iff]
  simp only [T.mem_children, eq_comm]

theorem Below.rank_le {v w : V} (h : T.Below v w) : T.rank v ≤ T.rank w := by
  induction h with
  | refl => exact le_rfl
  | tail _ hp ih => exact ih.trans (T.parent_mem _ _ hp).2.2.le

theorem Below.mem {v w : V} (h : T.Below v w) (hv : v ∈ T.verts) : w ∈ T.verts := by
  induction h with
  | refl => exact hv
  | tail _ hp _ => exact (T.parent_mem _ _ hp).1

theorem below_root {v : V} (hv : v ∈ T.verts) : T.Below T.root v := by
  refine T.parent_induction (Below.refl _) (fun p c hp ih ↦ ?_) hv
  exact Relation.ReflTransGen.tail ih hp

/-- The parent of a vertex is not below it. -/
theorem not_below_parent {p c : V} (hp : T.parent c = some p) : ¬ T.Below c p := fun h ↦
  absurd (T.parent_mem c p hp).2.2 h.rank_le.not_gt

/-- Of two vertices above `w`, one is above the other. -/
theorem Below.total {v v' w : V} (h : T.Below v w) (h' : T.Below v' w) :
    T.Below v v' ∨ T.Below v' v := by
  unfold Below at h h' ⊢
  rw [← Relation.reflTransGen_swap] at h h'
  have hunique : Relator.RightUnique (Function.swap fun p c ↦ T.parent c = some p) :=
    fun c p p' hp hp' ↦ Option.some.inj (hp.symm.trans hp')
  rcases Relation.ReflTransGen.total_of_right_unique hunique h h' with hle | hle
  · exact Or.inr (Relation.reflTransGen_swap.mp hle)
  · exact Or.inl (Relation.reflTransGen_swap.mp hle)

theorem Below.eq_of_siblings {p c c' : V} (hc : c ∈ T.children p) (hc' : c' ∈ T.children p)
    (h : T.Below c c') : c = c' := by
  rw [T.mem_children] at hc hc'
  by_contra hne
  rcases Relation.ReflTransGen.cases_tail h with heq | ⟨q, hq, hqc⟩
  · exact hne heq.symm
  · obtain rfl : q = p := Option.some.inj (hqc.symm.trans hc')
    exact not_below_parent hc hq

theorem disjoint_siblings {p c c' w : V} (hc : c ∈ T.children p) (hc' : c' ∈ T.children p)
    (h : T.Below c w) (h' : T.Below c' w) : c = c' := by
  rcases h.total h' with hle | hle
  · exact hle.eq_of_siblings hc hc'
  · exact (hle.eq_of_siblings hc' hc).symm

variable (T)

open Classical in
/-- The vertices below `v`. -/
noncomputable def subtree (v : V) : Finset V := T.verts.filter (T.Below v)

variable {T}

theorem mem_subtree {v w : V} : w ∈ T.subtree v ↔ w ∈ T.verts ∧ T.Below v w := by
  classical
  unfold subtree
  rw [Finset.mem_filter]

theorem subtree_root : T.subtree T.root = T.verts := by
  ext v
  rw [mem_subtree]
  exact ⟨fun h ↦ h.1, fun h ↦ ⟨h, below_root h⟩⟩

/-- The weight of a subtree is the weight of its top and of the subtrees of the children. -/
theorem sum_subtree {M : Type} [AddCommMonoid M] (f : V → M) {v : V} (hv : v ∈ T.verts) :
    ∑ w ∈ T.subtree v, f w =
      f v + ((T.children v).map fun c ↦ ∑ w ∈ T.subtree c, f w).sum := by
  classical
  have hsplit : T.subtree v = insert v ((T.children v).toFinset.biUnion T.subtree) := by
    ext w
    simp only [mem_subtree, Finset.mem_insert, Finset.mem_biUnion, List.mem_toFinset]
    constructor
    · rintro ⟨hw, hbelow⟩
      rcases below_iff.mp hbelow with rfl | ⟨c, hc, hcw⟩
      · exact Or.inl rfl
      · exact Or.inr ⟨c, hc, hw, hcw⟩
    · rintro (rfl | ⟨c, hc, hw, hcw⟩)
      · exact ⟨hv, Below.refl w⟩
      · exact ⟨hw, below_iff.mpr (Or.inr ⟨c, hc, hcw⟩)⟩
  have hnot : v ∉ (T.children v).toFinset.biUnion T.subtree := by
    simp only [Finset.mem_biUnion, List.mem_toFinset, mem_subtree, not_exists, not_and]
    intro c hc _ hbelow
    exact not_below_parent ((T.mem_children v c).mp hc) hbelow
  have hdisjoint : ((T.children v).toFinset : Set V).PairwiseDisjoint T.subtree := by
    intro c hc c' hc' hne
    rw [Finset.mem_coe, List.mem_toFinset] at hc hc'
    refine Finset.disjoint_left.mpr fun w hw hw' ↦ hne ?_
    exact disjoint_siblings hc hc' (mem_subtree.mp hw).2 (mem_subtree.mp hw').2
  rw [hsplit, Finset.sum_insert hnot, Finset.sum_biUnion hdisjoint,
    List.sum_toFinset _ (T.children_nodup v)]

/-- Every vertex but the root is the child of exactly one vertex. -/
theorem sum_length_children : ∑ v ∈ T.verts, (T.children v).length + 1 = T.verts.card := by
  classical
  have hunion : T.verts.biUnion (fun p ↦ (T.children p).toFinset) = T.verts.erase T.root := by
    ext c
    simp only [Finset.mem_biUnion, List.mem_toFinset, T.mem_children, Finset.mem_erase]
    constructor
    · rintro ⟨p, -, hp⟩
      obtain ⟨hc, -⟩ := T.parent_mem c p hp
      refine ⟨fun hroot ↦ ?_, hc⟩
      rw [(T.parent_eq_none c hc).mpr hroot] at hp
      simp at hp
    · rintro ⟨hne, hc⟩
      obtain ⟨p, hp⟩ := T.exists_parent hc hne
      exact ⟨p, (T.parent_mem c p hp).2.1, hp⟩
  have hdisjoint : (T.verts : Set V).PairwiseDisjoint fun p ↦ (T.children p).toFinset := by
    intro p _ p' _ hne
    refine Finset.disjoint_left.mpr fun c hc hc' ↦ hne ?_
    rw [List.mem_toFinset, T.mem_children] at hc hc'
    exact Option.some.inj (hc.symm.trans hc')
  have hcard := Finset.card_biUnion (s := T.verts) (t := fun p ↦ (T.children p).toFinset)
    fun p hp p' hp' hne ↦ hdisjoint hp hp' hne
  rw [hunion] at hcard
  simp only [List.toFinset_card_of_nodup (T.children_nodup _)] at hcard
  rw [← hcard]
  exact Finset.card_erase_add_one T.root_mem

/-! ### Preorder -/

/-- The vertices below `v`, each before its children, cut off after `fuel` levels. -/
def preorder (children : V → List V) : ℕ → V → List V
  | 0, _ => []
  | fuel + 1, v => v :: (children v).flatMap (preorder children fuel)

theorem mem_preorder {fuel : ℕ} {v w : V} (hv : v ∈ T.verts)
    (hfuel : T.verts.card ≤ fuel + T.rank v) : w ∈ preorder T.children fuel v ↔ T.Below v w := by
  induction fuel generalizing v with
  | zero =>
    have hlt := T.rank_lt v hv
    omega
  | succ fuel ih =>
    rw [preorder, List.mem_cons, List.mem_flatMap, below_iff]
    refine or_congr_right (exists_congr fun c ↦ and_congr_right fun hc ↦ ?_)
    obtain ⟨hcv, hcfuel⟩ := fuel_child hc hfuel
    exact ih hcv hcfuel

theorem nodup_preorder {fuel : ℕ} {v : V} (hv : v ∈ T.verts)
    (hfuel : T.verts.card ≤ fuel + T.rank v) : (preorder T.children fuel v).Nodup := by
  induction fuel generalizing v with
  | zero => exact List.nodup_nil
  | succ fuel ih =>
    have hchild : ∀ c ∈ T.children v, c ∈ T.verts ∧ T.verts.card ≤ fuel + T.rank c :=
      fun c hc ↦ fuel_child hc hfuel
    rw [preorder, List.nodup_cons, List.nodup_flatMap]
    refine ⟨fun hin ↦ ?_, fun c hc ↦ ih (hchild c hc).1 (hchild c hc).2, ?_⟩
    · obtain ⟨c, hc, hvc⟩ := List.mem_flatMap.mp hin
      exact not_below_parent ((T.mem_children v c).mp hc)
        ((mem_preorder (hchild c hc).1 (hchild c hc).2).mp hvc)
    · apply (T.children_nodup v).pairwise_of_forall_ne
      intro c hc c' hc' hne
      refine List.disjoint_left.mpr fun w hw hw' ↦ hne ?_
      exact disjoint_siblings hc hc' ((mem_preorder (hchild c hc).1 (hchild c hc).2).mp hw)
        ((mem_preorder (hchild c' hc').1 (hchild c' hc').2).mp hw')

end Arborescence

end WsServer.Foundations
