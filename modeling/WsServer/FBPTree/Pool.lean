import WsServer.FBPTree.Objects
import WsServer.Foundations.Runs

/-!
# Pools of tree objects

A program holds any number of tree objects in one heap and inserts into them, clears them, copies
them and assigns them in any order. The state of the specification is, for each object, the list of
insertions since its last `clear`; a copy starts with the list of its source. `Owned` connects the
two: each object owns its content, no two of them share a node, and the entries of an object are the
replay of its insertions.
-/

set_option autoImplicit false
set_option relaxedAutoImplicit false

namespace WsServer.FBPTree

open Foundations

variable {Key Value : Type}

/-- All tree objects of a program and the heap their nodes live in. -/
structure Pool (Key Value : Type) where
  heap : Memory Key Value
  trees : List FBPlusTree

def Pool.initial : Pool Key Value := { heap := Heap.empty, trees := [] }

/-- The operations on the objects of a pool, which are named by their index. -/
inductive Op (Key Value : Type)
  | create
  | insert (i : ℕ) (key : Key) (value : Value)
  | clear (i : ℕ)
  | copyConstruct (source : ℕ)
  | copyAssign (i source : ℕ)

/-- The existing object an operation modifies. -/
def Op.target : Op Key Value → Option ℕ
  | .create => none
  | .insert i _ _ => some i
  | .clear i => some i
  | .copyConstruct _ => none
  | .copyAssign i _ => some i

variable [LinearOrder Key]

/-- Running a member function on object `i`; an operation on a missing object is skipped. -/
def Pool.update (w : Pool Key Value) (i : ℕ)
    (f : Memory Key Value → FBPlusTree → Option (Memory Key Value × FBPlusTree)) :
    Option (Pool Key Value) :=
  match w.trees[i]? with
  | none => some w
  | some t => do
    let (h, t) ← f w.heap t
    some { heap := h, trees := w.trees.set i t }

def Pool.step (w : Pool Key Value) : Op Key Value → Option (Pool Key Value)
  | .create => some { w with trees := w.trees ++ [{}] }
  | .insert i key value => w.update i fun h t ↦ insert h t key value
  | .clear i => w.update i clear
  | .copyConstruct source =>
    match w.trees[source]? with
    | none => some w
    | some other => do
      let (h, t) ← FBPTree.copyConstruct w.heap other
      some { heap := h, trees := w.trees ++ [t] }
  | .copyAssign i source =>
    match w.trees[source]? with
    | none => some w
    | some other =>
      if i = source then some w else w.update i fun h t ↦ FBPTree.copyAssign h t other

def Pool.run (w : Pool Key Value) (ops : List (Op Key Value)) : Option (Pool Key Value) :=
  ops.foldlM Pool.step w

/-! ### Histories -/

/-- The insertions into each object since its last `clear`, in order. -/
abbrev Histories (Key Value : Type) := List (List (Key × Value))

omit [LinearOrder Key] in
def Histories.step (hs : Histories Key Value) : Op Key Value → Histories Key Value
  | .create => hs ++ [[]]
  | .insert i key value => hs.modify i (· ++ [(key, value)])
  | .clear i => hs.modify i fun _ ↦ []
  | .copyConstruct source =>
    match hs[source]? with
    | none => hs
    | some l => hs ++ [l]
  | .copyAssign i source =>
    match hs[source]? with
    | none => hs
    | some l => hs.modify i fun _ ↦ l

/-- The histories after a sequence of operations on an empty pool. -/
def histories (ops : List (Op Key Value)) : Histories Key Value := ops.foldl Histories.step []

/-! ### The invariant of a pool -/

/-- Object `i` of the pool owns `content i`, whose entries are the replay of its history. -/
structure Owned (w : Pool Key Value) (content : ℕ → Content Key Value)
    (hs : Histories Key Value) : Prop where
  length_eq : w.trees.length = hs.length
  holds : ∀ i t, w.trees[i]? = some t → Holds w.heap t (content i)
  outside : ∀ i, w.trees.length ≤ i → content i = none
  entries_eq : ∀ i l, hs[i]? = some l → (content i).entries = replay l
  disjoint : ∀ i j, i ≠ j → ∀ a ∈ (content i).addrs, a ∉ (content j).addrs

/-- The live cells are the nodes of the contents. -/
def Accounted (h : Memory Key Value) (content : ℕ → Content Key Value) : Prop :=
  ∀ a, a ∈ h.live ↔ ∃ i, a ∈ (content i).addrs

section Owned

variable {w : Pool Key Value} {content : ℕ → Content Key Value} {hs : Histories Key Value}

theorem owned_initial : Owned (Pool.initial : Pool Key Value) (fun _ ↦ none) [] :=
  ⟨rfl, by simp [Pool.initial], fun _ _ ↦ rfl, by simp, by simp [Content.addrs]⟩

theorem Owned.lt_bound (hw : Owned w content hs) (i : ℕ) :
    ∀ a ∈ (content i).addrs, a < w.heap.bound := by
  by_cases hi : i < w.trees.length
  · exact (hw.holds i _ (List.getElem?_eq_getElem hi)).lt_bound
  · rw [hw.outside i (not_lt.mp hi)]
    simp [Content.addrs]

theorem Owned.history (hw : Owned w content hs) {i : ℕ} {t : FBPlusTree}
    (hi : w.trees[i]? = some t) : ∃ l, hs[i]? = some l := by
  obtain ⟨hlt, -⟩ := List.getElem?_eq_some_iff.mp hi
  rw [hw.length_eq] at hlt
  exact ⟨_, List.getElem?_eq_getElem hlt⟩

theorem Owned.history_eq_none (hw : Owned w content hs) {i : ℕ} (hi : w.trees[i]? = none) :
    hs[i]? = none := by
  rw [List.getElem?_eq_none_iff, ← hw.length_eq]
  exact List.getElem?_eq_none_iff.mp hi

/-- One object, new or old, gets a new content from fresh cells and its own old ones. -/
theorem Owned.replace (hw : Owned w content hs) {w' : Pool Key Value} {hs' : Histories Key Value}
    {i : ℕ} {t' : FBPlusTree} {l' : List (Key × Value)} {g : Content Key Value}
    (hfoot : Footprint w.heap w'.heap (content i) g) (hg : Holds w'.heap t' g)
    (hentries : g.entries = replay l') (hlen : w'.trees.length = hs'.length)
    (hle : w.trees.length ≤ w'.trees.length)
    (htree : w'.trees[i]? = some t') (htrees : ∀ j, j ≠ i → w'.trees[j]? = w.trees[j]?)
    (hhist : hs'[i]? = some l') (hhists : ∀ j, j ≠ i → hs'[j]? = hs[j]?) :
    Owned w' (Function.update content i g) hs' := by
  have hother : ∀ j, j ≠ i → ∀ a ∈ (content j).addrs, a ∉ g.addrs := fun j hj a ha hin ↦ by
    rcases hfoot.owned a hin with hin | hlt
    · exact hw.disjoint j i hj a ha hin
    · exact absurd (hw.lt_bound j a ha) hlt.not_gt
  refine ⟨hlen, fun j t hj ↦ ?_, fun j hj ↦ ?_, fun j l hj ↦ ?_, fun j k hjk ↦ ?_⟩
  · by_cases hji : j = i
    · subst hji
      rw [htree] at hj
      rw [Function.update_self, ← Option.some.inj hj]
      exact hg
    · rw [htrees j hji] at hj
      rw [Function.update_of_ne hji]
      exact (hw.holds j t hj).keep hfoot.keeps (hw.disjoint j i hji)
  · obtain ⟨hlt, -⟩ := List.getElem?_eq_some_iff.mp htree
    rw [Function.update_of_ne (by omega)]
    exact hw.outside j (hle.trans hj)
  · by_cases hji : j = i
    · subst hji
      rw [hhist] at hj
      rw [Function.update_self, hentries, Option.some.inj hj]
    · rw [hhists j hji] at hj
      rw [Function.update_of_ne hji]
      exact hw.entries_eq j l hj
  · by_cases hji : j = i
    · subst hji
      rw [Function.update_self, Function.update_of_ne hjk.symm]
      exact fun a ha hin ↦ hother k hjk.symm a hin ha
    · by_cases hki : k = i
      · subst hki
        rw [Function.update_self, Function.update_of_ne hji]
        exact hother j hji
      · rw [Function.update_of_ne hji, Function.update_of_ne hki]
        exact hw.disjoint j k hjk

/-- The heap is still accounted for when one content is exchanged. -/
theorem Owned.accounted (hw : Owned w content hs) {h' : Memory Key Value} {i : ℕ}
    {g : Content Key Value} (hex : Exchange w.heap h' (content i) g)
    (hacc : Accounted w.heap content) : Accounted h' (Function.update content i g) := by
  intro a
  rw [hex.accounts a, hacc a]
  constructor
  · rintro (ha | ⟨⟨j, ha⟩, hout⟩)
    · exact ⟨i, by rwa [Function.update_self]⟩
    · have hji : j ≠ i := fun heq ↦ hout (heq ▸ ha)
      exact ⟨j, by rwa [Function.update_of_ne hji]⟩
  · rintro ⟨j, ha⟩
    by_cases hji : j = i
    · subst hji
      rw [Function.update_self] at ha
      exact Or.inl ha
    · rw [Function.update_of_ne hji] at ha
      exact Or.inr ⟨⟨j, ha⟩, hw.disjoint j i hji a ha⟩

/-- A member function that acts on the entries of object `i` like `effect` on its history. -/
theorem Owned.update (hw : Owned w content hs) (i : ℕ)
    (f : Memory Key Value → FBPlusTree → Option (Memory Key Value × FBPlusTree))
    (effect : List (Key × Value) → List (Key × Value))
    (hf : ∀ t l, Holds w.heap t (content i) → (content i).entries = replay l →
      ∃ h' t' g, f w.heap t = some (h', t') ∧ Holds h' t' g ∧ g.entries = replay (effect l) ∧
        Exchange w.heap h' (content i) g) :
    ∃ w' content', w.update i f = some w' ∧ Owned w' content' (hs.modify i effect) ∧
      (Accounted w.heap content → Accounted w'.heap content') := by
  cases htree : w.trees[i]? with
  | none =>
    have hlen := List.getElem?_eq_none_iff.mp (hw.history_eq_none htree)
    refine ⟨w, content, by simp [Pool.update, htree], ?_, id⟩
    rwa [List.modify_eq_self hlen]
  | some t =>
    obtain ⟨l, hl⟩ := hw.history htree
    obtain ⟨hlt, -⟩ := List.getElem?_eq_some_iff.mp htree
    obtain ⟨h', t', g, hrun, hg, hentries, hfoot⟩ :=
      hf t l (hw.holds i t htree) (hw.entries_eq i l hl)
    refine ⟨⟨h', w.trees.set i t'⟩, _, by simp [Pool.update, htree, hrun],
      hw.replace hfoot.toFootprint hg hentries (by simpa using hw.length_eq) (by simp)
        (by simp [hlt]) (fun j hj ↦ List.getElem?_set_ne hj.symm) (by simp [hl]) fun j hj ↦ ?_,
      hw.accounted hfoot⟩
    exact List.getElem?_modify_ne effect hs (Ne.symm hj)

omit [LinearOrder Key] in
theorem getElem?_append_singleton_ne {α : Type} (l : List α) (x : α) {j : ℕ}
    (hj : j ≠ l.length) : (l ++ [x])[j]? = l[j]? := by
  by_cases hlt : j < l.length
  · rw [List.getElem?_append_left hlt]
  · rw [List.getElem?_eq_none (by simp; omega), List.getElem?_eq_none (by omega)]

/-- A new object at the end of the pool. -/
theorem Owned.push (hw : Owned w content hs) {h' : Memory Key Value} {t' : FBPlusTree}
    {g : Content Key Value} {l : List (Key × Value)} (hfoot : Exchange w.heap h' none g)
    (hg : Holds h' t' g) (hentries : g.entries = replay l) :
    ∃ content', Owned ⟨h', w.trees ++ [t']⟩ content' (hs ++ [l]) ∧
      (Accounted w.heap content → Accounted h' content') := by
  rw [← hw.outside w.trees.length le_rfl] at hfoot
  refine ⟨_, hw.replace hfoot.toFootprint hg hentries (by simp [hw.length_eq]) (by simp) (by simp)
    (fun j hj ↦ getElem?_append_singleton_ne _ _ hj) (by simp [hw.length_eq]) fun j hj ↦ ?_,
    hw.accounted hfoot⟩
  rw [hw.length_eq] at hj
  exact getElem?_append_singleton_ne _ _ hj

/-- Every operation is defined and keeps the invariant, and the account of the heap. -/
theorem Owned.step_accounted (hw : Owned w content hs) (op : Op Key Value) :
    ∃ w' content', w.step op = some w' ∧ Owned w' content' (hs.step op) ∧
      (Accounted w.heap content → Accounted w'.heap content') := by
  cases op with
  | create =>
    have hnew : Holds w.heap {} (none : Content Key Value) := ⟨rfl, rfl⟩
    obtain ⟨content', hw'⟩ := hw.push (l := []) (.refl_none w.heap) hnew rfl
    exact ⟨_, content', rfl, hw'⟩
  | insert i key value =>
    refine hw.update i (fun h t ↦ FBPTree.insert h t key value) (· ++ [(key, value)])
      fun t l ht hl ↦ ?_
    obtain ⟨h', t', g, hrun, hg, hentries, hfoot⟩ := insert_spec ht key value
    exact ⟨h', t', g, hrun, hg, by rw [hentries, hl, replay_append_singleton], hfoot⟩
  | clear i =>
    refine hw.update i FBPTree.clear (fun _ ↦ []) fun t l ht hl ↦ ?_
    obtain ⟨h', t', hrun, hg, hfoot⟩ := clear_spec ht
    exact ⟨h', t', none, hrun, hg, rfl, hfoot⟩
  | copyConstruct source =>
    cases htree : w.trees[source]? with
    | none =>
      have hnone := hw.history_eq_none htree
      exact ⟨w, content, by simp [Pool.step, htree], by simpa [Histories.step, hnone] using hw, id⟩
    | some other =>
      obtain ⟨l, hl⟩ := hw.history htree
      obtain ⟨h', t', g, hrun, hg, hentries, hfoot⟩ :=
        copyConstruct_spec (hw.holds source other htree)
      rw [hw.entries_eq source l hl] at hentries
      obtain ⟨content', hw'⟩ := hw.push hfoot hg hentries
      exact ⟨{ heap := h', trees := w.trees ++ [t'] }, content', by simp [Pool.step, htree, hrun],
        by simpa [Histories.step, hl] using hw'⟩
  | copyAssign i source =>
    cases htree : w.trees[source]? with
    | none =>
      have hnone := hw.history_eq_none htree
      exact ⟨w, content, by simp [Pool.step, htree], by simpa [Histories.step, hnone] using hw, id⟩
    | some other =>
      obtain ⟨l, hl⟩ := hw.history htree
      have hsrc := hw.holds source other htree
      simp only [Pool.step, htree, Histories.step, hl]
      split_ifs with heq
      · -- self-assignment: the history is overwritten with itself
        subst heq
        have hself : hs.modify i (fun _ ↦ l) = hs := by
          refine List.ext_getElem? fun j ↦ ?_
          rw [List.getElem?_modify]
          by_cases hj : i = j
          · subst hj
            simp [hl]
          · simp [hj]
        exact ⟨w, content, rfl, by rwa [hself], id⟩
      · refine hw.update i _ (fun _ ↦ l) fun t _ ht _ ↦ ?_
        obtain ⟨h', t', g, hrun, hg, hentries, hfoot⟩ := copyAssign_spec ht hsrc
        exact ⟨h', t', g, hrun, hg, by rw [hentries, hw.entries_eq source l hl], hfoot⟩

/-- Every operation is defined and keeps the invariant. -/
theorem Owned.step (hw : Owned w content hs) (op : Op Key Value) :
    ∃ w' content', w.step op = some w' ∧ Owned w' content' (hs.step op) := by
  obtain ⟨w', content', hstep, hw', -⟩ := hw.step_accounted op
  exact ⟨w', content', hstep, hw'⟩

/-- Every sequence of operations is defined and keeps the invariant. -/
theorem Owned.run (hw : Owned w content hs) (ops : List (Op Key Value)) :
    ∃ w' content', w.run ops = some w' ∧ Owned w' content' (ops.foldl Histories.step hs) := by
  obtain ⟨w', hrun, content', hw'⟩ := foldlM_refines
    (R := fun w hs ↦ ∃ content, Owned w content hs)
    (fun w hs op ⟨content, hw⟩ ↦ by
      obtain ⟨w', content', hrun, hw'⟩ := hw.step op
      exact ⟨w', hrun, content', hw'⟩) ops ⟨content, hw⟩
  exact ⟨w', content', hrun, hw'⟩

theorem owned_run (ops : List (Op Key Value)) :
    ∃ w content, Pool.initial.run ops = some w ∧ Owned w content (histories ops) :=
  owned_initial.run ops

end Owned

end WsServer.FBPTree
