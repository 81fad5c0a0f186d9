import WsServer.FBPTree.Clone
import WsServer.FBPTree.LeafChain

/-!
# Tree objects

What each public operation does to one tree object. `Content` is the tree an object owns, or
nothing; `Holds h t g` is the representation invariant of an object together with `size_`. Each
operation is specified by the entries of the new content and by its footprint: it keeps every cell
outside the old content and adopts only fresh cells.
-/

set_option autoImplicit false
set_option relaxedAutoImplicit false

namespace WsServer.FBPTree

open Foundations

/-- The tree behind `root_`, if any. -/
abbrev Content (Key Value : Type) := Option (Σ d, Tree Key Value d)

variable {Key Value : Type}

namespace Content

def entries : Content Key Value → List (Key × Value)
  | none => []
  | some ⟨_, t⟩ => t.entries

def addrs : Content Key Value → List ℕ
  | none => []
  | some ⟨_, t⟩ => t.addrs

def leaves : Content Key Value → List ℕ
  | none => []
  | some ⟨_, t⟩ => t.leaves

theorem leaves_subset_addrs (g : Content Key Value) : g.leaves ⊆ g.addrs := by
  match g with
  | none => exact List.Subset.refl _
  | some ⟨_, t⟩ => exact t.leaves_subset_addrs

end Content

variable [LinearOrder Key] {d : ℕ}

/-- The object owns the tree `t`. -/
structure Owns (h : Memory Key Value) (obj : FBPlusTree) (t : Tree Key Value d) : Prop where
  root_eq : obj.root = some t.addr
  represents : Represents h t none
  nodup : t.addrs.Nodup
  formed : WellFormed 1 t
  sorted : KeysSorted t.entries
  size_eq : obj.size = t.entries.length

/-- The representation invariant of an object. -/
def Holds (h : Memory Key Value) (obj : FBPlusTree) : Content Key Value → Prop
  | none => obj.root = none ∧ obj.size = 0
  | some ⟨_, t⟩ => Owns h obj t

section Holds

variable {h h' : Memory Key Value} {obj : FBPlusTree} {g : Content Key Value}

theorem Holds.size_eq (hg : Holds h obj g) : obj.size = g.entries.length := by
  match g with
  | none => exact hg.2
  | some ⟨_, t⟩ => exact Owns.size_eq hg

theorem Holds.sorted (hg : Holds h obj g) : KeysSorted g.entries := by
  match g with
  | none => exact List.Pairwise.nil
  | some ⟨_, t⟩ => exact Owns.sorted hg

theorem Holds.lt_bound (hg : Holds h obj g) : ∀ a ∈ g.addrs, a < h.bound := by
  match g with
  | none => simp [Content.addrs]
  | some ⟨_, t⟩ => exact (Owns.represents hg).lt_bound

theorem Holds.nodup_leaves (hg : Holds h obj g) : g.leaves.Nodup := by
  match g with
  | none => exact List.nodup_nil
  | some ⟨_, t⟩ => exact (Owns.nodup hg).sublist t.leaves_sublist_addrs

/-- An object is not affected by writes outside its own nodes. -/
theorem Holds.keep (hg : Holds h obj g) {s : Set ℕ} (hk : h.Keeps h' s)
    (hout : ∀ a ∈ g.addrs, a ∉ s) : Holds h' obj g := by
  match g with
  | none => exact hg
  | some ⟨_, t⟩ => exact { hg with represents := (Owns.represents hg).keep hk hout }

omit [LinearOrder Key] in
/-- Distinct live addresses: a represented tree is not higher than the heap is large. -/
theorem Represents.height_lt {t : Tree Key Value d} {next : Option ℕ} (ht : Represents h t next)
    (hnodup : t.addrs.Nodup) {least : ℕ} (hwf : WellFormed least t) : d < h.bound := by
  have hsub : t.addrs.toFinset ⊆ Finset.range h.bound := fun a ha ↦
    Finset.mem_range.mpr (ht.lt_bound a (List.mem_toFinset.mp ha))
  have hcard := Finset.card_le_card hsub
  rw [List.toFinset_card_of_nodup hnodup, Finset.card_range] at hcard
  exact (t.height_lt_length_addrs hwf.leaves_ne_nil).trans_le hcard

theorem Owns.height_lt {t : Tree Key Value d} (ht : Owns h obj t) : d < h.bound :=
  ht.represents.height_lt ht.nodup ht.formed

end Holds

/-! ### Queries -/

section Queries

variable {h : Memory Key Value} {obj : FBPlusTree} {g : Content Key Value}

theorem find_spec (hg : Holds h obj g) (k : Key) : find h obj k = some (g.entries.lookup k) := by
  match g with
  | none => simp [find, findLeaf, hg.1, Content.entries]
  | some ⟨d, t⟩ =>
    have ht : Owns h obj t := hg
    exact find_eq_lookup ht.represents ht.formed ht.sorted ht.height_lt ht.root_eq k

theorem leftmostLeaf_spec (hg : Holds h obj g) : leftmostLeaf h obj = some g.leaves.head? := by
  match g with
  | none => simp [leftmostLeaf, hg.1, Content.leaves]
  | some ⟨d, t⟩ =>
    have ht : Owns h obj t := hg
    have hrun := leftmostFrom_eq ht.represents ht.formed ht.height_lt
    obtain ⟨x, xs, hx⟩ := List.exists_cons_of_ne_nil ht.formed.leaves_ne_nil
    simp only [leftmostLeaf, ht.root_eq, hrun, Content.leaves, hx, List.head?_cons, Option.map_some]

end Queries

/-! ### Iteration -/

section Iteration

variable {h : Memory Key Value} {obj : FBPlusTree} {g : Content Key Value}

theorem leavesOf_spec (hg : Holds h obj g) : leavesOf h obj = some g.leaves := by
  match g with
  | none => simp [leavesOf, hg.1, Content.leaves]
  | some ⟨d, t⟩ =>
    have ht : Owns h obj t := hg
    simp only [leavesOf, ht.root_eq]
    exact leavesBelow_eq ht.represents ht.height_lt

/-- From the leftmost leaf, `next` leads over exactly the leaves of the object. -/
theorem followNext_spec (hg : Holds h obj g) :
    followNext h g.leaves.length g.leaves.head? = some g.leaves := by
  match g with
  | none => rfl
  | some ⟨d, t⟩ =>
    have ht : Owns h obj t := hg
    have hpath := (ht.represents.leafPath ht.formed Nat.one_pos).followNext_eq rfl
    rw [t.map_fst_leafEntries] at hpath
    rw [Content.leaves, ← hpath, ← t.map_fst_leafEntries, List.length_map]

/-- Iteration from `begin()` to `end()` yields the entries in order. -/
theorem iterate_spec (hg : Holds h obj g) {fuel : ℕ} (hfuel : obj.size ≤ fuel) :
    iterate h obj fuel = some g.entries := by
  have hleft := leftmostLeaf_spec hg
  rw [hg.size_eq] at hfuel
  obtain ⟨extra, rfl⟩ := Nat.exists_eq_add_of_le' hfuel
  match g with
  | none =>
    simp only [iterate, begin, hleft, Content.leaves, List.head?_nil, Option.bind_eq_bind,
      Option.bind_some, iterateFrom_end, Content.entries]
  | some ⟨d, t⟩ =>
    have ht : Owns h obj t := hg
    have hpath := ht.represents.leafPath ht.formed Nat.one_pos
    have hbegin : begin h obj = some { leaf := t.leaves.head?, index := 0 } := by
      simp only [Content.leaves] at hleft
      simp only [begin, hleft, Option.bind_eq_bind, Option.bind_some]
      cases hhead : t.leaves.head? with
      | none => rfl
      | some a =>
        obtain ⟨keys, values, next, hread, hne⟩ := hpath.exists_start hhead
        simp only [hread, Option.bind_some, hne, Bool.false_eq_true, if_false]
    simp only [iterate, hbegin, Option.bind_eq_bind, Option.bind_some, Content.entries]
    have hrun := hpath.iterateFrom_eq extra
    rw [t.flatMap_snd_leafEntries] at hrun
    rw [hrun, iterateFrom_end h extra, Option.map_some, List.append_nil]

end Iteration

/-! ### Updates -/

/-- The footprint of an operation that turned the content `g` into `g'`. -/
structure Footprint (h h' : Memory Key Value) (g g' : Content Key Value) : Prop where
  keeps : h.Keeps h' {a | a ∈ g.addrs}
  owned : ∀ a ∈ g'.addrs, a ∈ g.addrs ∨ h.bound ≤ a

/-- The nodes of `g'` take the place of those of `g`, and no other node appears or goes. -/
structure Exchange (h h' : Memory Key Value) (g g' : Content Key Value) : Prop
    extends Footprint h h' g g' where
  accounts : h.Accounts h' {a | a ∈ g.addrs} {a | a ∈ g'.addrs}

section Updates

variable {h : Memory Key Value} {obj : FBPlusTree} {g : Content Key Value}

omit [LinearOrder Key] in
theorem Exchange.refl_none (h : Memory Key Value) :
    Exchange h h none (none : Content Key Value) :=
  ⟨⟨Heap.Keeps.refl _ _, by simp [Content.addrs]⟩, .of_live_eq rfl (by simp [Content.addrs])⟩

theorem resetRoot_spec (hg : Holds h obj g) :
    ∃ h', resetRoot h obj.root = some h' ∧ h.Keeps h' {a | a ∈ g.addrs} ∧
      h.Accounts h' {a | a ∈ g.addrs} ∅ := by
  match g with
  | none => exact ⟨h, by simp [resetRoot, hg.1], Heap.Keeps.refl _ _, by
      simp [Heap.Accounts, Content.addrs]⟩
  | some ⟨d, t⟩ =>
    have ht : Owns h obj t := hg
    obtain ⟨h', hrun, hkeeps, hacc⟩ := destroyNode_spec ht.represents ht.nodup ht.height_lt
    exact ⟨h', by simp [resetRoot, ht.root_eq, hrun], hkeeps, hacc⟩

theorem clear_spec (hg : Holds h obj g) :
    ∃ h' obj', clear h obj = some (h', obj') ∧ Holds h' obj' none ∧ Exchange h h' g none := by
  obtain ⟨h', hrun, hkeeps, hacc⟩ := resetRoot_spec hg
  exact ⟨h', _, by simp [clear, hrun]; rfl, ⟨rfl, rfl⟩, ⟨hkeeps, by simp [Content.addrs]⟩,
    by simpa [Content.addrs] using hacc⟩

/-- A copy has the entries of its source in fresh cells. -/
theorem copyConstruct_spec (hg : Holds h obj g) :
    ∃ h' obj' g', copyConstruct h obj = some (h', obj') ∧ Holds h' obj' g' ∧
      g'.entries = g.entries ∧ Exchange h h' none g' := by
  match g with
  | none =>
    exact ⟨h, { root := none, size := obj.size }, none, by simp [copyConstruct, cloneNode, hg.1],
      ⟨rfl, hg.2⟩, rfl, .refl_none h⟩
  | some ⟨d, t⟩ =>
    have ht : Owns h obj t := hg
    obtain ⟨h', t', hrun, hcl, hacc⟩ := cloneInternal_spec ht.represents ht.formed ht.height_lt
    refine ⟨h', { root := some t'.addr, size := obj.size }, some ⟨d, t'⟩,
      by simp [copyConstruct, cloneNode, ht.root_eq, hrun], ?_, hcl.entries_eq,
      ⟨hcl.keeps.mono (Set.empty_subset _), fun a ha ↦ Or.inr (hcl.owned a ha)⟩,
      by simpa [Content.addrs] using hacc⟩
    have hsorted := ht.sorted
    rw [← hcl.entries_eq] at hsorted
    exact ⟨rfl, hcl.represents, hcl.nodup, hcl.formed 1 ht.formed, hsorted,
      by rw [hcl.entries_eq]; exact ht.size_eq⟩

/-- Copy assignment: the old content is released after the copy is made. -/
theorem copyAssign_spec {other : FBPlusTree} {src : Content Key Value} (hg : Holds h obj g)
    (hsrc : Holds h other src) :
    ∃ h' obj' g', copyAssign h obj other = some (h', obj') ∧ Holds h' obj' g' ∧
      g'.entries = src.entries ∧ Exchange h h' g g' := by
  obtain ⟨h₁, obj', g', hcopy, hnew, hentries, hfoot⟩ := copyConstruct_spec hsrc
  have hold : Holds h₁ obj g := hg.keep hfoot.keeps (by simp [Content.addrs])
  obtain ⟨h₂, hreset, hkeeps, hacc⟩ := resetRoot_spec hold
  have howned : ∀ a ∈ g'.addrs, h.bound ≤ a := fun a ha ↦ by
    rcases hfoot.owned a ha with hin | hle
    · simp [Content.addrs] at hin
    · exact hle
  have hfresh : ∀ a ∈ g'.addrs, a ∉ g.addrs := fun a ha hin ↦
    absurd (hg.lt_bound a hin) (howned a ha).not_gt
  refine ⟨h₂, obj', g', by simp [copyAssign, hcopy, hreset], hnew.keep hkeeps hfresh, hentries,
    ⟨?_, fun a ha ↦ Or.inr (howned a ha)⟩, fun a ↦ ?_⟩
  · exact (hfoot.keeps.mono (by simp [Content.addrs])).trans hkeeps fun a ha ↦ Or.inl ha
  · have := hfresh a
    rw [hacc a, hfoot.accounts a]
    simp only [Content.addrs, List.not_mem_nil, Set.mem_ofPred_eq, Set.mem_empty_iff_false]
    tauto

/-- A full root becomes the only child of a new root, which is split at once: a tree one level
higher with the same entries, and room in its root. -/
theorem growRoot_spec {t : Tree Key Value d} (ht : Owns h obj t) (hfull : t.width = maxKeys) :
    ∃ h' t', splitChild (h.alloc (.inner [] [t.addr])).2 h.bound 0 = some h' ∧
      t'.addr = h.bound ∧ Owns h' { obj with root := some h.bound } t' ∧
      t'.width < maxKeys ∧ t'.entries = t.entries ∧
      Exchange h h' (some ⟨d, t⟩) (some ⟨d + 1, t'⟩) := by
  have hformed : WellFormed (kMinDegree - 1) t :=
    ht.formed.mono (by simp [hfull, maxKeys, kMinDegree])
  have hrep : Represents (h.alloc (.inner [] [t.addr])).2 (Tree.inner h.bound [] ([] ++ t :: []))
      none := by
    rw [represents_inner]
    refine ⟨Heap.read_alloc_self _ _, ?_, trivial⟩
    exact ht.represents.keep (Heap.keeps_alloc _ _ ∅) (by simp)
  have hnodup : (Tree.inner h.bound [] ([] ++ t :: [])).addrs.Nodup := by
    have hnew : h.bound ∉ t.addrs := fun hin ↦ lt_irrefl _ (ht.represents.lt_bound _ hin)
    simpa [hnew] using ht.nodup
  have hwf : WellFormed 0 (Tree.inner h.bound ([] : List Key) ([] ++ t :: [])) := by
    rw [wellFormed_inner]
    exact ⟨le_rfl, Nat.zero_le _, rfl, rfl, by simpa using hformed⟩
  obtain ⟨h', sep, hsplit, hsep, hrep', hbound, hkeeps, hacc⟩ :=
    splitChild_spec hrep hnodup hformed hfull le_rfl
  have hperm := addrs_splitAt h.bound [] [] t [] sep (h.alloc (.inner [] [t.addr])).2.bound
  have hentries := entries_splitAt h.bound [] [] t [] sep (h.alloc (.inner [] [t.addr])).2.bound
  have hentries' : (Tree.inner h.bound ([] : List Key) ([] ++ t :: [])).entries = t.entries := by
    simp
  rw [hentries'] at hentries
  refine ⟨h', _, hsplit, rfl, ⟨rfl, hrep', ?_, ?_, ?_, ?_⟩, ?_, hentries, ⟨?_, ?_⟩, fun a ↦ ?_⟩
  · exact hperm.nodup_iff.mpr
      (List.nodup_cons.mpr ⟨fun hin ↦ lt_irrefl _ (hrep.lt_bound _ hin), hnodup⟩)
  · exact (wellFormed_split _ hwf hfull (by simp [maxKeys, kMinDegree]) hsep).mono
      (by simp [Tree.splitAt])
  · rw [hentries]
    exact ht.sorted
  · rw [hentries]
    exact ht.size_eq
  · simp [Tree.splitAt, maxKeys, kMinDegree]
  · apply (Heap.keeps_alloc _ _ _).trans hkeeps
    intro a ha
    rcases ha with rfl | rfl
    · exact Or.inr le_rfl
    · exact Or.inl (Tree.addr_mem_addrs t)
  · intro a ha
    have ha' := hperm.mem_iff.mp ha
    simp only [Heap.bound_alloc, Tree.addrs_inner, List.nil_append, List.flatMap_cons,
      List.flatMap_nil, List.append_nil, List.mem_cons] at ha'
    rcases ha' with rfl | rfl | hin
    · exact Or.inr (Nat.le_succ _)
    · exact Or.inr le_rfl
    · exact Or.inl hin
  · have hlive := ht.represents.mem_live a
    have hfresh : h.bound ∉ t.addrs := fun hin ↦ lt_irrefl _ (ht.represents.lt_bound _ hin)
    have hroot := hperm.mem_iff (a := a)
    rw [hacc a, Heap.mem_live_alloc]
    simp only [Heap.bound_alloc, Tree.addrs_inner, List.nil_append, List.flatMap_cons,
      List.flatMap_nil, List.append_nil, List.mem_cons, Set.mem_ofPred_eq] at hroot ⊢
    simp only [Content.addrs]
    have : a = h.bound → a ∉ t.addrs := fun heq ↦ heq ▸ hfresh
    tauto

/-- Insertion below a root with room. -/
theorem insertAtRoot_spec {t : Tree Key Value d} (ht : Owns h obj t) (hroom : t.width < maxKeys)
    (k : Key) (v : Value) :
    ∃ h' size' t', insertNonFull k v h.bound h obj.size t.addr = some (h', size') ∧
      Owns h' { root := some t.addr, size := size' } t' ∧
      t'.entries = upsert k v t.entries ∧ Exchange h h' (some ⟨d, t⟩) (some ⟨d, t'⟩) := by
  obtain ⟨h', size', t', hrun, hcount, hins, hwf, hacc⟩ := insertNonFull_spec ht.represents
    ht.nodup ht.formed ht.sorted hroom k v ht.height_lt obj.size
  have hsorted : KeysSorted t'.entries := by
    rw [hins.entries_eq]
    exact ht.sorted.upsert
  have hsize : size' = t'.entries.length := by
    have hold := ht.size_eq
    omega
  exact ⟨h', size', t', hrun,
    ⟨congrArg some hins.addr_eq.symm, hins.represents, hins.nodup, hwf, hsorted, hsize⟩,
    hins.entries_eq, ⟨hins.keeps, hins.owned⟩, hacc⟩

/-- Insertion into an object: the empty tree gets a leaf, a full root is split under a new one. -/
theorem insert_spec (hg : Holds h obj g) (k : Key) (v : Value) :
    ∃ h' obj' g', insert h obj k v = some (h', obj') ∧ Holds h' obj' g' ∧
      g'.entries = upsert k v g.entries ∧ Exchange h h' g g' := by
  match g with
  | none =>
    refine ⟨(h.alloc (.leaf [k] [v] none)).2, { root := some h.bound, size := 1 },
      some ⟨0, Tree.leaf h.bound [(k, v)]⟩, by simp [insert, hg.1], ?_, rfl,
      ⟨Heap.keeps_alloc _ _ _, by simp [Content.addrs]⟩,
      fun a ↦ by simp [Content.addrs, Heap.mem_live_alloc]⟩
    refine ⟨rfl, ?_, by simp, ?_, by simp [KeysSorted], by simp⟩
    · rw [represents_leaf, Heap.read_alloc_self]
      rfl
    · rw [wellFormed_leaf]
      exact ⟨le_rfl, by simp [maxKeys, kMinDegree]⟩
  | some ⟨d, t⟩ =>
    have ht : Owns h obj t := hg
    obtain ⟨node, hnode, hwidth⟩ := ht.represents.read_addr
    simp only [insert, ht.root_eq, Option.bind_eq_bind, hnode, Option.bind_some, hwidth]
    split_ifs with hfull
    · obtain ⟨h₁, t₁, hsplit, haddr, hown, hroom, hentries₁, hfoot₁⟩ :=
        growRoot_spec ht (le_antisymm ht.formed.width_le hfull)
      obtain ⟨h', size', t', hrun, hown', hentries, hfoot⟩ := insertAtRoot_spec hown hroom k v
      rw [haddr] at hrun hown'
      rw [hentries₁] at hentries
      refine ⟨h', _, some ⟨d + 1, t'⟩, by simp [hsplit, hrun], hown', hentries,
        ⟨?_, fun a ha ↦ ?_⟩, ?_⟩
      · exact hfoot₁.keeps.trans hfoot.keeps fun a ha ↦ hfoot₁.owned a ha
      · rcases hfoot.owned a ha with hin | hle
        · exact hfoot₁.owned a hin
        · exact Or.inr (hfoot₁.keeps.bound_le.trans hle)
      · exact hfoot₁.accounts.trans hfoot.accounts hfoot₁.owned
    · obtain ⟨h', size', t', hrun, hown', hentries, hfoot⟩ :=
        insertAtRoot_spec ht (not_le.mp hfull) k v
      exact ⟨h', _, some ⟨d, t'⟩, by simp [hrun], hown', hentries, hfoot⟩

end Updates

end WsServer.FBPTree
