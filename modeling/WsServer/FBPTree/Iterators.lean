import WsServer.FBPTree.Contract
import WsServer.FBPTree.Growth
import WsServer.FBPTree.Lifetimes

/-!
# Iterators over changing trees

An iterator holds the address of a leaf and an index into it. Insertions move keys to other
positions and to new leaves, and other objects come and go, but the leaf stays with its object, and
every key that was ahead of the iterator is still ahead of it (`Iterator.Inside.perform`).
-/

set_option autoImplicit false
set_option relaxedAutoImplicit false

namespace WsServer.FBPTree

open Foundations

variable {Key Value : Type}

/-- The keys from the position of an iterator to the end of the chain. -/
inductive Iterator.Ahead (h : Memory Key Value) : Iterator → List Key → Prop
  | finish : Ahead h {} []
  | inside {a : ℕ} {keys rest : List Key} {values : List Value} {next : Option ℕ}
      (hread : h.read a = some (.leaf keys values next)) (hrest : KeyPath h rest next none)
      (i : ℕ) : Ahead h { leaf := some a, index := i } (keys.drop i ++ rest)

section Ahead

variable {h h' : Memory Key Value} {keys : List Key} {it : Iterator} {d : ℕ}
  {t : Tree Key Value d}

theorem Iterator.Ahead.mem_live (hit : it.Ahead h keys) {a : ℕ} (ha : it.leaf = some a) :
    a ∈ h.live := by
  cases hit with
  | finish => cases ha
  | inside hread hrest i =>
    cases ha
    exact Heap.mem_live_of_read hread

/-- Insertions put keys ahead of an iterator, and take none away. -/
theorem Grows.ahead (hg : Grows h h') (hit : it.Ahead h keys) :
    ∃ keys', it.Ahead h' keys' ∧ keys ⊆ keys' := by
  cases hit with
  | finish => exact ⟨[], .finish, List.Subset.refl _⟩
  | inside hread hrest i =>
    obtain ⟨rest', hrest', hsub⟩ := hg.keyPath hrest
    obtain ⟨keys', values', next', between, hread', hbetween, hdrop⟩ := hg _ _ _ _ hread
    refine ⟨_, .inside hread' (hbetween.append hrest') i, ?_⟩
    rw [← List.append_assoc]
    exact List.append_subset.mpr
      ⟨List.Subset.trans (hdrop i) (List.subset_append_left _ _),
        List.Subset.trans hsub (List.subset_append_right _ _)⟩

/-- The chain does not leave a tree before its end. -/
theorem Represents.next_mem_addrs (ht : Represents h t none) {a b : ℕ} (ha : a ∈ t.addrs)
    {values : List Value} (hread : h.read a = some (.leaf keys values (some b))) :
    b ∈ t.addrs := by
  rcases ht.next_mem ha hread with hnone | ⟨c, hc, hsome⟩
  · cases hnone
  · cases hsome
    exact t.leaves_subset_addrs hc

/-- The chain stays inside a tree, so that nothing changes for it when the tree does not. -/
theorem KeyPath.congr {start stop : Option ℕ} (ht : Represents h t none)
    (hread : ∀ a ∈ t.addrs, h'.read a = h.read a) (hp : KeyPath h keys start stop)
    (hstart : ∀ a, start = some a → a ∈ t.addrs) : KeyPath h' keys start stop := by
  induction hp with
  | nil stop => exact .nil stop
  | @cons a keys rest values next stop hleaf _ ih =>
    have ha := hstart a rfl
    refine .cons (by rw [hread a ha, hleaf]) (ih fun b hb ↦ ?_)
    subst hb
    exact ht.next_mem_addrs ha hleaf

theorem Iterator.Ahead.congr (ht : Represents h t none)
    (hread : ∀ a ∈ t.addrs, h'.read a = h.read a) (hit : it.Ahead h keys)
    (hleaf : ∀ a, it.leaf = some a → a ∈ t.addrs) : it.Ahead h' keys := by
  cases hit with
  | finish => exact .finish
  | @inside a keys rest values next hcell hrest i =>
    have ha := hleaf a rfl
    refine .inside (by rw [hread a ha, hcell]) (hrest.congr ht hread fun b hb ↦ ?_) i
    subst hb
    exact ht.next_mem_addrs ha hcell

/-! ### The leaf of an iterator in its tree -/

theorem Represents.mem_leaves {next next' : Option ℕ} (ht : Represents h t next) {a : ℕ}
    (ha : a ∈ t.addrs) {values : List Value} (hread : h.read a = some (.leaf keys values next')) :
    a ∈ t.leaves := by
  induction d generalizing next with
  | zero => exact ha
  | succ d ih =>
    obtain ⟨b, ks, cs, rfl⟩ := t.eq_inner
    rcases List.mem_cons.mp ha with rfl | ha
    · rw [((represents_inner _ _ _ _).mp ht).1] at hread
      cases hread
    · obtain ⟨c, hc, hac⟩ := List.mem_flatMap.mp ha
      obtain ⟨next'', hrep⟩ := ht.2.exists_of_mem hc
      exact List.mem_flatMap.mpr ⟨c, hc, ih hrep hac⟩

theorem LeafPath.keyPath {path : List (ℕ × List (Key × Value))} {start stop : Option ℕ}
    (hp : LeafPath h path start stop) : KeyPath h (keysOf (path.flatMap Prod.snd)) start stop := by
  induction hp with
  | nil stop => exact .nil stop
  | cons hread _ _ ih =>
    rw [List.flatMap_cons, keysOf, List.map_append]
    exact .cons hread ih

/-- The part of a path behind one of its leaves. -/
theorem LeafPath.after {pre post : List (ℕ × List (Key × Value))} {a : ℕ}
    {l : List (Key × Value)} {start stop : Option ℕ}
    (hp : LeafPath h (pre ++ (a, l) :: post) start stop) :
    ∃ mid, h.read a = some (.leaf (keysOf l) (l.map Prod.snd) mid) ∧ l ≠ [] ∧
      LeafPath h post mid stop := by
  induction pre generalizing start with
  | nil =>
    cases hp with
    | cons hread hne hrest => exact ⟨_, hread, hne, hrest⟩
  | cons x pre ih =>
    cases hp with
    | cons _ _ hrest => exact ih hrest

variable [LinearOrder Key] {obj : FBPlusTree}

/-- A leaf of an object stands in the sequence of its entries, with the chain behind it. -/
theorem Owns.exists_split (ht : Owns h obj t) {a : ℕ} (ha : a ∈ t.addrs) {values : List Value}
    {next : Option ℕ} (hread : h.read a = some (.leaf keys values next)) :
    ∃ before l path, t.entries = before ++ (l ++ path.flatMap Prod.snd) ∧ l ≠ [] ∧
      keys = keysOf l ∧ values = l.map Prod.snd ∧ LeafPath h path next none := by
  have hmem := ht.represents.mem_leaves ha hread
  rw [← t.map_fst_leafEntries] at hmem
  obtain ⟨⟨b, l⟩, hl, rfl⟩ := List.mem_map.mp hmem
  obtain ⟨pre, path, hsplit⟩ := List.append_of_mem hl
  have hpath := ht.represents.leafPath ht.formed Nat.one_pos
  rw [hsplit] at hpath
  obtain ⟨mid, hcell, hne, hrest⟩ := hpath.after
  rw [hread] at hcell
  cases hcell
  refine ⟨pre.flatMap Prod.snd, l, path, ?_, hne, rfl, rfl, hrest⟩
  rw [← t.flatMap_snd_leafEntries, hsplit, List.flatMap_append, List.flatMap_cons]

/-- An iterator in a leaf of an object has the last entries of the object ahead of it. -/
theorem Owns.exists_ahead (ht : Owns h obj t) {a i : ℕ} (ha : a ∈ t.addrs)
    (hit : Iterator.Ahead h { leaf := some a, index := i } keys) :
    ∃ before l path next, t.entries = before ++ (l.drop i ++ path.flatMap Prod.snd) ∧ l ≠ [] ∧
      h.read a = some (.leaf (keysOf l) (l.map Prod.snd) next) ∧ LeafPath h path next none ∧
      keys = keysOf (l.drop i ++ path.flatMap Prod.snd) := by
  cases hit with
  | inside hread hrest i =>
    obtain ⟨before, l, path, hentries, hne, rfl, rfl, hpath⟩ := ht.exists_split ha hread
    refine ⟨before ++ l.take i, l, path, _, ?_, hne, hread, hpath, ?_⟩
    · rw [hentries, List.append_assoc, ← List.append_assoc (l.take i), List.take_append_drop]
    · rw [hrest.unique hpath.keyPath, keysOf, keysOf, keysOf, List.map_append, List.map_drop]

/-- The keys ahead of an iterator are in order. -/
theorem Owns.sorted_ahead (ht : Owns h obj t) (hit : it.Ahead h keys)
    (hleaf : ∀ a, it.leaf = some a → a ∈ t.addrs) : keys.Pairwise (· < ·) := by
  obtain ⟨leaf, i⟩ := it
  cases leaf with
  | none =>
    cases hit
    exact List.Pairwise.nil
  | some a =>
    obtain ⟨before, l, path, next, hentries, -, -, -, rfl⟩ := ht.exists_ahead (hleaf a rfl) hit
    have hsorted := ht.sorted
    rw [hentries] at hsorted
    exact (keysSorted_append.mp hsorted).2.1

/-- `*it` is the first entry ahead, when the index is in range. -/
theorem Owns.deref_eq (ht : Owns h obj t) {a i : ℕ} (ha : a ∈ t.addrs)
    (hit : Iterator.Ahead h { leaf := some a, index := i } keys)
    {cell : List Key} {values : List Value} {next : Option ℕ}
    (hread : h.read a = some (.leaf cell values next)) (hi : i < cell.length) :
    ∃ e rest, Iterator.deref h { leaf := some a, index := i } = some e ∧ keys = e.1 :: rest := by
  obtain ⟨before, l, path, next', -, -, hread', -, rfl⟩ := ht.exists_ahead ha hit
  rw [hread] at hread'
  cases hread'
  have hl : i < l.length := by simpa using hi
  refine ⟨l[i], keysOf (l.drop (i + 1) ++ path.flatMap Prod.snd), ?_, ?_⟩
  · simp [Iterator.deref, hread, hl]
  · rw [List.drop_eq_getElem_cons hl]
    rfl

/-- `++it` is defined wherever in a leaf of an object the iterator is. It passes the key that the
iterator is at, if the index is in range, and ends at an entry or at `end()`. -/
theorem Owns.advance_eq (ht : Owns h obj t) (hit : it.Ahead h keys)
    (hleaf : ∀ a, it.leaf = some a → a ∈ t.addrs) :
    ∃ it' keys', it.advance h = some it' ∧ it'.Ahead h keys' ∧
      (∀ a, it'.leaf = some a → a ∈ t.addrs) ∧ (keys = keys' ∨ ∃ k, keys = k :: keys') ∧
      (it' = {} ∨ ∃ e rest, it' ≠ {} ∧ it'.deref h = some e ∧ keys' = e.1 :: rest) := by
  cases hit with
  | finish => exact ⟨{}, [], rfl, .finish, by simp, Or.inl rfl, Or.inl rfl⟩
  | @inside a cell rest values next hread hrest i =>
    have ha := hleaf a rfl
    by_cases hlast : cell.length ≤ i + 1
    · have hadvance : Iterator.advance h { leaf := some a, index := i } =
          some { leaf := next, index := 0 } := by
        simp [Iterator.advance, hread, hlast]
      have hpassed : cell.drop i ++ rest = rest ∨ ∃ k, cell.drop i ++ rest = k :: rest := by
        by_cases hi : i < cell.length
        · right
          exact ⟨cell[i], by rw [List.drop_eq_getElem_cons hi, List.drop_eq_nil_of_le hlast]; rfl⟩
        · left
          rw [List.drop_eq_nil_of_le (not_lt.mp hi), List.nil_append]
      cases next with
      | none =>
        cases hrest
        exact ⟨{}, [], hadvance, .finish, by simp, hpassed, Or.inl rfl⟩
      | some b =>
        have hb := ht.represents.next_mem_addrs ha hread
        cases hrest with
        | @cons _ cell' rest' _ _ _ hread' hrest' =>
          have hahead := Iterator.Ahead.inside hread' hrest' 0
          obtain ⟨-, l, -, -, hne, rfl, -⟩ := ht.exists_split hb hread'
          obtain ⟨e, rest, hderef, hkeys⟩ := ht.deref_eq hb hahead hread'
            (by simpa using List.length_pos_iff.mpr hne)
          exact ⟨_, _, hadvance, hahead, by simpa using hb, hpassed,
            Or.inr ⟨e, rest, by simp, hderef, hkeys⟩⟩
    · have hlt := not_le.mp hlast
      have hadvance : Iterator.advance h { leaf := some a, index := i } =
          some { leaf := some a, index := i + 1 } := by
        simp [Iterator.advance, hread, hlast]
      have hahead := Iterator.Ahead.inside hread hrest (i + 1)
      obtain ⟨e, rest', hderef, hkeys⟩ := ht.deref_eq ha hahead hread hlt
      refine ⟨_, _, hadvance, hahead, by simpa using ha, Or.inr ⟨cell[i], ?_⟩,
        Or.inr ⟨e, rest', by simp, hderef, hkeys⟩⟩
      rw [List.drop_eq_getElem_cons (by omega), List.cons_append]

/-- `begin()` has all entries ahead. -/
theorem Owns.begin_eq (ht : Owns h obj t) :
    ∃ a e rest, begin h obj = some { leaf := some a, index := 0 } ∧ a ∈ t.addrs ∧
      Iterator.Ahead h { leaf := some a, index := 0 } (keysOf t.entries) ∧
      Iterator.deref h { leaf := some a, index := 0 } = some e ∧
      keysOf t.entries = e.1 :: rest := by
  have hleft : leftmostLeaf h obj = some t.leaves.head? :=
    leftmostLeaf_spec (g := some ⟨d, t⟩) ht
  have hpath := ht.represents.leafPath ht.formed Nat.one_pos
  obtain ⟨a, leaves, hleaves⟩ := List.exists_cons_of_ne_nil ht.formed.leaves_ne_nil
  rw [← t.flatMap_snd_leafEntries]
  rw [hleaves] at hleft hpath
  have ha : a ∈ t.addrs := t.leaves_subset_addrs (hleaves ▸ List.mem_cons_self)
  generalize t.leafEntries = path at hpath
  cases hpath with
  | @cons _ l _ _ path hread hne hrest =>
    have hahead := Iterator.Ahead.inside hread hrest.keyPath 0
    have hlen : 0 < (keysOf l).length := by simpa using List.length_pos_iff.mpr hne
    obtain ⟨e, rest, hderef, hkeys⟩ := ht.deref_eq ha hahead hread hlen
    have hall : keysOf (((a, l) :: path).flatMap Prod.snd) =
        (keysOf l).drop 0 ++ keysOf (path.flatMap Prod.snd) := by
      rw [List.flatMap_cons, keysOf, keysOf, keysOf, List.map_append, List.drop_zero]
    refine ⟨a, e, rest, ?_, ha, hall ▸ hahead, hderef, hall.trans hkeys⟩
    simp [begin, hleft, hread, hne]

/-- From an entry on, the loop yields what is ahead and ends. -/
theorem Owns.iterateFrom_eq (ht : Owns h obj t) {a i : ℕ} (ha : a ∈ t.addrs)
    (hit : Iterator.Ahead h { leaf := some a, index := i } keys) {e : Key × Value}
    (hderef : Iterator.deref h { leaf := some a, index := i } = some e) :
    ∃ before rest, t.entries = before ++ rest ∧ keys = keysOf rest ∧
      ∀ fuel, t.entries.length ≤ fuel →
        iterateFrom h fuel { leaf := some a, index := i } = some rest := by
  obtain ⟨before, l, path, next, hentries, -, hread, hpath, rfl⟩ := ht.exists_ahead ha hit
  refine ⟨before, _, hentries, rfl, fun fuel hfuel ↦ ?_⟩
  have hi : i < l.length := by
    by_contra hle
    simp [Iterator.deref, hread, not_lt.mp hle] at hderef
  rw [hentries, List.length_append, List.length_append, List.length_drop] at hfuel
  obtain ⟨extra, rfl⟩ := Nat.exists_eq_add_of_le' hfuel
  have hsum : extra + (before.length + (l.length - i + (path.flatMap Prod.snd).length)) =
      extra + before.length + (path.flatMap Prod.snd).length + (l.length - i) := by omega
  rw [hsum, iterateFrom_leaf hread _ i hi, hpath.iterateFrom_eq, Option.map_map,
    iterateFrom_end, Option.map_some, Function.comp_apply, List.append_nil]

end Ahead

/-! ### The nodes of an object under events -/

/-- Where an event leaves the nodes of object `i`: a move takes them along, and objects move up when
one in front is destroyed. They are gone when the object itself is cleared, assigned to or
destroyed. -/
def Pool.follow (w : Pool Key Value) (i : ℕ) : Event Key Value → Option ℕ
  | .command (.op (.clear j)) => if j = i then none else some i
  | .command (.op (.copyAssign j source)) => if j = i ∧ j ≠ source then none else some i
  | .command (.op _) => some i
  | .command (.moveConstruct source) => if source = i then some w.trees.length else some i
  | .command (.moveAssign j source) =>
    if j = source then some i
    else if source = i then some (if j < w.trees.length then j else i)
    else if j = i then none
    else some i
  | .destroy j => if j = i then none else some (if j < i then i - 1 else i)

/-- Insertion of an entry into object `i`. -/
def Event.isInsert (e : Event Key Value) (i : ℕ) : Prop :=
  ∃ key value, e = .command (.op (.insert i key value))

section Events

variable [LinearOrder Key] {w w' : Pool Key Value} {content : ℕ → Content Key Value}
  {hs : Histories Key Value} {i j : ℕ}

/-- What is written while one object is replaced lies outside the others. -/
theorem Owned.read_eq_of_keeps (hw : Owned w content hs) {h' : Memory Key Value} (hij : i ≠ j)
    (hkeeps : w.heap.Keeps h' {a | a ∈ (content j).addrs}) :
    ∀ a ∈ (content i).addrs, h'.read a = w.heap.read a := fun a ha ↦
  hkeeps.read_eq a (hw.lt_bound i a ha) (hw.disjoint i j hij a ha)

theorem Owned.read_eq_of_update (hw : Owned w content hs) (hij : i ≠ j)
    {f : Memory Key Value → FBPlusTree → Option (Memory Key Value × FBPlusTree)}
    (hstep : w.update j f = some w')
    (hf : ∀ t, Holds w.heap t (content j) →
      ∃ h' t', f w.heap t = some (h', t') ∧ w.heap.Keeps h' {a | a ∈ (content j).addrs}) :
    ∀ a ∈ (content i).addrs, w'.heap.read a = w.heap.read a := by
  unfold Pool.update at hstep
  cases ht : w.trees[j]? with
  | none =>
    rw [ht] at hstep
    cases hstep
    exact fun _ _ ↦ rfl
  | some t =>
    obtain ⟨h', t', hrun, hkeeps⟩ := hf t (hw.holds j t ht)
    simp only [ht, hrun, Option.bind_eq_bind, Option.bind_some, Option.some_inj] at hstep
    subst hstep
    exact hw.read_eq_of_keeps hij hkeeps

/-- An operation writes to no object but its target. -/
theorem Owned.step_read_eq (hw : Owned w content hs) {o : Op Key Value}
    (hstep : w.step o = some w') (ho : o.target ≠ some i) :
    ∀ a ∈ (content i).addrs, w'.heap.read a = w.heap.read a := by
  cases o with
  | create =>
    cases hstep
    exact fun _ _ ↦ rfl
  | insert j key value =>
    refine hw.read_eq_of_update (f := fun h t ↦ FBPTree.insert h t key value)
      (fun h ↦ ho (congrArg some h.symm)) hstep fun t ht ↦ ?_
    obtain ⟨h', t', g, hrun, -, -, hfoot⟩ := insert_spec ht key value
    exact ⟨h', t', hrun, hfoot.keeps⟩
  | clear j =>
    refine hw.read_eq_of_update (fun h ↦ ho (congrArg some h.symm)) hstep fun t ht ↦ ?_
    obtain ⟨h', t', hrun, -, hfoot⟩ := clear_spec ht
    exact ⟨h', t', hrun, hfoot.keeps⟩
  | copyConstruct source =>
    simp only [Pool.step] at hstep
    cases htree : w.trees[source]? with
    | none =>
      rw [htree] at hstep
      cases hstep
      exact fun _ _ ↦ rfl
    | some other =>
      obtain ⟨h', t', g, hrun, -, -, hfoot⟩ := copyConstruct_spec (hw.holds source other htree)
      simp only [htree, hrun, Option.bind_eq_bind, Option.bind_some, Option.some_inj] at hstep
      subst hstep
      exact fun a ha ↦ hfoot.keeps.read_eq a (hw.lt_bound i a ha) (by simp [Content.addrs])
  | copyAssign j source =>
    simp only [Pool.step] at hstep
    cases htree : w.trees[source]? with
    | none =>
      rw [htree] at hstep
      cases hstep
      exact fun _ _ ↦ rfl
    | some other =>
      rw [htree] at hstep
      simp only at hstep
      split_ifs at hstep with heq
      · cases hstep
        exact fun _ _ ↦ rfl
      · refine hw.read_eq_of_update (fun h ↦ ho (congrArg some h.symm)) hstep fun t ht ↦ ?_
        obtain ⟨h', t', g, hrun, -, -, hfoot⟩ :=
          copyAssign_spec ht (hw.holds source other htree)
        exact ⟨h', t', hrun, hfoot.keeps⟩

theorem Owned.op_read_eq (hw : Owned w.settled content hs) {o : Op Key Value}
    (hstep : w.step o = some w') (ho : o.target ≠ some i) :
    ∀ a ∈ (content i).addrs, w'.heap.read a = w.heap.read a := by
  have hsettled := w.step_settled o
  rw [hstep, Option.map_some] at hsettled
  obtain ⟨w₁, hstep₁, heq⟩ := Option.map_eq_some_iff.mp hsettled
  have hheap : w₁.settled.heap = w'.settled.heap := congrArg Pool.heap heq
  exact fun a ha ↦ (congrArg (Heap.read · a) hheap).symm.trans (hw.step_read_eq hstep₁ ho a ha)

/-- Object `j` has the nodes `g` that object `i` had, as they were. -/
structure Carries (w w' : Pool Key Value) (i j : ℕ) (g : Content Key Value) : Prop where
  root_eq : w'.pointee (.root j) = w.pointee (.root i)
  read_eq : ∀ a ∈ g.addrs, w'.heap.read a = w.heap.read a

theorem Owned.op_carries (hw : Owned w.settled content hs) (hi : i < w.trees.length)
    {o : Op Key Value} (hstep : w.step o = some w')
    (hfollow : w.follow i (.command (.op o)) = some j)
    (hinsert : ¬ (Event.command (.op o)).isInsert i) : Carries w w' i j (content i) := by
  have ht := List.getElem?_eq_getElem hi
  have hother (ho : o.target ≠ some i) : Carries w w' i i (content i) := by
    refine ⟨?_, hw.op_read_eq hstep ho⟩
    rw [Pool.pointee, Pool.pointee, Pool.step_of_target_ne ht ho hstep, ht]
  cases o with
  | create =>
    cases hfollow
    exact hother (by simp [Op.target])
  | insert k key value =>
    cases hfollow
    refine hother fun htarget ↦ hinsert ⟨key, value, ?_⟩
    cases htarget
    rfl
  | clear k =>
    obtain ⟨hki, hij⟩ := Option.ite_none_left_eq_some.mp hfollow
    cases hij
    exact hother fun htarget ↦ hki (Option.some.inj htarget)
  | copyConstruct source =>
    cases hfollow
    exact hother (by simp [Op.target])
  | copyAssign k source =>
    obtain ⟨hki, hij⟩ := Option.ite_none_left_eq_some.mp hfollow
    cases hij
    by_cases htarget : k = i
    · -- the object is assigned to itself
      subst htarget
      obtain rfl : k = source := by
        by_contra hne
        exact hki ⟨rfl, hne⟩
      simp only [Pool.step, ht, if_pos, Option.some_inj] at hstep
      subst hstep
      exact ⟨rfl, fun _ _ ↦ rfl⟩
    · exact hother fun h ↦ htarget (Option.some.inj h)

/-- Releasing the nodes of another object. -/
theorem Owned.reset_read_eq (hw : Owned w.settled content hs) (hij : i ≠ j) {t : FBPlusTree}
    (ht : w.trees[j]? = some t) {h' : Memory Key Value}
    (hrun : resetRoot w.heap t.root = some h') :
    ∀ a ∈ (content i).addrs, h'.read a = w.heap.read a := by
  obtain ⟨h'', hrun', hkeeps, -⟩ := resetRoot_spec (hw.holds j _ (Pool.getElem?_settled_some ht))
  rw [FBPlusTree.root_settled] at hrun'
  cases hrun.symm.trans hrun'
  exact hw.read_eq_of_keeps hij hkeeps

omit [LinearOrder Key] in
theorem Pool.pointee_root_of_tree {t : FBPlusTree} (ht : w.trees[i]? = some t) :
    w.pointee (.root i) = t.root := by
  rw [Pool.pointee, ht, Option.bind_some]

theorem moveConstruct_carries (hi : i < w.trees.length) {source : ℕ}
    (hstep : w.execute (.moveConstruct source) = some w')
    (hfollow : w.follow i (.command (.moveConstruct source)) = some j) (g : Content Key Value) :
    Carries w w' i j g := by
  have ht := List.getElem?_eq_getElem hi
  simp only [Pool.execute] at hstep
  simp only [Pool.follow] at hfollow
  cases hother : w.trees[source]? with
  | none =>
    have hne : source ≠ i := by
      rintro rfl
      rw [ht] at hother
      cases hother
    rw [if_neg hne, Option.some_inj] at hfollow
    simp only [hother, Option.some_inj] at hstep
    subst hstep hfollow
    exact ⟨rfl, fun _ _ ↦ rfl⟩
  | some other =>
    simp only [hother, Option.some_inj] at hstep
    subst hstep
    refine ⟨?_, fun _ _ ↦ rfl⟩
    split_ifs at hfollow with hsource
    · cases hfollow
      subst hsource
      rw [Pool.pointee_root_of_tree hother]
      exact Pool.pointee_root_of_tree (by simp)
    · cases hfollow
      rw [Pool.pointee_root_of_tree ht]
      exact Pool.pointee_root_of_tree (by simp [List.getElem?_append, hi, hsource])

theorem Owned.moveAssign_carries (hw : Owned w.settled content hs) (hi : i < w.trees.length)
    {k source : ℕ} (hstep : w.execute (.moveAssign k source) = some w')
    (hfollow : w.follow i (.command (.moveAssign k source)) = some j) :
    Carries w w' i j (content i) := by
  have ht := List.getElem?_eq_getElem hi
  simp only [Pool.execute] at hstep
  simp only [Pool.follow] at hfollow
  cases hk : w.trees[k]? with
  | none =>
    have hle := List.getElem?_eq_none_iff.mp hk
    simp only [hk, Option.some_inj] at hstep
    obtain rfl : j = i := by
      split_ifs at hfollow <;> grind
    subst hstep
    exact ⟨rfl, fun _ _ ↦ rfl⟩
  | some tk =>
    have hlt := (List.getElem?_eq_some_iff.mp hk).1
    cases hother : w.trees[source]? with
    | none =>
      have hle := List.getElem?_eq_none_iff.mp hother
      simp only [hk, hother, Option.some_inj] at hstep
      obtain rfl : j = i := by
        split_ifs at hfollow <;> grind
      subst hstep
      exact ⟨rfl, fun _ _ ↦ rfl⟩
    | some other =>
      simp only [hk, hother] at hstep
      split_ifs at hstep hfollow with heq hsource hki
      · cases hstep
        cases hfollow
        exact ⟨rfl, fun _ _ ↦ rfl⟩
      · -- the target takes over the nodes
        obtain ⟨h', hrun, hw'⟩ := Option.bind_eq_some_iff.mp hstep
        cases hw'
        cases hfollow
        subst hsource
        refine ⟨?_, hw.reset_read_eq (Ne.symm heq) hk hrun⟩
        rw [Pool.pointee_root_of_tree hother]
        exact Pool.pointee_root_of_tree (by simp [hlt, Ne.symm heq])
      · obtain ⟨h', hrun, hw'⟩ := Option.bind_eq_some_iff.mp hstep
        cases hw'
        cases hfollow
        refine ⟨?_, hw.reset_read_eq (Ne.symm hki) hk hrun⟩
        rw [Pool.pointee_root_of_tree ht]
        exact Pool.pointee_root_of_tree (by simp [hi, hsource, hki])

theorem Owned.destroy_carries (hw : Owned w.settled content hs) (hi : i < w.trees.length)
    {k : ℕ} (hstep : w.perform (.destroy k) = some w')
    (hfollow : w.follow i (.destroy k) = some j) : Carries w w' i j (content i) := by
  simp only [Pool.perform] at hstep
  obtain ⟨hki, hij⟩ := Option.ite_none_left_eq_some.mp hfollow
  cases hij
  cases hk : w.trees[k]? with
  | none =>
    have hle := List.getElem?_eq_none_iff.mp hk
    simp only [hk, Option.some_inj] at hstep
    subst hstep
    rw [if_neg (by omega)]
    exact ⟨rfl, fun _ _ ↦ rfl⟩
  | some tk =>
    simp only [hk, Option.bind_eq_bind, Option.bind_eq_some_iff, Option.some_inj] at hstep
    obtain ⟨h', hrun, rfl⟩ := hstep
    refine ⟨?_, hw.reset_read_eq (Ne.symm hki) hk hrun⟩
    have hplace : placeBefore k (if k < i then i - 1 else i) = i := by
      unfold placeBefore
      split_ifs <;> omega
    rw [Pool.pointee, Pool.pointee, getElem?_eraseIdx_placeBefore, hplace]

/-- Unless it is an insertion into the object, an event that does not release the nodes of an object
leaves them as they are. -/
theorem Owned.perform_carries (hw : Owned w.settled content hs) (hi : i < w.trees.length)
    {e : Event Key Value} (hstep : w.perform e = some w') (hfollow : w.follow i e = some j)
    (hinsert : ¬ e.isInsert i) : Carries w w' i j (content i) := by
  cases e with
  | command c =>
    cases c with
    | op o => exact hw.op_carries hi hstep hfollow hinsert
    | moveConstruct source => exact moveConstruct_carries hi hstep hfollow _
    | moveAssign k source => exact hw.moveAssign_carries hi hstep hfollow
  | destroy k => exact hw.destroy_carries hi hstep hfollow

/-- The iterator is in a leaf of object `i`, or at the end, and has `keys` ahead. -/
structure Iterator.Inside (w : Pool Key Value) (i : ℕ) (it : Iterator) (keys : List Key) :
    Prop where
  ahead : it.Ahead w.heap keys
  reached : ∀ a, it.leaf = some a →
    ∃ root depth, w.pointee (.root i) = some root ∧ Descends w.heap root a depth

variable {it : Iterator} {keys : List Key}

/-- An iterator moves along with the nodes. -/
theorem Iterator.Inside.carry (hit : it.Inside w i keys) (hw : Owned w.settled content hs)
    (hcarry : Carries w w' i j (content i)) : it.Inside w' j keys := by
  obtain ⟨hahead, hreached⟩ := hit
  cases hleaf : it.leaf with
  | none =>
    cases hahead with
    | finish => exact ⟨.finish, by simp⟩
    | inside => cases hleaf
  | some a =>
    obtain ⟨obj, d, t, hcontent, ha, hown⟩ :=
      hw.exists_owns (hw.mem_addrs_iff.mpr (hreached a hleaf))
    have hread := hcarry.read_eq
    rw [hcontent] at hread
    have hroot := hw.pointee_root i
    rw [hcontent, Option.map_some] at hroot
    refine ⟨hahead.congr hown.represents hread fun b hb ↦ ?_, fun b hb ↦ ?_⟩
    · rw [hleaf, Option.some_inj] at hb
      exact hb ▸ ha
    · rw [hleaf, Option.some_inj] at hb
      subst hb
      obtain ⟨depth, hpath⟩ := (hown.represents.congr hread).exists_descends ha
      exact ⟨_, depth, hcarry.root_eq.trans hroot, hpath⟩

/-- An iterator stays in its object when an entry is inserted, and keeps what it has ahead. -/
theorem Iterator.Inside.insert (hit : it.Inside w i keys) (hw : Owned w.settled content hs)
    {key : Key} {value : Value} (hstep : w.step (.insert i key value) = some w') :
    ∃ keys', it.Inside w' i keys' ∧ keys ⊆ keys' := by
  simp only [Pool.step, Pool.update] at hstep
  cases ht : w.trees[i]? with
  | none =>
    simp only [ht, Option.some_inj] at hstep
    subst hstep
    exact ⟨keys, hit, List.Subset.refl _⟩
  | some t =>
    simp only [ht, Option.bind_eq_bind, Option.bind_eq_some_iff, Option.some_inj] at hstep
    obtain ⟨⟨h', t'⟩, hrun, rfl⟩ := hstep
    obtain ⟨keys', hahead', hsub⟩ := (insert_grows hrun).ahead hit.ahead
    refine ⟨keys', ⟨hahead', fun a ha ↦ ?_⟩, hsub⟩
    obtain ⟨h'', obj', g', hrun', hg', -, hexchange⟩ :=
      insert_spec (hw.holds i _ (Pool.getElem?_settled_some ht)) key value
    rw [insert_settled] at hrun'
    cases hrun.symm.trans hrun'
    have hin := hw.mem_addrs_iff.mpr (hit.reached a ha)
    have hnew : a ∈ g'.addrs := by
      rcases (hexchange.accounts a).mp (hahead'.mem_live ha) with hnew | ⟨-, hout⟩
      · exact hnew
      · exact absurd hin hout
    obtain ⟨hi, -⟩ := List.getElem?_eq_some_iff.mp ht
    have hroot : (⟨h', w.trees.set i t'⟩ : Pool Key Value).pointee (.root i) = t'.root :=
      Pool.pointee_root_of_tree (by simp [hi])
    cases g' with
    | none => simp [Content.addrs] at hnew
    | some top =>
      obtain ⟨d, tree⟩ := top
      obtain ⟨depth, hpath⟩ := (Owns.represents hg').exists_descends hnew
      exact ⟨tree.addr, depth, hroot.trans (Owns.root_eq hg'), hpath⟩

/-- Whatever happens to the objects of a program, an iterator into one of them stays in it and keeps
what it has ahead, unless the nodes of the object are released. -/
theorem Iterator.Inside.perform (hit : it.Inside w i keys) (hw : Owned w.settled content hs)
    {e : Event Key Value} (hstep : w.perform e = some w') (hfollow : w.follow i e = some j) :
    ∃ keys', it.Inside w' j keys' ∧ keys ⊆ keys' := by
  by_cases hinsert : e.isInsert i
  · obtain ⟨key, value, rfl⟩ := hinsert
    cases hfollow
    exact hit.insert hw hstep
  · cases hleaf : it.leaf with
    | none =>
      obtain ⟨hahead, -⟩ := hit
      cases hahead with
      | finish => exact ⟨[], ⟨.finish, by simp⟩, List.Subset.refl _⟩
      | inside => cases hleaf
    | some a =>
      obtain ⟨root, depth, hroot, -⟩ := hit.reached a hleaf
      have hi : i < w.trees.length := by
        by_contra hle
        simp [Pool.pointee, List.getElem?_eq_none (not_lt.mp hle)] at hroot
      exact ⟨keys, hit.carry hw (hw.perform_carries hi hstep hfollow hinsert),
        List.Subset.refl _⟩

omit [LinearOrder Key] in
theorem Iterator.Inside.nil_of_end (hit : Iterator.Inside w i {} keys) : keys = [] := by
  obtain ⟨hahead, -⟩ := hit
  generalize hend : ({} : Iterator) = it at hahead
  cases hahead with
  | finish => rfl
  | inside => cases hend

/-- `++it` is defined for an iterator that is inside an object or at the end. -/
theorem Iterator.Inside.advance_eq (hit : it.Inside w i keys) (hw : Owned w.settled content hs) :
    ∃ it' keys', it.advance w.heap = some it' ∧ it'.Inside w i keys' ∧ keys.Pairwise (· < ·) ∧
      keys'.Pairwise (· < ·) ∧ (keys = keys' ∨ ∃ k, keys = k :: keys') ∧
      (it' = {} ∨ ∃ e rest, it' ≠ {} ∧ it'.deref w.heap = some e ∧ keys' = e.1 :: rest) := by
  obtain ⟨hahead, hreached⟩ := hit
  cases hleaf : it.leaf with
  | none =>
    cases hahead with
    | finish => exact ⟨{}, [], rfl, ⟨.finish, by simp⟩, by simp, by simp, Or.inl rfl, Or.inl rfl⟩
    | inside => cases hleaf
  | some a =>
    obtain ⟨obj, d, t, hcontent, ha, hown⟩ :=
      hw.exists_owns (hw.mem_addrs_iff.mpr (hreached a hleaf))
    have hmem : ∀ b, it.leaf = some b → b ∈ t.addrs := fun b hb ↦ by
      rw [hleaf, Option.some_inj] at hb
      exact hb ▸ ha
    obtain ⟨it', keys', hadvance, hahead', hmem', hpass, harrive⟩ := hown.advance_eq hahead hmem
    refine ⟨it', keys', hadvance, ⟨hahead', fun b hb ↦ ?_⟩, hown.sorted_ahead hahead hmem,
      hown.sorted_ahead hahead' hmem', hpass, harrive⟩
    have hroot := hw.pointee_root i
    rw [hcontent, Option.map_some] at hroot
    obtain ⟨depth, hpath⟩ := hown.represents.exists_descends (hmem' b hb)
    exact ⟨t.addr, depth, hroot, hpath⟩

end Events

end WsServer.FBPTree
