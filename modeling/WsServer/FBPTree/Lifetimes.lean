import WsServer.FBPTree.Moves
import WsServer.FBPTree.Occupancy

/-!
# The nodes of all objects

Objects come and go, and their nodes with them: every node in the heap has one owner, an object or
an inner node, over which it is reached from exactly one object. `owners_of_reachable` says so for
every sequence of operations, moves and destructions, and that neither an owning pointer nor `next`
ever dangles. When the last object is gone, nothing is left.
-/

set_option autoImplicit false
set_option relaxedAutoImplicit false

namespace WsServer.FBPTree

open Foundations

variable {Key Value : Type}

/-- What happens to the objects of a program. The keys and values of an insertion are values of the
client and no references into an object. -/
inductive Event (Key Value : Type)
  | command (c : Command Key Value)
  | destroy (i : ℕ)

/-- The destructor releases the tree; the objects behind move up. -/
def Pool.perform [LinearOrder Key] (w : Pool Key Value) : Event Key Value → Option (Pool Key Value)
  | .command c => w.execute c
  | .destroy i =>
    match w.trees[i]? with
    | none => some w
    | some t => do
      let h ← resetRoot w.heap t.root
      some { heap := h, trees := w.trees.eraseIdx i }

/-- The owning pointers: `root_` of an object, and the children of an inner node. -/
inductive Pointer
  | root (i : ℕ)
  | child (n k : ℕ)
  deriving DecidableEq

/-- The child `k` of the node `n`. -/
def childAt (h : Memory Key Value) (n k : ℕ) : Option ℕ :=
  match h.read n with
  | some (.inner _ children) => children[k]?
  | _ => none

/-- What an owning pointer points to. -/
def Pool.pointee (w : Pool Key Value) : Pointer → Option ℕ
  | .root i => w.trees[i]?.bind FBPlusTree.root
  | .child n k => childAt w.heap n k

/-! ### The pointers of one tree -/

section Tree

variable {h : Memory Key Value} {d : ℕ} {a : ℕ} {ks : List Key}
  {cs : List (Tree Key Value d)} {next : Option ℕ}

theorem childAt_top {k : ℕ} (ht : Represents h (Tree.inner a ks cs) next) :
    childAt h a k = cs[k]?.map Tree.addr := by
  simp [childAt, ((represents_inner _ _ _ _).mp ht).1]

/-- Subtrees at different places have no node in common. -/
theorem eq_of_mem_addrs (hnodup : (cs.flatMap Tree.addrs).Nodup) {i j x : ℕ}
    {c c' : Tree Key Value d} (hc : cs[i]? = some c) (hc' : cs[j]? = some c') (hx : x ∈ c.addrs)
    (hx' : x ∈ c'.addrs) : i = j := by
  obtain ⟨-, hpair⟩ := List.nodup_flatMap.mp hnodup
  obtain ⟨hi, rfl⟩ := List.getElem?_eq_some_iff.mp hc
  obtain ⟨hj, rfl⟩ := List.getElem?_eq_some_iff.mp hc'
  rcases lt_trichotomy i j with hlt | heq | hlt
  · exact absurd hx' (List.pairwise_iff_getElem.mp hpair i j hi hj hlt hx)
  · exact heq
  · exact absurd hx (List.pairwise_iff_getElem.mp hpair j i hj hi hlt hx')

/-- A child of a node of the tree is a node of the tree, and not its top. -/
theorem Represents.child_mem {t : Tree Key Value d} (ht : Represents h t next)
    (hnodup : t.addrs.Nodup) {n k x : ℕ} (hn : n ∈ t.addrs) (hx : childAt h n k = some x) :
    x ∈ t.addrs ∧ x ≠ t.addr := by
  induction d generalizing next with
  | zero =>
    obtain ⟨a, l, rfl⟩ := t.eq_leaf
    obtain rfl := List.mem_singleton.mp hn
    simp [childAt, (represents_leaf _ _ _).mp ht] at hx
  | succ d ih =>
    obtain ⟨a, ks, cs, rfl⟩ := t.eq_inner
    obtain ⟨ha, hnd⟩ := List.nodup_cons.mp hnodup
    have hbelow : ∃ c ∈ cs, x ∈ c.addrs := by
      rcases List.mem_cons.mp hn with rfl | hn
      · rw [childAt_top ht, Option.map_eq_some_iff] at hx
        obtain ⟨c, hc, rfl⟩ := hx
        exact ⟨c, List.mem_of_getElem? hc, c.addr_mem_addrs⟩
      · obtain ⟨c, hc, hnc⟩ := List.mem_flatMap.mp hn
        obtain ⟨next', hrep⟩ := ht.2.exists_of_mem hc
        exact ⟨c, hc, (ih hrep ((List.nodup_flatMap.mp hnd).1 c hc) hnc).1⟩
    obtain ⟨c, hc, hxc⟩ := hbelow
    have hmem : x ∈ cs.flatMap Tree.addrs := List.mem_flatMap.mpr ⟨c, hc, hxc⟩
    exact ⟨List.mem_cons_of_mem _ hmem, fun heq ↦ ha (heq ▸ hmem)⟩

/-- Every node but the top is the child of exactly one node, at one place. -/
theorem Represents.exists_unique_child {t : Tree Key Value d} (ht : Represents h t next)
    (hnodup : t.addrs.Nodup) {x : ℕ} (hx : x ∈ t.addrs) (hne : x ≠ t.addr) :
    ∃ n k, (n ∈ t.addrs ∧ childAt h n k = some x) ∧
      ∀ n' ∈ t.addrs, ∀ k', childAt h n' k' = some x → n' = n ∧ k' = k := by
  induction d generalizing next with
  | zero =>
    obtain ⟨a, l, rfl⟩ := t.eq_leaf
    exact absurd (List.mem_singleton.mp hx) hne
  | succ d ih =>
    obtain ⟨a, ks, cs, rfl⟩ := t.eq_inner
    obtain ⟨ha, hnd⟩ := List.nodup_cons.mp hnodup
    obtain ⟨c, hc, hxc⟩ := List.mem_flatMap.mp ((List.mem_cons.mp hx).resolve_left hne)
    have hc : c ∈ cs := hc
    obtain ⟨i, hi⟩ := List.getElem?_of_mem hc
    obtain ⟨next', hrep⟩ := ht.2.exists_of_mem hc
    have hndc := (List.nodup_flatMap.mp hnd).1 c hc
    -- a pointer to `x` comes from the top or from the subtree of `x`
    have hfrom : ∀ n' ∈ (Tree.inner a ks cs).addrs, ∀ k', childAt h n' k' = some x →
        (n' = a ∧ k' = i ∧ x = c.addr) ∨ (n' ∈ c.addrs ∧ x ≠ c.addr) := fun n' hn' k' hk' ↦ by
      rcases List.mem_cons.mp hn' with rfl | hn'
      · rw [childAt_top ht, Option.map_eq_some_iff] at hk'
        obtain ⟨c', hc', rfl⟩ := hk'
        obtain rfl := eq_of_mem_addrs hnd hi hc' hxc c'.addr_mem_addrs
        obtain rfl := Option.some.inj (hi.symm.trans hc')
        exact Or.inl ⟨rfl, rfl, rfl⟩
      · obtain ⟨c', hc', hnc'⟩ := List.mem_flatMap.mp hn'
        obtain ⟨j, hj⟩ := List.getElem?_of_mem hc'
        obtain ⟨next'', hrep'⟩ := ht.2.exists_of_mem hc'
        obtain ⟨hxc', hxne⟩ :=
          hrep'.child_mem ((List.nodup_flatMap.mp hnd).1 c' hc') hnc' hk'
        obtain rfl := eq_of_mem_addrs hnd hi hj hxc hxc'
        obtain rfl := Option.some.inj (hi.symm.trans hj)
        exact Or.inr ⟨hnc', hxne⟩
    by_cases hxtop : x = c.addr
    · refine ⟨a, i, ⟨List.mem_cons_self, by rw [childAt_top ht, hi, Option.map_some, hxtop]⟩,
        fun n' hn' k' hk' ↦ ?_⟩
      rcases hfrom n' hn' k' hk' with ⟨hn, hk, -⟩ | ⟨-, hxne⟩
      · exact ⟨hn, hk⟩
      · exact absurd hxtop hxne
    · obtain ⟨n, k, ⟨hn, hk⟩, hunique⟩ := ih hrep hndc hxc hxtop
      refine ⟨n, k, ⟨Tree.addrs_child_subset hc hn, hk⟩, fun n' hn' k' hk' ↦ ?_⟩
      rcases hfrom n' hn' k' hk' with ⟨-, -, hxeq⟩ | ⟨hnc', -⟩
      · exact absurd hxeq hxtop
      · exact hunique n' hnc' k' hk'

/-- The nodes of the tree are those below its top. -/
theorem Represents.exists_descends {t : Tree Key Value d} (ht : Represents h t next) {x : ℕ}
    (hx : x ∈ t.addrs) : ∃ depth, Descends h t.addr x depth := by
  induction d generalizing next with
  | zero =>
    obtain ⟨a, l, rfl⟩ := t.eq_leaf
    obtain rfl := List.mem_singleton.mp hx
    exact ⟨0, .refl x⟩
  | succ d ih =>
    obtain ⟨a, ks, cs, rfl⟩ := t.eq_inner
    rcases List.mem_cons.mp hx with rfl | hx
    · exact ⟨0, .refl x⟩
    · obtain ⟨c, hc, hxc⟩ := List.mem_flatMap.mp hx
      obtain ⟨next', hrep⟩ := ht.2.exists_of_mem hc
      obtain ⟨depth, hpath⟩ := ih hrep hxc
      exact ⟨depth + 1,
        .child ((represents_inner _ _ _ _).mp ht).1 (List.mem_map_of_mem hc) hpath⟩

theorem Represents.mem_of_descends {t : Tree Key Value d} (ht : Represents h t next)
    (hnodup : t.addrs.Nodup) {n x depth : ℕ} (hpath : Descends h n x depth) (hn : n ∈ t.addrs) :
    x ∈ t.addrs := by
  induction hpath with
  | refl => exact hn
  | child hread hc _ ih =>
    obtain ⟨k, hk⟩ := List.getElem?_of_mem hc
    exact ih (ht.child_mem hnodup hn (k := k) (by simp [childAt, hread, hk])).1

/-- `next` of a leaf is the next leaf of the tree, or what follows the tree. -/
theorem Represents.next_mem {t : Tree Key Value d} (ht : Represents h t next) {x : ℕ}
    (hx : x ∈ t.addrs) {keys : List Key} {values : List Value} {next' : Option ℕ}
    (hread : h.read x = some (.leaf keys values next')) :
    next' = next ∨ ∃ y ∈ t.leaves, next' = some y := by
  induction d generalizing next with
  | zero =>
    obtain ⟨a, l, rfl⟩ := t.eq_leaf
    obtain rfl := List.mem_singleton.mp hx
    rw [(represents_leaf _ _ _).mp ht] at hread
    cases hread
    exact Or.inl rfl
  | succ d ih =>
    obtain ⟨a, ks, cs, rfl⟩ := t.eq_inner
    rcases List.mem_cons.mp hx with rfl | hx
    · simp [((represents_inner _ _ _ _).mp ht).1] at hread
    · obtain ⟨c, hc, hxc⟩ := List.mem_flatMap.mp hx
      obtain ⟨cs₁, cs₂, rfl⟩ := List.append_of_mem hc
      have hrep := ((chainedAll_append _ _ _ _ _).mp ht.2).2.1
      rcases ih hrep hxc with rfl | ⟨y, hy, rfl⟩
      · cases hhead : (cs₂.flatMap Tree.leaves).head? with
        | none => exact Or.inl (by simp)
        | some y =>
          have hy := List.mem_of_mem_head? hhead
          exact Or.inr ⟨y, by simp [hy], by simp⟩
      · exact Or.inr ⟨y, by simp [hy], rfl⟩

theorem Represents.leaf_at {t : Tree Key Value d} (ht : Represents h t next) {x : ℕ}
    (hx : x ∈ t.leaves) : ∃ keys values next', h.read x = some (.leaf keys values next') := by
  induction d generalizing next with
  | zero =>
    obtain ⟨a, l, rfl⟩ := t.eq_leaf
    obtain rfl := List.mem_singleton.mp hx
    exact ⟨_, _, _, (represents_leaf _ _ _).mp ht⟩
  | succ d ih =>
    obtain ⟨a, ks, cs, rfl⟩ := t.eq_inner
    obtain ⟨c, hc, hxc⟩ := List.mem_flatMap.mp hx
    obtain ⟨next', hrep⟩ := ht.2.exists_of_mem hc
    exact ih hrep hxc

end Tree

/-! ### The pointers of a pool -/

section Pool

variable [LinearOrder Key] {w : Pool Key Value} {content : ℕ → Content Key Value}
  {hs : Histories Key Value}

omit [LinearOrder Key] in
theorem Pool.length_settled (w : Pool Key Value) : w.settled.trees.length = w.trees.length :=
  List.length_map _

/-- `root_` of an object points to the top of its content. -/
theorem Owned.pointee_root (hw : Owned w.settled content hs) (i : ℕ) :
    w.pointee (.root i) = (content i).map fun t ↦ t.2.addr := by
  cases ht : w.trees[i]? with
  | none =>
    rw [List.getElem?_eq_none_iff, ← w.length_settled] at ht
    rw [hw.outside i ht, Pool.pointee, List.getElem?_eq_none (w.length_settled ▸ ht)]
    rfl
  | some obj =>
    have hholds := hw.holds i _ (Pool.getElem?_settled_some ht)
    rw [Pool.pointee, ht, Option.bind_some, ← obj.root_settled]
    match hcontent : content i with
    | none =>
      rw [hcontent] at hholds
      exact hholds.1
    | some ⟨d, t⟩ =>
      rw [hcontent] at hholds
      exact Owns.root_eq hholds

/-- The nodes of an object with what it owns. -/
theorem Owned.exists_owns (hw : Owned w.settled content hs) {i a : ℕ}
    (ha : a ∈ (content i).addrs) : ∃ (obj : FBPlusTree) (d : ℕ) (t : Tree Key Value d),
      content i = some ⟨d, t⟩ ∧ a ∈ t.addrs ∧ Owns w.heap obj t := by
  match hcontent : content i with
  | none => simp [hcontent, Content.addrs] at ha
  | some ⟨d, t⟩ =>
    rw [hcontent] at ha
    have hlt : i < w.settled.trees.length := by
      by_contra hle
      simp [hw.outside i (not_lt.mp hle)] at hcontent
    have hholds := hw.holds i _ (List.getElem?_eq_getElem hlt)
    rw [hcontent] at hholds
    exact ⟨_, d, t, rfl, ha, hholds⟩

/-- Reaching a node from `root_` of an object is having it among its nodes. -/
theorem Owned.mem_addrs_iff (hw : Owned w.settled content hs) {i a : ℕ} :
    a ∈ (content i).addrs ↔
      ∃ root depth, w.pointee (.root i) = some root ∧ Descends w.heap root a depth := by
  rw [hw.pointee_root i]
  constructor
  · intro ha
    obtain ⟨obj, d, t, hcontent, hat, hown⟩ := hw.exists_owns ha
    obtain ⟨depth, hpath⟩ := hown.represents.exists_descends hat
    exact ⟨t.addr, depth, by rw [hcontent, Option.map_some], hpath⟩
  · rintro ⟨root, depth, hroot, hpath⟩
    obtain ⟨⟨d, t⟩, hcontent, rfl⟩ := Option.map_eq_some_iff.mp hroot
    have htop : t.addr ∈ (content i).addrs := by
      rw [hcontent]
      exact t.addr_mem_addrs
    obtain ⟨obj, d', t', hcontent', -, hown⟩ := hw.exists_owns htop
    rw [hcontent] at hcontent' ⊢
    cases hcontent'
    exact hown.represents.mem_of_descends hown.nodup hpath t.addr_mem_addrs

/-- An owning pointer points to a node of the object that it belongs to. -/
theorem Owned.pointee_mem (hw : Owned w.settled content hs) (hacc : Accounted w.heap content)
    {p : Pointer} {a : ℕ} (hp : w.pointee p = some a) : ∃ i, a ∈ (content i).addrs := by
  cases p with
  | root i => exact ⟨i, hw.mem_addrs_iff.mpr ⟨a, 0, hp, .refl a⟩⟩
  | child n k =>
    have hchild : childAt w.heap n k = some a := hp
    have hlive : n ∈ w.heap.live := by
      cases hread : w.heap.read n with
      | none => simp [childAt, hread] at hchild
      | some node => exact Heap.mem_live_of_read hread
    obtain ⟨i, hn⟩ := (hacc n).mp hlive
    obtain ⟨obj, d, t, hcontent, hnt, hown⟩ := hw.exists_owns hn
    refine ⟨i, ?_⟩
    rw [hcontent]
    exact (hown.represents.child_mem hown.nodup hnt hchild).1

/-- Every node has exactly one owning pointer. -/
theorem Owned.exists_unique_pointee (hw : Owned w.settled content hs)
    (hacc : Accounted w.heap content) {i a : ℕ} (ha : a ∈ (content i).addrs) :
    ∃! p, w.pointee p = some a := by
  obtain ⟨obj, d, t, hcontent, hat, hown⟩ := hw.exists_owns ha
  have hroot := hw.pointee_root i
  rw [hcontent, Option.map_some] at hroot
  -- a root pointer to `a` is that of `i`, and a child pointer is one of its tree
  have hroots : ∀ j, w.pointee (.root j) = some a → j = i ∧ a = t.addr := fun j hj ↦ by
    have hji : j = i := by
      by_contra hne
      exact hw.disjoint j i hne a (hw.mem_addrs_iff.mpr ⟨a, 0, hj, .refl a⟩) ha
    subst hji
    exact ⟨rfl, Option.some.inj (hj.symm.trans hroot)⟩
  have hchildren : ∀ n k, childAt w.heap n k = some a → n ∈ t.addrs ∧ a ≠ t.addr :=
    fun n k hk ↦ by
      have hlive : n ∈ w.heap.live := by
        cases hread : w.heap.read n with
        | none => simp [childAt, hread] at hk
        | some node => exact Heap.mem_live_of_read hread
      obtain ⟨j, hn⟩ := (hacc n).mp hlive
      obtain ⟨obj', d', t', hcontent', hnt, hown'⟩ := hw.exists_owns hn
      obtain ⟨hat', hne⟩ := hown'.represents.child_mem hown'.nodup hnt hk
      have hji : j = i := by
        by_contra hne
        refine hw.disjoint j i hne a ?_ ha
        rw [hcontent']
        exact hat'
      subst hji
      rw [hcontent] at hcontent'
      cases hcontent'
      exact ⟨hnt, hne⟩
  by_cases htop : a = t.addr
  · refine ⟨.root i, by rw [htop]; exact hroot, fun p hp ↦ ?_⟩
    cases p with
    | root j => rw [(hroots j hp).1]
    | child n k => exact absurd htop (hchildren n k hp).2
  · obtain ⟨n, k, ⟨-, hk⟩, hunique⟩ := hown.represents.exists_unique_child hown.nodup hat htop
    refine ⟨.child n k, hk, fun p hp ↦ ?_⟩
    cases p with
    | root j => exact absurd (hroots j hp).2 htop
    | child n' k' =>
      obtain ⟨rfl, rfl⟩ := hunique n' (hchildren n' k' hp).1 k' hp
      rfl

/-! ### Lookups -/

theorem findLeaf_settled (h : Memory Key Value) (t : FBPlusTree) (key : Key) :
    findLeaf h t.settled key = findLeaf h t key := by
  simp only [findLeaf, FBPlusTree.root_settled]

theorem find_settled (h : Memory Key Value) (t : FBPlusTree) (key : Key) :
    find h t.settled key = find h t key := by
  simp only [find, findLeaf_settled]

/-- `find_leaf` returns null for no tree, and a leaf otherwise. -/
theorem Holds.findLeaf_spec {h : Memory Key Value} {t : FBPlusTree} {g : Content Key Value}
    (hg : Holds h t g) (key : Key) : ∃ leaf, findLeaf h t key = some leaf ∧
      ∀ a ∈ leaf, ∃ keys values next, h.read a = some (.leaf keys values next) := by
  match g with
  | none => exact ⟨none, by simp [findLeaf, hg.1], by simp⟩
  | some ⟨d, tree⟩ =>
    have hown : Owns h t tree := hg
    obtain ⟨a, l, next, hfind, hread, -, -⟩ :=
      findLeafFrom_eq hown.represents hown.formed hown.sorted key hown.height_lt
    refine ⟨some a, by simp [findLeaf, hown.root_eq, hfind], fun b hb ↦ ?_⟩
    obtain rfl := Option.some.inj hb
    exact ⟨_, _, _, hread⟩

/-- Lookups are defined, in stale objects too. -/
theorem Owned.lookup_defined (hw : Owned w.settled content hs) {i : ℕ} {t : FBPlusTree}
    (ht : w.trees[i]? = some t) (key : Key) :
    (∃ result, find w.heap t key = some result) ∧ ∃ leaf, findLeaf w.heap t key = some leaf ∧
      ∀ a ∈ leaf, ∃ keys values next, w.heap.read a = some (.leaf keys values next) := by
  have hholds := hw.holds i _ (Pool.getElem?_settled_some ht)
  have hfind := find_spec hholds key
  have hleaf := hholds.findLeaf_spec key
  rw [find_settled] at hfind
  rw [findLeaf_settled] at hleaf
  exact ⟨⟨_, hfind⟩, hleaf⟩

/-! ### Destroying objects -/

/-- The place that an object had before the object `i` in front of it or behind it went. -/
def placeBefore (i j : ℕ) : ℕ := if j < i then j else j + 1

theorem placeBefore_ne (i j : ℕ) : placeBefore i j ≠ i := by
  unfold placeBefore
  split_ifs with hlt
  · exact hlt.ne
  · omega

theorem placeBefore_injective (i : ℕ) : Function.Injective (placeBefore i) := by
  intro j k hjk
  unfold placeBefore at hjk
  split_ifs at hjk <;> omega

theorem exists_placeBefore {i j : ℕ} (hji : j ≠ i) : ∃ k, placeBefore i k = j := by
  rcases Nat.lt_or_gt_of_ne hji with hlt | hlt
  · exact ⟨j, if_pos hlt⟩
  · exact ⟨j - 1, by unfold placeBefore; split_ifs <;> omega⟩

theorem getElem?_eraseIdx_placeBefore {α : Type} (l : List α) (i j : ℕ) :
    (l.eraseIdx i)[j]? = l[placeBefore i j]? := by
  rw [List.getElem?_eraseIdx, placeBefore]
  split_ifs <;> rfl

omit [LinearOrder Key] in
theorem Pool.settled_eraseIdx (w : Pool Key Value) (h : Memory Key Value) (i : ℕ) :
    Pool.settled ⟨h, w.trees.eraseIdx i⟩ = ⟨h, w.settled.trees.eraseIdx i⟩ := by
  simp [Pool.settled, List.eraseIdx_map]

/-- The other objects stay as they are when one is destroyed, and its nodes are gone. -/
theorem Owned.destroy (hw : Owned w.settled content hs) (i : ℕ) :
    ∃ w' content' hs', w.perform (.destroy i) = some w' ∧ Owned w'.settled content' hs' ∧
      (Accounted w.heap content → Accounted w'.heap content') := by
  cases ht : w.trees[i]? with
  | none => exact ⟨w, content, hs, by simp [Pool.perform, ht], hw, id⟩
  | some t =>
    have hsettled := Pool.getElem?_settled_some ht
    obtain ⟨hi, -⟩ := List.getElem?_eq_some_iff.mp hsettled
    obtain ⟨h', hreset, hkeeps, hexchange⟩ := resetRoot_spec (hw.holds i _ hsettled)
    rw [FBPlusTree.root_settled] at hreset
    have hrun : w.perform (.destroy i) = some ⟨h', w.trees.eraseIdx i⟩ := by
      have hheap : resetRoot w.heap t.root = some h' := hreset
      simp [Pool.perform, ht, hheap]
    have hlen := hw.length_eq
    refine ⟨_, content ∘ placeBefore i, hs.eraseIdx i, hrun, ?_, fun hacc a ↦ ?_⟩
    · rw [Pool.settled_eraseIdx]
      refine ⟨?_, fun j t' hj ↦ ?_, fun j hj ↦ ?_, fun j l hj ↦ ?_, fun j k hjk ↦ ?_⟩
      · show (w.settled.trees.eraseIdx i).length = _
        rw [List.length_eraseIdx_of_lt hi, List.length_eraseIdx_of_lt (hlen ▸ hi), hlen]
      · have hj : (w.settled.trees.eraseIdx i)[j]? = some t' := hj
        rw [getElem?_eraseIdx_placeBefore] at hj
        exact (hw.holds _ t' hj).keep hkeeps (hw.disjoint _ i (placeBefore_ne i j))
      · have hj : (w.settled.trees.eraseIdx i).length ≤ j := hj
        rw [List.length_eraseIdx_of_lt hi] at hj
        refine hw.outside _ ?_
        unfold placeBefore
        split_ifs <;> omega
      · rw [getElem?_eraseIdx_placeBefore] at hj
        exact hw.entries_eq _ l hj
      · exact hw.disjoint _ _ ((placeBefore_injective i).ne hjk)
    · rw [hexchange a]
      constructor
      · rintro (hnone | ⟨hlive, hout⟩)
        · exact absurd hnone (Set.notMem_empty a)
        · obtain ⟨j, hj⟩ := (hacc a).mp hlive
          have hji : j ≠ i := fun heq ↦ hout (heq ▸ hj)
          obtain ⟨k, rfl⟩ := exists_placeBefore hji
          exact ⟨k, hj⟩
      · rintro ⟨k, hk⟩
        exact Or.inr ⟨(hacc a).mpr ⟨_, hk⟩, hw.disjoint _ i (placeBefore_ne i k) a hk⟩

/-! ### Whole lives -/

/-- Every object owns its content, and every node is part of one. -/
def AllOwned (w : Pool Key Value) : Prop :=
  ∃ content hs, Owned w.settled content hs ∧ Accounted w.heap content

theorem allOwned_initial : AllOwned (Pool.initial : Pool Key Value) :=
  ⟨_, _, owned_initial, fun a ↦ by simp [Pool.initial, Heap.live_empty, Content.addrs]⟩

theorem AllOwned.perform (hw : AllOwned w) (e : Event Key Value) :
    ∃ w', w.perform e = some w' ∧ AllOwned w' := by
  obtain ⟨content, hs, hw, hacc⟩ := hw
  cases e with
  | command c =>
    obtain ⟨w', content', hstep, hw', hacc'⟩ := hw.execute c
    exact ⟨w', hstep, content', _, hw', hacc' hacc⟩
  | destroy i =>
    obtain ⟨w', content', hs', hstep, hw', hacc'⟩ := hw.destroy i
    exact ⟨w', hstep, content', hs', hw', hacc' hacc⟩

/-- Whatever is done with the objects of a program, nothing goes out of range, is freed twice or is
used after it was freed. In every state that is reached, any key can be looked up in any object; the
live nodes are those that an owning pointer points to, each of them exactly one, and each is reached
from exactly one object; `next` points to live leaves; and when there is no object there is no
node. -/
theorem owners_of_reachable (events : List (Event Key Value)) :
    ∃ w : Pool Key Value, events.foldlM Pool.perform Pool.initial = some w ∧
      (∀ (i : ℕ) (t : FBPlusTree), w.trees[i]? = some t → ∀ key,
        (∃ result, find w.heap t key = some result) ∧
        ∃ leaf, findLeaf w.heap t key = some leaf ∧
          ∀ a ∈ leaf, ∃ keys values next, w.heap.read a = some (.leaf keys values next)) ∧
      (∀ a, (w.heap.read a).isSome ↔ ∃ p, w.pointee p = some a) ∧
      (∀ p q a, w.pointee p = some a → w.pointee q = some a → p = q) ∧
      (∀ a, (w.heap.read a).isSome → ∃! i, ∃ root depth,
        w.pointee (.root i) = some root ∧ Descends w.heap root a depth) ∧
      (∀ a keys values b, w.heap.read a = some (.leaf keys values (some b)) →
        ∃ keys' values' next, w.heap.read b = some (.leaf keys' values' next)) ∧
      (w.trees = [] → ∀ a, w.heap.read a = none) := by
  obtain ⟨w, hrun, content, hs, hw, hacc⟩ :=
    foldlM_invariant (fun _ e hw ↦ AllOwned.perform hw e) events allOwned_initial
  refine ⟨w, hrun, fun i t ht key ↦ hw.lookup_defined ht key,
    fun a ↦ ⟨fun ha ↦ ?_, fun ⟨p, hp⟩ ↦ ?_⟩, fun p q a hp hq ↦ ?_, fun a ha ↦ ?_,
    fun a keys values b hread ↦ ?_, fun htrees a ↦ ?_⟩
  · obtain ⟨i, hi⟩ := (hacc a).mp ha
    exact (hw.exists_unique_pointee hacc hi).exists
  · exact (hacc a).mpr (hw.pointee_mem hacc hp)
  · obtain ⟨i, hi⟩ := hw.pointee_mem hacc hp
    exact (hw.exists_unique_pointee hacc hi).unique hp hq
  · obtain ⟨i, hi⟩ := (hacc a).mp ha
    refine ⟨i, hw.mem_addrs_iff.mp hi, fun j hj ↦ ?_⟩
    by_contra hne
    exact hw.disjoint j i hne a (hw.mem_addrs_iff.mpr hj) hi
  · obtain ⟨i, hi⟩ := (hacc a).mp (Heap.mem_live_of_read hread)
    obtain ⟨obj, d, t, hcontent, hat, hown⟩ := hw.exists_owns hi
    rcases hown.represents.next_mem hat hread with hnone | ⟨y, hy, hsome⟩
    · cases hnone
    · cases hsome
      exact hown.represents.leaf_at hy
  · by_contra hne
    obtain ⟨i, hi⟩ := (hacc a).mp (Option.isSome_iff_ne_none.mpr hne)
    rw [hw.outside i (by simp [Pool.settled, htrees])] at hi
    simp [Content.addrs] at hi

end Pool

end WsServer.FBPTree
