import WsServer.FBPTree.Model

/-!
# Trees of a given height, and the heap cells that represent them

`Tree d` is a search tree with `d` inner levels that remembers the address of each of its nodes.
`Represents h t next` says that the heap holds exactly this tree below `t.addr`, with the leaves
chained from left to right and the last leaf pointing to `next`. `WellFormed least t` is the
invariant of the algorithm on its own: occupancy, arity, and each separator the smallest key of
the subtree to its right.
-/

set_option autoImplicit false
set_option relaxedAutoImplicit false

namespace WsServer.FBPTree

open Foundations

structure LeafShape (Key Value : Type) where
  addr : ℕ
  entries : List (Key × Value)

structure InnerShape (Key Child : Type) where
  addr : ℕ
  keys : List Key
  children : List Child

/-- Trees with all leaves at depth `d`. -/
def Tree (Key Value : Type) : ℕ → Type
  | 0 => LeafShape Key Value
  | d + 1 => InnerShape Key (Tree Key Value d)

variable {Key Value : Type}

namespace Tree

def addr : {d : ℕ} → Tree Key Value d → ℕ
  | 0, t => LeafShape.addr t
  | _ + 1, t => InnerShape.addr t

def keys {d : ℕ} (t : Tree Key Value (d + 1)) : List Key := InnerShape.keys t

def children {d : ℕ} (t : Tree Key Value (d + 1)) : List (Tree Key Value d) :=
  InnerShape.children t

/-- All entries, from left to right. -/
def entries : {d : ℕ} → Tree Key Value d → List (Key × Value)
  | 0, t => LeafShape.entries t
  | _ + 1, t => t.children.flatMap entries

/-- The addresses of the leaves, from left to right. -/
def leaves : {d : ℕ} → Tree Key Value d → List ℕ
  | 0, t => [t.addr]
  | _ + 1, t => t.children.flatMap leaves

/-- The addresses of all nodes. -/
def addrs : {d : ℕ} → Tree Key Value d → List ℕ
  | 0, t => [t.addr]
  | _ + 1, t => t.addr :: t.children.flatMap addrs

/-- The number of keys stored in the top node. -/
def width : {d : ℕ} → Tree Key Value d → ℕ
  | 0, t => (LeafShape.entries t).length
  | _ + 1, t => t.keys.length

def minKey {d : ℕ} (t : Tree Key Value d) : Option Key := t.entries.head?.map Prod.fst

def leaf (a : ℕ) (l : List (Key × Value)) : Tree Key Value 0 := (⟨a, l⟩ : LeafShape Key Value)

def inner {d : ℕ} (a : ℕ) (ks : List Key) (cs : List (Tree Key Value d)) : Tree Key Value (d + 1) :=
  (⟨a, ks, cs⟩ : InnerShape Key (Tree Key Value d))

section Simp

variable {d : ℕ} (a : ℕ) (l : List (Key × Value)) (ks : List Key) (cs : List (Tree Key Value d))

@[simp] theorem addr_leaf : (leaf a l).addr = a := rfl
@[simp] theorem entries_leaf : (leaf a l).entries = l := rfl
@[simp] theorem leaves_leaf : (leaf a l).leaves = [a] := rfl
@[simp] theorem addrs_leaf : (leaf a l).addrs = [a] := rfl
@[simp] theorem width_leaf : (leaf a l).width = l.length := rfl
@[simp] theorem addr_inner : (inner a ks cs).addr = a := rfl
@[simp] theorem keys_inner : (inner a ks cs).keys = ks := rfl
@[simp] theorem children_inner : (inner a ks cs).children = cs := rfl
@[simp] theorem entries_inner : (inner a ks cs).entries = cs.flatMap entries := rfl
@[simp] theorem leaves_inner : (inner a ks cs).leaves = cs.flatMap leaves := rfl
@[simp] theorem addrs_inner : (inner a ks cs).addrs = a :: cs.flatMap addrs := rfl
@[simp] theorem width_inner : (inner a ks cs).width = ks.length := rfl

end Simp

theorem eq_leaf (t : Tree Key Value 0) : ∃ a l, t = leaf a l := ⟨t.addr, t.entries, rfl⟩

theorem eq_inner {d : ℕ} (t : Tree Key Value (d + 1)) : ∃ a ks cs, t = inner a ks cs :=
  ⟨t.addr, t.keys, t.children, rfl⟩

theorem addr_mem_addrs {d : ℕ} (t : Tree Key Value d) : t.addr ∈ t.addrs := by
  cases d with
  | zero => exact List.mem_singleton_self _
  | succ d => exact List.mem_cons_self

theorem leaves_sublist_addrs {d : ℕ} (t : Tree Key Value d) : t.leaves.Sublist t.addrs := by
  induction d with
  | zero => exact List.Sublist.refl _
  | succ d ih =>
    obtain ⟨a, ks, cs, rfl⟩ := t.eq_inner
    refine List.Sublist.cons a ?_
    induction cs with
    | nil => exact List.Sublist.refl _
    | cons c cs ihcs => exact (ih c).append ihcs

theorem leaves_subset_addrs {d : ℕ} (t : Tree Key Value d) : t.leaves ⊆ t.addrs :=
  t.leaves_sublist_addrs.subset

theorem addrs_child_subset {d : ℕ} {c : Tree Key Value d} {a : ℕ} {ks : List Key}
    {cs : List (Tree Key Value d)} (hc : c ∈ cs) : c.addrs ⊆ (inner a ks cs).addrs := by
  intro x hx
  exact List.mem_cons_of_mem _ (List.mem_flatMap.mpr ⟨c, hc, hx⟩)

/-- A tree with distinct addresses has more nodes than levels. -/
theorem height_lt_length_addrs {d : ℕ} (t : Tree Key Value d) (hne : t.leaves ≠ []) :
    d < t.addrs.length := by
  induction d with
  | zero => simp [addrs]
  | succ d ih =>
    obtain ⟨a, ks, cs, rfl⟩ := t.eq_inner
    obtain ⟨x, hx⟩ := List.exists_mem_of_ne_nil _ hne
    obtain ⟨c, hc, hxc⟩ := List.mem_flatMap.mp hx
    have hdepth := ih c (List.ne_nil_of_mem hxc)
    obtain ⟨cs₁, cs₂, rfl⟩ := List.append_of_mem hc
    simp only [addrs_inner, List.length_cons, List.flatMap_append, List.flatMap_cons,
      List.length_append]
    omega

end Tree

/-! ### Representation in the heap -/

/-- Neighbouring subtrees, each chained to the first leaf of the next. -/
def ChainedAll {Child : Type} (rep : Child → Option ℕ → Prop) (leaves : Child → List ℕ) :
    List Child → Option ℕ → Prop
  | [], _ => True
  | c :: cs, next => rep c ((cs.flatMap leaves).head?.or next) ∧ ChainedAll rep leaves cs next

theorem chainedAll_append {Child : Type} (rep : Child → Option ℕ → Prop)
    (leaves : Child → List ℕ) (cs cs' : List Child) (next : Option ℕ) :
    ChainedAll rep leaves (cs ++ cs') next ↔
      ChainedAll rep leaves cs ((cs'.flatMap leaves).head?.or next) ∧
        ChainedAll rep leaves cs' next := by
  induction cs with
  | nil => simp [ChainedAll]
  | cons c cs ih =>
    simp only [List.cons_append, ChainedAll, ih, List.flatMap_append, List.head?_append,
      Option.or_assoc, and_assoc]

theorem ChainedAll.exists_of_mem {Child : Type} {rep : Child → Option ℕ → Prop}
    {leaves : Child → List ℕ} {cs : List Child} {next : Option ℕ}
    (h : ChainedAll rep leaves cs next) {c : Child} (hc : c ∈ cs) : ∃ next', rep c next' := by
  obtain ⟨cs₁, cs₂, rfl⟩ := List.append_of_mem hc
  exact ⟨_, ((chainedAll_append rep leaves cs₁ (c :: cs₂) next).mp h).2.1⟩

theorem ChainedAll.imp {Child : Type} {rep rep' : Child → Option ℕ → Prop}
    {leaves : Child → List ℕ} {cs : List Child}
    (himp : ∀ c ∈ cs, ∀ next, rep c next → rep' c next) {next : Option ℕ}
    (h : ChainedAll rep leaves cs next) : ChainedAll rep' leaves cs next := by
  induction cs with
  | nil => trivial
  | cons c cs ih =>
    exact ⟨himp c List.mem_cons_self _ h.1,
      ih (fun c' hc' ↦ himp c' (List.mem_cons_of_mem _ hc')) h.2⟩

/-- The heap holds the tree, its last leaf pointing to `next`. -/
def Represents (h : Memory Key Value) : {d : ℕ} → Tree Key Value d → Option ℕ → Prop
  | 0, t, next => h.read t.addr = some (.leaf (keysOf t.entries) (t.entries.map Prod.snd) next)
  | _ + 1, t, next => h.read t.addr = some (.inner t.keys (t.children.map Tree.addr)) ∧
      ChainedAll (Represents h) Tree.leaves t.children next

section Represents

variable {h h' : Memory Key Value} {d : ℕ}

theorem represents_leaf (a : ℕ) (l : List (Key × Value)) (next : Option ℕ) :
    Represents h (Tree.leaf a l) next ↔
      h.read a = some (.leaf (keysOf l) (l.map Prod.snd) next) := Iff.rfl

theorem represents_inner (a : ℕ) (ks : List Key) (cs : List (Tree Key Value d))
    (next : Option ℕ) :
    Represents h (Tree.inner a ks cs) next ↔
      h.read a = some (.inner ks (cs.map Tree.addr)) ∧
        ChainedAll (Represents h) Tree.leaves cs next := Iff.rfl

theorem Represents.congr {t : Tree Key Value d} {next : Option ℕ} (ht : Represents h t next)
    (hread : ∀ a ∈ t.addrs, h'.read a = h.read a) : Represents h' t next := by
  induction d generalizing next with
  | zero =>
    obtain ⟨a, l, rfl⟩ := t.eq_leaf
    rw [represents_leaf] at ht ⊢
    rwa [hread a (List.mem_singleton_self a)]
  | succ d ih =>
    obtain ⟨a, ks, cs, rfl⟩ := t.eq_inner
    rw [represents_inner] at ht ⊢
    refine ⟨?_, ht.2.imp fun c hc next' hrep ↦ ih hrep fun x hx ↦ ?_⟩
    · rw [hread a List.mem_cons_self]
      exact ht.1
    · exact hread x (Tree.addrs_child_subset hc hx)

/-- Every node of a represented tree is live. -/
theorem Represents.mem_live {t : Tree Key Value d} {next : Option ℕ} (ht : Represents h t next) :
    ∀ a ∈ t.addrs, a ∈ h.live := by
  induction d generalizing next with
  | zero =>
    obtain ⟨a, l, rfl⟩ := t.eq_leaf
    intro x hx
    obtain rfl : x = a := List.mem_singleton.mp hx
    exact Heap.mem_live_of_read ((represents_leaf _ _ _).mp ht)
  | succ d ih =>
    obtain ⟨a, ks, cs, rfl⟩ := t.eq_inner
    rw [represents_inner] at ht
    intro x hx
    rcases List.mem_cons.mp hx with rfl | hx
    · exact Heap.mem_live_of_read ht.1
    · obtain ⟨c, hc, hxc⟩ := List.mem_flatMap.mp hx
      obtain ⟨next', hrep⟩ := ht.2.exists_of_mem hc
      exact ih hrep x hxc

theorem Represents.lt_bound {t : Tree Key Value d} {next : Option ℕ} (ht : Represents h t next) :
    ∀ a ∈ t.addrs, a < h.bound :=
  fun a ha ↦ Heap.lt_bound_of_mem_live (ht.mem_live a ha)

/-- A tree outside the touched cells is still represented. -/
theorem Represents.keep {t : Tree Key Value d} {next : Option ℕ} (ht : Represents h t next)
    {s : Set ℕ} (hk : h.Keeps h' s) (hout : ∀ a ∈ t.addrs, a ∉ s) : Represents h' t next :=
  ht.congr fun a ha ↦ hk.read_eq a (ht.lt_bound a ha) (hout a ha)

theorem Represents.read_addr {t : Tree Key Value d} {next : Option ℕ} (ht : Represents h t next) :
    ∃ node : Node Key Value, h.read t.addr = some node ∧ node.keys.length = t.width := by
  cases d with
  | zero =>
    obtain ⟨a, l, rfl⟩ := t.eq_leaf
    exact ⟨_, (represents_leaf _ _ _).mp ht, by simp [Node.keys]⟩
  | succ d =>
    obtain ⟨a, ks, cs, rfl⟩ := t.eq_inner
    exact ⟨_, ((represents_inner _ _ _ _).mp ht).1, by simp [Node.keys]⟩

end Represents

/-! ### The invariant of the algorithm -/

/-- The part of the invariant about one inner node. -/
structure InnerFormed {Child : Type} (least : ℕ) (formed : Child → Prop)
    (minKey : Child → Option Key) (keys : List Key) (children : List Child) : Prop where
  least_le : least ≤ keys.length
  le_most : keys.length ≤ maxKeys
  arity : children.length = keys.length + 1
  separators : keys.map some = children.tail.map minKey
  children_formed : ∀ c ∈ children, formed c

/-- At least `least` keys in the top node, at least `kMinDegree - 1` in every other node, at most
`maxKeys` anywhere, and each separator the smallest key of the subtree to its right. -/
def WellFormed (least : ℕ) : {d : ℕ} → Tree Key Value d → Prop
  | 0, t => least ≤ t.entries.length ∧ t.entries.length ≤ maxKeys
  | _ + 1, t =>
    InnerFormed least (WellFormed (kMinDegree - 1)) Tree.minKey t.keys t.children

section WellFormed

variable {d : ℕ} {least : ℕ}

theorem wellFormed_leaf (a : ℕ) (l : List (Key × Value)) :
    WellFormed least (Tree.leaf a l) ↔ least ≤ l.length ∧ l.length ≤ maxKeys := Iff.rfl

theorem wellFormed_inner (a : ℕ) (ks : List Key) (cs : List (Tree Key Value d)) :
    WellFormed least (Tree.inner a ks cs) ↔
      InnerFormed least (WellFormed (kMinDegree - 1)) Tree.minKey ks cs := Iff.rfl

theorem WellFormed.width_le {t : Tree Key Value d} (ht : WellFormed least t) :
    t.width ≤ maxKeys := by
  cases d with
  | zero => exact ht.2
  | succ d => exact InnerFormed.le_most ht

theorem WellFormed.least_le {t : Tree Key Value d} (ht : WellFormed least t) :
    least ≤ t.width := by
  cases d with
  | zero => exact ht.1
  | succ d => exact InnerFormed.least_le ht

theorem WellFormed.mono {least' : ℕ} {t : Tree Key Value d} (ht : WellFormed least t)
    (hle : least' ≤ t.width) : WellFormed least' t := by
  cases d with
  | zero => exact ⟨hle, ht.2⟩
  | succ d => exact { ht with least_le := hle }

theorem WellFormed.entries_ne_nil {t : Tree Key Value d} (ht : WellFormed least t)
    (hpos : 0 < least) : t.entries ≠ [] := by
  induction d generalizing least with
  | zero =>
    obtain ⟨a, l, rfl⟩ := t.eq_leaf
    rw [wellFormed_leaf] at ht
    exact List.ne_nil_of_length_pos (by simpa using hpos.trans_le ht.1)
  | succ d ih =>
    obtain ⟨a, ks, cs, rfl⟩ := t.eq_inner
    rw [wellFormed_inner] at ht
    have hcs : 0 < cs.length := by rw [ht.arity]; omega
    obtain ⟨c, hc⟩ := List.exists_mem_of_length_pos hcs
    obtain ⟨e, he⟩ := List.exists_mem_of_ne_nil _ (ih (ht.children_formed c hc) (by decide))
    exact List.ne_nil_of_mem (List.mem_flatMap.mpr ⟨c, hc, he⟩)

theorem WellFormed.leaves_ne_nil {t : Tree Key Value d} (ht : WellFormed least t) :
    t.leaves ≠ [] := by
  induction d generalizing least with
  | zero =>
    obtain ⟨a, l, rfl⟩ := t.eq_leaf
    simp
  | succ d ih =>
    obtain ⟨a, ks, cs, rfl⟩ := t.eq_inner
    rw [wellFormed_inner] at ht
    have hcs : 0 < cs.length := by rw [ht.arity]; omega
    obtain ⟨c, hc⟩ := List.exists_mem_of_length_pos hcs
    obtain ⟨x, hx⟩ := List.exists_mem_of_ne_nil _ (ih (ht.children_formed c hc))
    exact List.ne_nil_of_mem (List.mem_flatMap.mpr ⟨c, hc, hx⟩)

theorem minKey_eq_some {t : Tree Key Value d} (hne : t.entries ≠ []) :
    ∃ e ∈ t.entries, t.minKey = some e.1 := by
  cases hentries : t.entries with
  | nil => exact absurd hentries hne
  | cons e l => exact ⟨e, List.mem_cons_self, by simp [Tree.minKey, hentries]⟩

end WellFormed

end WsServer.FBPTree
