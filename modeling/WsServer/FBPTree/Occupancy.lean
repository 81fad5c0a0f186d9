import WsServer.FBPTree.Pool

/-!
# Shape and occupancy of reachable trees

The shape invariant stated on the heap alone: whatever node is reached from the root of an object
over its child pointers is a well-formed node, and its depth decides whether it is a leaf
(`shape_of_reachable`). The occupancy of the levels bounds the number of keys from below by the
height.
-/

set_option autoImplicit false
set_option relaxedAutoImplicit false

namespace WsServer.FBPTree

open Foundations

variable {Key Value : Type}

/-! ### Nodes and keys below a node -/

/-- `m` is reached from `n` over `d` child pointers. -/
inductive Descends (h : Memory Key Value) : ℕ → ℕ → ℕ → Prop
  | refl (n : ℕ) : Descends h n n 0
  | child {n m c d : ℕ} {keys : List Key} {children : List ℕ}
      (hread : h.read n = some (.inner keys children)) (hc : c ∈ children)
      (hrest : Descends h c m d) : Descends h n m (d + 1)

/-- The keys stored in the leaves below a node. -/
def keysBelow (h : Memory Key Value) (n : ℕ) : Set Key :=
  {k | ∃ m d keys values next, Descends h n m d ∧
    h.read m = some (.leaf keys values next) ∧ k ∈ keys}

/-- Arity of a node, and for an inner node the place of its separators: each is the smallest key of
the subtree to its right and exceeds every key of the subtree to its left. -/
def NodeFormed [LinearOrder Key] (h : Memory Key Value) : Node Key Value → Prop
  | .leaf keys values _ => values.length = keys.length
  | .inner keys children => children.length = keys.length + 1 ∧
      ∀ (i : ℕ) (separator : Key) (left right : ℕ), keys[i]? = some separator →
        children[i]? = some left → children[i + 1]? = some right →
        IsLeast (keysBelow h right) separator ∧ ∀ k ∈ keysBelow h left, k < separator

theorem keysBelow_leaf {h : Memory Key Value} {n : ℕ} {keys : List Key} {values : List Value}
    {next : Option ℕ} (hread : h.read n = some (.leaf keys values next)) :
    keysBelow h n = {k | k ∈ keys} := by
  ext k
  constructor
  · rintro ⟨m, d, keys', values', next', hpath, hread', hk⟩
    cases hpath with
    | refl =>
      rw [hread] at hread'
      cases hread'
      exact hk
    | child hinner => simp [hread] at hinner
  · exact fun hk ↦ ⟨n, 0, keys, values, next, .refl n, hread, hk⟩

theorem mem_keysBelow_inner {h : Memory Key Value} {n : ℕ} {keys : List Key} {children : List ℕ}
    (hread : h.read n = some (.inner keys children)) {k : Key} :
    k ∈ keysBelow h n ↔ ∃ c ∈ children, k ∈ keysBelow h c := by
  constructor
  · rintro ⟨m, d, keys', values', next', hpath, hread', hk⟩
    cases hpath with
    | refl => simp [hread] at hread'
    | child hinner hc hrest =>
      rw [hread] at hinner
      cases hinner
      exact ⟨_, hc, m, _, keys', values', next', hrest, hread', hk⟩
  · rintro ⟨c, hc, m, d, keys', values', next', hpath, hread', hk⟩
    exact ⟨m, d + 1, keys', values', next', .child hread hc hpath, hread', hk⟩

theorem mem_keysBelow {h : Memory Key Value} {d : ℕ} {t : Tree Key Value d} {next : Option ℕ}
    (ht : Represents h t next) {k : Key} : k ∈ keysBelow h t.addr ↔ k ∈ keysOf t.entries := by
  induction d generalizing next with
  | zero =>
    obtain ⟨a, l, rfl⟩ := t.eq_leaf
    rw [Tree.addr_leaf, keysBelow_leaf ((represents_leaf _ _ _).mp ht)]
    rfl
  | succ d ih =>
    obtain ⟨a, ks, cs, rfl⟩ := t.eq_inner
    rw [represents_inner] at ht
    rw [Tree.addr_inner, mem_keysBelow_inner ht.1, Tree.entries_inner, keysOf, List.map_flatMap,
      List.mem_flatMap]
    constructor
    · rintro ⟨c, hc, hk⟩
      obtain ⟨x, hx, rfl⟩ := List.mem_map.mp hc
      obtain ⟨next', hrep⟩ := ht.2.exists_of_mem hx
      exact ⟨x, hx, (ih hrep).mp hk⟩
    · rintro ⟨x, hx, hk⟩
      obtain ⟨next', hrep⟩ := ht.2.exists_of_mem hx
      exact ⟨x.addr, List.mem_map_of_mem hx, (ih hrep).mpr hk⟩

/-! ### Every node below the root -/

variable [LinearOrder Key] {h : Memory Key Value} {d : ℕ}

theorem minKey_isLeast {t : Tree Key Value d} {next : Option ℕ} {m : Key}
    (ht : Represents h t next) (hsorted : KeysSorted t.entries) (hm : t.minKey = some m) :
    IsLeast (keysBelow h t.addr) m := by
  constructor
  · rw [mem_keysBelow ht]
    obtain ⟨e, he, rfl⟩ := Option.map_eq_some_iff.mp hm
    exact List.mem_map_of_mem (List.mem_of_mem_head? he)
  · intro k hk
    obtain ⟨e, he, rfl⟩ := List.mem_map.mp ((mem_keysBelow ht).mp hk)
    exact minKey_le hsorted hm e he

/-- The top node of a represented tree. -/
theorem top_formed {t : Tree Key Value d} {next : Option ℕ} {least : ℕ}
    (ht : Represents h t next) (hwf : WellFormed least t) (hsorted : KeysSorted t.entries) :
    ∃ node, h.read t.addr = some node ∧ (node.isLeaf = true ↔ d = 0) ∧
      node.keys.Pairwise (· < ·) ∧ node.keys.length ≤ maxKeys ∧ least ≤ node.keys.length ∧
      NodeFormed h node := by
  cases d with
  | zero =>
    obtain ⟨a, l, rfl⟩ := t.eq_leaf
    rw [wellFormed_leaf] at hwf
    exact ⟨_, (represents_leaf _ _ _).mp ht, by simp [Node.isLeaf], hsorted,
      by simpa [Node.keys] using hwf.2, by simpa [Node.keys] using hwf.1, by simp [NodeFormed]⟩
  | succ d =>
    obtain ⟨a, ks, cs, rfl⟩ := t.eq_inner
    have hform := (wellFormed_inner _ _ _).mp hwf
    have hrep := (represents_inner _ _ _ _).mp ht
    refine ⟨_, hrep.1, by simp [Node.isLeaf], separators_sorted hwf hsorted, hform.le_most,
      hform.least_le, by simpa using hform.arity, fun i separator left right hsep hleft hright ↦ ?_⟩
    obtain ⟨hc, hcross⟩ := keysSorted_flatMap.mp hsorted
    rw [List.getElem?_map, Option.map_eq_some_iff] at hleft hright
    obtain ⟨cl, hcl, rfl⟩ := hleft
    obtain ⟨cr, hcr, rfl⟩ := hright
    obtain ⟨next₁, hrep₁⟩ := hrep.2.exists_of_mem (List.mem_of_getElem? hcl)
    obtain ⟨next₂, hrep₂⟩ := hrep.2.exists_of_mem (List.mem_of_getElem? hcr)
    have hmin : cr.minKey = some separator := by
      have hat := congrArg (·[i]?) hform.separators
      simpa [hsep, hcr, eq_comm] using hat
    have hleast := minKey_isLeast hrep₂ (hc cr (List.mem_of_getElem? hcr)) hmin
    refine ⟨hleast, fun k hk ↦ ?_⟩
    obtain ⟨e, he, rfl⟩ := List.mem_map.mp ((mem_keysBelow hrep₁).mp hk)
    obtain ⟨e', he', rfl⟩ := List.mem_map.mp ((mem_keysBelow hrep₂).mp hleast.1)
    obtain ⟨hi, rfl⟩ := List.getElem?_eq_some_iff.mp hcl
    obtain ⟨hi', rfl⟩ := List.getElem?_eq_some_iff.mp hcr
    exact List.pairwise_iff_getElem.mp hcross i (i + 1) hi hi' (Nat.lt_succ_self i) e he e' he'

/-- Every node reached from the top of a represented tree, by induction on the path. -/
theorem Descends.formed {n m e : ℕ} (hpath : Descends h n m e) {d : ℕ} {t : Tree Key Value d}
    {next : Option ℕ} {least : ℕ} (hn : n = t.addr) (ht : Represents h t next)
    (hwf : WellFormed least t) (hsorted : KeysSorted t.entries) :
    ∃ node, h.read m = some node ∧ (node.isLeaf = true ↔ e = d) ∧ node.keys.Pairwise (· < ·) ∧
      node.keys.length ≤ maxKeys ∧ (0 < e → kMinDegree - 1 ≤ node.keys.length) ∧
      NodeFormed h node := by
  induction hpath generalizing d next least with
  | refl n =>
    subst hn
    obtain ⟨node, hread, hleaf, hkeys, hmost, -, hform⟩ := top_formed ht hwf hsorted
    exact ⟨node, hread, by rw [hleaf, eq_comm], hkeys, hmost,
      fun h ↦ absurd h (lt_irrefl 0), hform⟩
  | @child n m c e keys children hread hc hrest ih =>
    subst hn
    cases d with
    | zero =>
      obtain ⟨a, l, rfl⟩ := t.eq_leaf
      rw [represents_leaf] at ht
      simp [ht] at hread
    | succ d =>
      obtain ⟨a, ks, cs, rfl⟩ := t.eq_inner
      have hrep := (represents_inner _ _ _ _).mp ht
      rw [Tree.addr_inner, hrep.1] at hread
      cases hread
      obtain ⟨x, hx, hxc⟩ := List.mem_map.mp hc
      obtain ⟨next', hrepx⟩ := hrep.2.exists_of_mem hx
      have hwfx := ((wellFormed_inner _ _ _).mp hwf).children_formed x hx
      have hsortx := (keysSorted_flatMap.mp hsorted).1 x hx
      obtain ⟨node, hread, hleaf, hkeys, hmost, hleast, hform⟩ :=
        ih hxc.symm hrepx hwfx hsortx
      refine ⟨node, hread, by rw [hleaf, Nat.add_right_cancel_iff], hkeys, hmost, fun _ ↦ ?_, hform⟩
      cases hrest with
      | refl =>
        obtain ⟨node', hread', -, -, -, hleast', -⟩ := top_formed hrepx hwfx hsortx
        rw [← hxc, hread'] at hread
        obtain rfl := Option.some.inj hread
        exact hleast'
      | child => exact hleast (Nat.succ_pos _)

/-! ### Occupancy -/

omit [LinearOrder Key] in
theorem length_flatMap_entries_ge {cs : List (Tree Key Value d)} {m : ℕ}
    (hcs : ∀ c ∈ cs, m ≤ c.entries.length) :
    cs.length * m ≤ (cs.flatMap Tree.entries).length := by
  rw [List.length_flatMap]
  simpa using List.card_nsmul_le_sum (cs.map fun c ↦ c.entries.length) m (by simpa using hcs)

omit [LinearOrder Key] in
/-- Each level below the root multiplies the number of keys by at least `kMinDegree`. -/
theorem occupancy {t : Tree Key Value d} (hwf : WellFormed (kMinDegree - 1) t) :
    kMinDegree ^ d * (kMinDegree - 1) ≤ t.entries.length := by
  induction d with
  | zero =>
    obtain ⟨a, l, rfl⟩ := t.eq_leaf
    simpa using ((wellFormed_leaf _ _).mp hwf).1
  | succ d ih =>
    obtain ⟨a, ks, cs, rfl⟩ := t.eq_inner
    have hform := (wellFormed_inner _ _ _).mp hwf
    have hwide : kMinDegree ≤ cs.length := by
      rw [hform.arity]
      exact Nat.le_add_of_sub_le hform.least_le
    calc kMinDegree ^ (d + 1) * (kMinDegree - 1)
        = kMinDegree * (kMinDegree ^ d * (kMinDegree - 1)) := by ring
      _ ≤ cs.length * (kMinDegree ^ d * (kMinDegree - 1)) := Nat.mul_le_mul_right _ hwide
      _ ≤ (cs.flatMap Tree.entries).length :=
        length_flatMap_entries_ge fun c hc ↦ ih (hform.children_formed c hc)

omit [LinearOrder Key] in
/-- A root with at least one inner level has two subtrees. -/
theorem occupancy_root {t : Tree Key Value d} (hwf : WellFormed 1 t) (hd : 1 ≤ d) :
    2 * kMinDegree ^ (d - 1) * (kMinDegree - 1) ≤ t.entries.length := by
  obtain ⟨d, rfl⟩ := Nat.exists_eq_add_of_le' hd
  obtain ⟨a, ks, cs, rfl⟩ := t.eq_inner
  have hform := (wellFormed_inner _ _ _).mp hwf
  have hwide : 2 ≤ cs.length := by
    rw [hform.arity]
    exact Nat.succ_le_succ hform.least_le
  calc 2 * kMinDegree ^ (d + 1 - 1) * (kMinDegree - 1)
      = 2 * (kMinDegree ^ d * (kMinDegree - 1)) := by rw [Nat.add_sub_cancel, mul_assoc]
    _ ≤ cs.length * (kMinDegree ^ d * (kMinDegree - 1)) := Nat.mul_le_mul_right _ hwide
    _ ≤ (cs.flatMap Tree.entries).length :=
      length_flatMap_entries_ge fun c hc ↦ occupancy (hform.children_formed c hc)

/-- The shape of every object of every reachable pool. All nodes at the depth `height` and no others
are leaves; nodes have at most 63 keys and, below the root, at least 31, in increasing order; arity
and separators are as `NodeFormed` says. Searching and inserting never go out of range, and the size
grows with the height. -/
theorem shape_of_reachable (ops : List (Op Key Value)) :
    ∃ w : Pool Key Value, Pool.initial.run ops = some w ∧
      ∀ (i : ℕ) (t : FBPlusTree) (root : ℕ), w.trees[i]? = some t → t.root = some root →
      ∃ height : ℕ,
        (∀ n depth, Descends w.heap root n depth →
          ∃ node, w.heap.read n = some node ∧ (node.isLeaf = true ↔ depth = height) ∧
            node.keys.Pairwise (· < ·) ∧ node.keys.length ≤ 63 ∧
            (0 < depth → 31 ≤ node.keys.length) ∧ NodeFormed w.heap node) ∧
        (∀ key, ∃ leaf, findLeaf w.heap t key = some (some leaf)) ∧
        (∀ key value, ∃ h' t', insert w.heap t key value = some (h', t')) ∧
        (1 ≤ height → 2 * 32 ^ (height - 1) * 31 ≤ t.size) := by
  obtain ⟨w, content, hrun, hw⟩ := owned_run ops
  refine ⟨w, hrun, fun i obj root hobj hroot ↦ ?_⟩
  have hholds := hw.holds i obj hobj
  match hcontent : content i with
  | none =>
    rw [hcontent] at hholds
    simp [hholds.1] at hroot
  | some ⟨d, t⟩ =>
    rw [hcontent] at hholds
    have ht : Owns w.heap obj t := hholds
    have haddr : root = t.addr := Option.some.inj (hroot.symm.trans ht.root_eq)
    refine ⟨d, fun n depth hpath ↦ hpath.formed haddr ht.represents ht.formed ht.sorted,
      fun key ↦ ?_, fun key value ↦ ?_, fun hd ↦ ?_⟩
    · obtain ⟨leaf, l, next, hfind, -⟩ := findLeafFrom_eq ht.represents ht.formed ht.sorted key
        ht.height_lt
      exact ⟨leaf, by simp [findLeaf, ht.root_eq, hfind]⟩
    · obtain ⟨h', t', -, hins, -⟩ := insert_spec hholds key value
      exact ⟨h', t', hins⟩
    · rw [ht.size_eq]
      exact occupancy_root ht.formed hd

end WsServer.FBPTree
