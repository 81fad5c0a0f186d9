import WsServer.FBPTree.Search

/-!
# Splitting a full child

`split_child` cuts a full node in two: a leaf keeps `[0, mid)` and a new right neighbour takes the
rest, an inner node additionally gives up its middle separator. `Tree.lower` and `Tree.upper` are
the two halves and `Tree.promoted` is the separator that moves up. The entries and the invariant of
the parent are unchanged (`wellFormed_split`), and the heap ends up holding the parent with both
halves, relinked (`splitChild_spec`).
-/

set_option autoImplicit false
set_option relaxedAutoImplicit false

namespace WsServer.FBPTree

open Foundations

variable {Key Value : Type} {d : ℕ} {least : ℕ}

namespace Tree

def lower : {d : ℕ} → Tree Key Value d → Tree Key Value d
  | 0, t => leaf t.addr (t.entries.take (t.width / 2))
  | _ + 1, t => inner t.addr (t.keys.take (t.width / 2)) (t.children.take (t.width / 2 + 1))

def upper (neu : ℕ) : {d : ℕ} → Tree Key Value d → Tree Key Value d
  | 0, t => leaf neu (t.entries.drop (t.width / 2))
  | _ + 1, t => inner neu (t.keys.drop (t.width / 2 + 1)) (t.children.drop (t.width / 2 + 1))

def promoted : {d : ℕ} → Tree Key Value d → Option Key
  | 0, t => (keysOf (t.entries.drop (t.width / 2))).head?
  | _ + 1, t => t.keys[t.width / 2]?

/-- The content of the top node; a leaf points to `next`. -/
def cell : {d : ℕ} → Tree Key Value d → Option ℕ → Node Key Value
  | 0, t, next => .leaf (keysOf t.entries) (t.entries.map Prod.snd) next
  | _ + 1, t, _ => .inner t.keys (t.children.map addr)

@[simp] theorem addr_lower (t : Tree Key Value d) : t.lower.addr = t.addr := by
  cases d <;> rfl

@[simp] theorem addr_upper (neu : ℕ) (t : Tree Key Value d) : (t.upper neu).addr = neu := by
  cases d <;> rfl

theorem entries_lower_upper (neu : ℕ) (t : Tree Key Value d) :
    t.lower.entries ++ (t.upper neu).entries = t.entries := by
  cases d with
  | zero => exact List.take_append_drop _ _
  | succ d =>
    obtain ⟨a, ks, cs, rfl⟩ := t.eq_inner
    simp only [lower, upper, entries_inner, children_inner, ← List.flatMap_append,
      List.take_append_drop]

/-- The halves own the nodes of the tree and the new node. -/
theorem addrs_lower_upper (neu : ℕ) (t : Tree Key Value d) :
    (t.lower.addrs ++ (t.upper neu).addrs).Perm (neu :: t.addrs) := by
  cases d with
  | zero => exact List.Perm.swap _ _ _
  | succ d =>
    obtain ⟨a, ks, cs, rfl⟩ := t.eq_inner
    simp only [lower, upper, addrs_inner, addr_inner, children_inner, List.cons_append]
    refine List.perm_middle.cons a |>.trans ((List.Perm.swap _ _ _).trans ?_)
    rw [← List.flatMap_append, List.take_append_drop]

theorem minKey_inner {a : ℕ} {ks : List Key} {c : Tree Key Value d} {cs : List (Tree Key Value d)}
    (hc : c.entries ≠ []) : (inner a ks (c :: cs)).minKey = c.minKey := by
  simp only [minKey, entries_inner, List.flatMap_cons]
  rw [List.head?_append_of_ne_nil _ hc]

end Tree

/-! ### The halves of a full node -/

section Full

variable {t : Tree Key Value d}

theorem wellFormed_lower (hwf : WellFormed least t) (hfull : t.width = maxKeys) :
    WellFormed (kMinDegree - 1) t.lower := by
  cases d with
  | zero =>
    obtain ⟨a, l, rfl⟩ := t.eq_leaf
    simp only [Tree.width_leaf, maxKeys, kMinDegree] at hfull
    simp only [Tree.lower, wellFormed_leaf, Tree.entries_leaf, Tree.width_leaf, List.length_take,
      kMinDegree, maxKeys]
    omega
  | succ d =>
    obtain ⟨a, ks, cs, rfl⟩ := t.eq_inner
    rw [wellFormed_inner] at hwf
    have harity := hwf.arity
    simp only [Tree.width_inner, maxKeys, kMinDegree] at hfull
    simp only [Tree.lower, wellFormed_inner, Tree.keys_inner, Tree.children_inner,
      Tree.width_inner, hfull]
    refine ⟨?_, ?_, ?_, ?_, fun c hc ↦ hwf.children_formed c (List.mem_of_mem_take hc)⟩
    · simp [kMinDegree, hfull]
    · simp [kMinDegree, maxKeys]
    · simp only [List.length_take]
      omega
    · rw [List.map_take, hwf.separators, ← List.map_take, List.tail_take_eq_take_tail,
        Nat.add_sub_cancel]

theorem width_lower (hfull : t.width = maxKeys) : t.lower.width < maxKeys := by
  cases d with
  | zero =>
    obtain ⟨a, l, rfl⟩ := t.eq_leaf
    simp only [Tree.width_leaf, maxKeys, kMinDegree] at hfull
    simp only [Tree.lower, Tree.entries_leaf, Tree.width_leaf, List.length_take, maxKeys,
      kMinDegree]
    omega
  | succ d =>
    obtain ⟨a, ks, cs, rfl⟩ := t.eq_inner
    simp only [Tree.width_inner, maxKeys, kMinDegree] at hfull
    simp only [Tree.lower, Tree.keys_inner, Tree.width_inner, List.length_take, maxKeys,
      kMinDegree]
    omega

theorem wellFormed_upper (neu : ℕ) (hwf : WellFormed least t) (hfull : t.width = maxKeys) :
    WellFormed (kMinDegree - 1) (t.upper neu) := by
  cases d with
  | zero =>
    obtain ⟨a, l, rfl⟩ := t.eq_leaf
    simp only [Tree.width_leaf, maxKeys, kMinDegree] at hfull
    simp only [Tree.upper, wellFormed_leaf, Tree.entries_leaf, Tree.width_leaf, List.length_drop,
      kMinDegree, maxKeys]
    omega
  | succ d =>
    obtain ⟨a, ks, cs, rfl⟩ := t.eq_inner
    rw [wellFormed_inner] at hwf
    have harity := hwf.arity
    simp only [Tree.width_inner, maxKeys, kMinDegree] at hfull
    simp only [Tree.upper, wellFormed_inner, Tree.keys_inner, Tree.children_inner,
      Tree.width_inner, hfull]
    refine ⟨?_, ?_, ?_, ?_, fun c hc ↦ hwf.children_formed c (List.mem_of_mem_drop hc)⟩
    · simp [kMinDegree, hfull]
    · simp [kMinDegree, maxKeys, hfull]
    · simp only [List.length_drop]
      omega
    · rw [List.map_drop, hwf.separators, ← List.map_drop, List.tail_drop, List.drop_tail]

theorem width_upper (neu : ℕ) (hfull : t.width = maxKeys) : (t.upper neu).width < maxKeys := by
  cases d with
  | zero =>
    obtain ⟨a, l, rfl⟩ := t.eq_leaf
    simp only [Tree.width_leaf, maxKeys, kMinDegree] at hfull
    simp only [Tree.upper, Tree.entries_leaf, Tree.width_leaf, List.length_drop, maxKeys,
      kMinDegree]
    omega
  | succ d =>
    obtain ⟨a, ks, cs, rfl⟩ := t.eq_inner
    simp only [Tree.width_inner, maxKeys, kMinDegree] at hfull
    simp only [Tree.upper, Tree.keys_inner, Tree.width_inner, List.length_drop, maxKeys,
      kMinDegree]
    omega

/-- The promoted separator is the smallest key of the upper half. -/
theorem promoted_eq (neu : ℕ) (hwf : WellFormed least t) (hfull : t.width = maxKeys) :
    ∃ sep, t.promoted = some sep ∧ (t.upper neu).minKey = some sep := by
  cases d with
  | zero =>
    obtain ⟨e, -, hmin⟩ := minKey_eq_some
      ((wellFormed_upper neu hwf hfull).entries_ne_nil (by decide))
    refine ⟨e.1, ?_, hmin⟩
    rw [← hmin]
    simp [Tree.promoted, Tree.upper, Tree.minKey]
  | succ d =>
    obtain ⟨a, ks, cs, rfl⟩ := t.eq_inner
    rw [wellFormed_inner] at hwf
    have harity := hwf.arity
    simp only [Tree.width_inner, maxKeys, kMinDegree] at hfull
    have hmid : ks.length / 2 < ks.length := by omega
    have hmid' : ks.length / 2 + 1 < cs.length := by omega
    have hne := (hwf.children_formed cs[ks.length / 2 + 1]
      (List.getElem_mem hmid')).entries_ne_nil (by decide)
    refine ⟨ks[ks.length / 2], by simp [Tree.promoted, hmid], ?_⟩
    simp only [Tree.upper, Tree.keys_inner, Tree.children_inner, Tree.width_inner]
    rw [List.drop_eq_getElem_cons hmid', Tree.minKey_inner hne]
    exact hwf.separator hmid hmid'

theorem minKey_lower (hwf : WellFormed least t) (hfull : t.width = maxKeys) :
    t.lower.minKey = t.minKey := by
  have hne := (wellFormed_lower hwf hfull).entries_ne_nil (by decide)
  rw [Tree.minKey, Tree.minKey, ← Tree.entries_lower_upper 0 t,
    List.head?_append_of_ne_nil _ hne]

theorem head_leaves_lower (hwf : WellFormed least t) (hfull : t.width = maxKeys) :
    t.lower.leaves.head? = t.leaves.head? := by
  cases d with
  | zero => rfl
  | succ d =>
    have hne := (wellFormed_lower hwf hfull).leaves_ne_nil
    obtain ⟨a, ks, cs, rfl⟩ := t.eq_inner
    simp only [Tree.lower, Tree.leaves_inner, Tree.children_inner] at hne ⊢
    conv_rhs => rw [← List.take_append_drop ((Tree.inner a ks cs).width / 2 + 1) cs]
    rw [List.flatMap_append, List.head?_append_of_ne_nil _ hne]

end Full

/-! ### The parent after the split -/

/-- The parent with a child replaced by its halves. -/
def Tree.splitAt (a : ℕ) (ks : List Key) (cs₁ : List (Tree Key Value d)) (c : Tree Key Value d)
    (cs₂ : List (Tree Key Value d)) (sep : Key) (neu : ℕ) : Tree Key Value (d + 1) :=
  .inner a (ks.take cs₁.length ++ sep :: ks.drop cs₁.length) (cs₁ ++ c.lower :: c.upper neu :: cs₂)

section Parent

variable {a : ℕ} {ks : List Key} {cs₁ : List (Tree Key Value d)} {c : Tree Key Value d}
  {cs₂ : List (Tree Key Value d)} {sep : Key}

variable (a ks cs₁ c cs₂ sep) in
theorem entries_splitAt (neu : ℕ) :
    (Tree.splitAt a ks cs₁ c cs₂ sep neu).entries =
      (Tree.inner a ks (cs₁ ++ c :: cs₂)).entries := by
  simp only [Tree.splitAt, Tree.entries_inner, List.flatMap_append, List.flatMap_cons,
    ← Tree.entries_lower_upper neu c, List.append_assoc]

variable (a ks cs₁ c cs₂ sep) in
theorem addrs_splitAt (neu : ℕ) :
    (Tree.splitAt a ks cs₁ c cs₂ sep neu).addrs.Perm
      (neu :: (Tree.inner a ks (cs₁ ++ c :: cs₂)).addrs) := by
  simp only [Tree.splitAt, Tree.addrs_inner, List.flatMap_append, List.flatMap_cons]
  refine List.Perm.trans (List.Perm.cons a ?_) (List.Perm.swap _ _ _)
  rw [← List.append_assoc c.lower.addrs]
  refine ((Tree.addrs_lower_upper neu c).append_right _ |>.append_left _).trans ?_
  exact List.perm_middle

theorem wellFormed_split (neu : ℕ) (hwf : WellFormed least (Tree.inner a ks (cs₁ ++ c :: cs₂)))
    (hfull : c.width = maxKeys) (hroom : ks.length < maxKeys) (hsep : c.promoted = some sep) :
    WellFormed least (Tree.splitAt a ks cs₁ c cs₂ sep neu) := by
  rw [wellFormed_inner] at hwf
  have hc := hwf.children_formed c (by simp)
  obtain ⟨sep', hsep', hmin⟩ := promoted_eq neu hc hfull
  obtain rfl : sep = sep' := Option.some.inj (hsep.symm.trans hsep')
  have harity := hwf.arity
  have hleast := hwf.least_le
  simp only [List.length_append, List.length_cons] at harity
  rw [Tree.splitAt, wellFormed_inner]
  refine ⟨?_, ?_, ?_, ?_, fun x hx ↦ ?_⟩
  · simp only [List.length_append, List.length_cons, List.length_take, List.length_drop]
    omega
  · simp only [List.length_append, List.length_cons, List.length_take, List.length_drop]
    omega
  · simp only [List.length_append, List.length_cons, List.length_take, List.length_drop]
    omega
  · have hseparators := hwf.separators
    cases cs₁ with
    | nil =>
      simp only [List.nil_append, List.tail_cons] at hseparators
      simp [hmin, hseparators]
    | cons x xs =>
      simp only [List.cons_append, List.tail_cons, List.map_append, List.map_cons] at hseparators
      have htake := congrArg (List.take (xs.length + 1)) hseparators
      have hdrop := congrArg (List.drop (xs.length + 1)) hseparators
      rw [← List.map_take] at htake
      rw [← List.map_drop] at hdrop
      simp only [List.cons_append, List.tail_cons, List.map_append, List.map_cons,
        List.length_cons, htake, hdrop, hmin, minKey_lower hc hfull]
      have hlen : (xs.map Tree.minKey).length ≤ xs.length + 1 := by simp
      simp [List.take_append, List.drop_append, List.take_of_length_le hlen,
        List.drop_eq_nil_of_le hlen]
  · rcases List.mem_append.mp hx with hx | hx
    · exact hwf.children_formed x (List.mem_append_left _ hx)
    · rcases List.mem_cons.mp hx with rfl | hx
      · exact wellFormed_lower hc hfull
      · rcases List.mem_cons.mp hx with rfl | hx
        · exact wellFormed_upper neu hc hfull
        · exact hwf.children_formed x (by simp [hx])

theorem head_leaves_splitAt (neu : ℕ) (hwf : WellFormed least c) (hfull : c.width = maxKeys) :
    (Tree.splitAt a ks cs₁ c cs₂ sep neu).leaves.head? =
      (Tree.inner a ks (cs₁ ++ c :: cs₂)).leaves.head? := by
  simp [Tree.splitAt, head_leaves_lower hwf hfull,
    Option.or_of_isSome, List.isSome_head?, hwf.leaves_ne_nil]

end Parent

/-! ### The heap after the split -/

theorem Represents.read_eq_cell {h : Memory Key Value} {t : Tree Key Value d} {next : Option ℕ}
    (ht : Represents h t next) : h.read t.addr = some (t.cell next) := by
  cases d with
  | zero => exact ht
  | succ d => exact ht.1

/-- The three writes of `split_child`: the new node, the shrunken child, the parent. -/
def splitHeap (h : Memory Key Value) (a : ℕ) (ks : List Key) (cs₁ : List (Tree Key Value d))
    (c : Tree Key Value d) (cs₂ : List (Tree Key Value d)) (sep : Key) (next : Option ℕ) :
    Memory Key Value :=
  ((h.alloc ((c.upper h.bound).cell next)).2.set c.addr
    (some (c.lower.cell (some h.bound)))).set a
      (some ((Tree.splitAt a ks cs₁ c cs₂ sep h.bound).cell none))

section Heap

variable {h : Memory Key Value} {a : ℕ} {ks : List Key} {cs₁ : List (Tree Key Value d)}
  {c : Tree Key Value d} {cs₂ : List (Tree Key Value d)} {sep : Key} {next : Option ℕ}

variable (ks cs₁ cs₂ sep next) in
theorem read_splitHeap (ha : a < h.bound) (hc : c.addr < h.bound) (x : ℕ) :
    (splitHeap h a ks cs₁ c cs₂ sep next).read x =
      if x = a then some ((Tree.splitAt a ks cs₁ c cs₂ sep h.bound).cell none)
      else if x = c.addr then some (c.lower.cell (some h.bound))
      else if x = h.bound then some ((c.upper h.bound).cell next) else h.read x := by
  have ha' : a < ((h.alloc ((c.upper h.bound).cell next)).2.set c.addr
      (some (c.lower.cell (some h.bound)))).bound := by simp; omega
  have hc' : c.addr < (h.alloc ((c.upper h.bound).cell next)).2.bound := by simp; omega
  rw [splitHeap, Heap.read_set ha', Heap.read_set hc', Heap.read_alloc]

/-- The insertion of the new child pointer behind the old one. -/
theorem insertAt?_children (cs₁ : List (Tree Key Value d)) (c : Tree Key Value d)
    (cs₂ : List (Tree Key Value d)) (neu : ℕ) :
    insertAt? (cs₁.map Tree.addr ++ c.addr :: cs₂.map Tree.addr) (cs₁.length + 1) neu =
      some ((cs₁ ++ c.lower :: c.upper neu :: cs₂).map Tree.addr) := by
  have hlen : cs₁.length + 1 ≤ (cs₁.map Tree.addr ++ c.addr :: cs₂.map Tree.addr).length := by
    simp
  have htake : (cs₁.map Tree.addr).take (cs₁.length + 1) = cs₁.map Tree.addr :=
    List.take_of_length_le (by simp)
  have hdrop : (cs₁.map Tree.addr).drop (cs₁.length + 1) = [] :=
    List.drop_eq_nil_of_le (by simp)
  rw [insertAt?, if_pos hlen]
  simp [List.take_append, List.drop_append, htake, hdrop]

theorem splitChild_run (hread : h.read a = some (.inner ks ((cs₁ ++ c :: cs₂).map Tree.addr)))
    (hchild : h.read c.addr = some (c.cell next)) (hne : c.addr ≠ a)
    (hwf : WellFormed least c) (hfull : c.width = maxKeys) (hroom : cs₁.length ≤ ks.length)
    (hsep : c.promoted = some sep) :
    splitChild h a cs₁.length = some (splitHeap h a ks cs₁ c cs₂ sep next) := by
  have ha := Heap.lt_bound_of_read hread
  have hc := Heap.lt_bound_of_read hchild
  have hidx : (cs₁.map Tree.addr ++ c.addr :: cs₂.map Tree.addr)[cs₁.length]? = some c.addr := by
    simp
  have hchild' (x : Node Key Value) : (h.alloc x).2.read c.addr = some (c.cell next) := by
    rw [Heap.read_alloc, if_neg (by omega), hchild]
  have hparent' (x y : Node Key Value) : ((h.alloc x).2.set c.addr (some y)).read a =
      some (.inner ks ((cs₁ ++ c :: cs₂).map Tree.addr)) := by
    rw [Heap.read_set (by simp; omega), if_neg hne.symm, Heap.read_alloc, if_neg (by omega), hread]
  cases d with
  | zero =>
    have hcell : c.cell next = .leaf (keysOf c.entries) (c.entries.map Prod.snd) next := rfl
    have hwidth : c.width = (keysOf c.entries).length := (List.length_map _).symm
    rw [hcell] at hchild hchild'
    have hmid : (keysOf c.entries).length / 2 ≤ (keysOf c.entries).length := Nat.div_le_self _ _
    have hmid' : (keysOf c.entries).length / 2 ≤ (c.entries.map Prod.snd).length := by simp; omega
    have hhead : ((keysOf c.entries).drop ((keysOf c.entries).length / 2)).head? = some sep := by
      rw [← hsep, ← hwidth, Tree.promoted, keysOf, keysOf, List.map_drop]
    simp only [splitChild, hread, Option.bind_eq_bind, Option.bind_some, List.map_append,
      List.map_cons, hidx, hchild, suffix?, if_pos hmid, if_pos hmid', Heap.alloc_fst,
      Heap.write_eq (hchild' _), insertAt?_children, hhead]
    rw [insertAt?, if_pos hroom, Option.bind_some, Heap.write_eq (hparent' _ _)]
    simp only [splitHeap, Tree.splitAt, Tree.cell, Tree.lower, Tree.upper, Tree.entries_leaf,
      Tree.keys_inner, Tree.children_inner, Tree.addr_leaf, hwidth, keysOf, List.map_append,
      List.map_cons, List.map_take, List.map_drop]
  | succ d =>
    have hcell : c.cell next = .inner c.keys (c.children.map Tree.addr) := rfl
    have hwidth : c.width = c.keys.length := rfl
    rw [hcell] at hchild hchild'
    have harity : c.children.length = c.keys.length + 1 := InnerFormed.arity hwf
    have hpos : c.keys.length = 63 := hfull
    have hmid : c.keys.length / 2 + 1 ≤ c.keys.length := by omega
    have hmid' : c.keys.length / 2 + 1 ≤ (c.children.map Tree.addr).length := by simp; omega
    rw [Tree.promoted, hwidth] at hsep
    simp only [splitChild, hread, Option.bind_eq_bind, Option.bind_some, List.map_append,
      List.map_cons, hidx, hchild, suffix?, if_pos hmid, if_pos hmid', Heap.alloc_fst,
      Heap.write_eq (hchild' _), insertAt?_children, hsep]
    rw [insertAt?, if_pos hroom, Option.bind_some, Heap.write_eq (hparent' _ _)]
    simp only [splitHeap, Tree.splitAt, Tree.cell, Tree.lower, Tree.upper, Tree.keys_inner,
      Tree.children_inner, Tree.addr_inner, hwidth, List.map_append, List.map_cons, List.map_take,
      List.map_drop]

/-- The halves are represented wherever their top cells are in place and the rest of the child is
untouched. -/
theorem represents_halves {h' : Memory Key Value} {neu : ℕ} (ht : Represents h c next)
    (hnodup : c.addrs.Nodup) (hlower : h'.read c.addr = some (c.lower.cell (some neu)))
    (hupper : h'.read neu = some ((c.upper neu).cell next))
    (hkept : ∀ x ∈ c.addrs, x ≠ c.addr → h'.read x = h.read x) :
    Represents h' c.lower ((c.upper neu).leaves.head?.or next) ∧
      Represents h' (c.upper neu) next := by
  cases d with
  | zero => exact ⟨hlower, hupper⟩
  | succ d =>
    obtain ⟨x, ks', cs', rfl⟩ := c.eq_inner
    rw [represents_inner] at ht
    have hrest : ∀ c' ∈ cs', ∀ nx, Represents h c' nx → Represents h' c' nx := by
      intro c' hc' nx hrep
      refine hrep.congr fun y hy ↦ hkept y (Tree.addrs_child_subset hc' hy) ?_
      have hmem : y ∈ cs'.flatMap Tree.addrs := List.mem_flatMap.mpr ⟨c', hc', hy⟩
      rintro rfl
      exact (List.nodup_cons.mp hnodup).1 hmem
    have hchained := ht.2.imp hrest
    conv at hchained => rw [← List.take_append_drop (ks'.length / 2 + 1) cs']
    rw [chainedAll_append] at hchained
    exact ⟨⟨hlower, hchained.1⟩, ⟨hupper, hchained.2⟩⟩

theorem live_splitHeap (ha : a ∈ h.live) (hc : c.addr ∈ h.live) (x : ℕ) :
    x ∈ (splitHeap h a ks cs₁ c cs₂ sep next).live ↔ x = h.bound ∨ x ∈ h.live := by
  have hread := read_splitHeap ks cs₁ cs₂ sep next (Heap.lt_bound_of_mem_live ha)
    (Heap.lt_bound_of_mem_live hc) x
  show (Heap.read _ x).isSome ↔ _
  rw [hread]
  split_ifs with hxa hxc hxb
  · exact iff_of_true rfl (Or.inr (hxa ▸ ha))
  · exact iff_of_true rfl (Or.inr (hxc ▸ hc))
  · exact iff_of_true rfl (Or.inl hxb)
  · exact (or_iff_right hxb).symm

/-- `split_child` on a full child: the parent with both halves is in place, the chain of leaves goes
through the new leaf, and nothing outside the parent and the child was written. -/
theorem splitChild_spec (ht : Represents h (Tree.inner a ks (cs₁ ++ c :: cs₂)) next)
    (hnodup : (Tree.inner a ks (cs₁ ++ c :: cs₂)).addrs.Nodup)
    (hwf : WellFormed least c) (hfull : c.width = maxKeys) (hroom : cs₁.length ≤ ks.length) :
    ∃ h' sep, splitChild h a cs₁.length = some h' ∧ c.promoted = some sep ∧
      Represents h' (Tree.splitAt a ks cs₁ c cs₂ sep h.bound) next ∧
      h'.bound = h.bound + 1 ∧ h.Keeps h' {a, c.addr} ∧
      h.Accounts h' {x | x ∈ (Tree.inner a ks (cs₁ ++ c :: cs₂)).addrs}
        {x | x ∈ (Tree.splitAt a ks cs₁ c cs₂ sep h.bound).addrs} := by
  obtain ⟨sep, hsep, -⟩ := promoted_eq h.bound hwf hfull
  have hlt := ht.lt_bound
  have hlive := ht.mem_live
  rw [represents_inner, chainedAll_append] at ht
  obtain ⟨hread, hbefore, hchild, hafter⟩ := ht
  simp only [Tree.addrs_inner, List.flatMap_append, List.flatMap_cons, List.nodup_cons,
    List.nodup_append, List.mem_append, not_or] at hnodup
  obtain ⟨⟨ha₁, hac, ha₂⟩, -, ⟨hndc, -, hc₂⟩, h₁⟩ := hnodup
  have hcmem := Tree.addr_mem_addrs c
  have ha : a < h.bound := hlt a (Tree.addr_mem_addrs _)
  have hca : c.addr < h.bound := hlt c.addr
    (Tree.addrs_child_subset (by simp) (Tree.addr_mem_addrs c))
  have hne : c.addr ≠ a := fun heq ↦ hac (heq ▸ Tree.addr_mem_addrs c)
  have hreads := read_splitHeap ks cs₁ cs₂ sep ((cs₂.flatMap Tree.leaves).head?.or next) ha hca
  refine ⟨_, sep, splitChild_run hread hchild.read_eq_cell hne hwf hfull hroom hsep, hsep, ?_,
    rfl, ?_, fun x ↦ ?_⟩
  · have hkept : ∀ x < h.bound, x ≠ a → x ≠ c.addr →
        (splitHeap h a ks cs₁ c cs₂ sep ((cs₂.flatMap Tree.leaves).head?.or next)).read x =
          h.read x := fun x hx hxa hxc ↦ by
      rw [hreads, if_neg hxa, if_neg hxc, if_neg (by omega)]
    have hcbound : ∀ x ∈ c.addrs, x < h.bound := fun x hx ↦
      hlt x (Tree.addrs_child_subset (by simp) hx)
    obtain ⟨hlow, hup⟩ := represents_halves hchild hndc
      (by rw [hreads, if_neg hne, if_pos rfl])
      (by rw [hreads, if_neg (by omega), if_neg (by omega), if_pos rfl])
      (fun x hx hxc ↦ hkept x (hcbound x hx) (fun heq ↦ hac (heq ▸ hx)) hxc)
    rw [Tree.splitAt, represents_inner, chainedAll_append]
    refine ⟨by rw [hreads, if_pos rfl]; rfl, ?_, ?_, hup, ?_⟩
    · have hhead : ((c.lower :: c.upper h.bound :: cs₂).flatMap Tree.leaves).head?.or next =
          ((c :: cs₂).flatMap Tree.leaves).head?.or next := by
        simp [head_leaves_lower hwf hfull, Option.or_of_isSome, hwf.leaves_ne_nil]
      rw [hhead]
      refine hbefore.imp fun x hx nx hrep ↦ hrep.congr fun y hy ↦ ?_
      have hy' : y ∈ cs₁.flatMap Tree.addrs := List.mem_flatMap.mpr ⟨x, hx, hy⟩
      refine hkept y (hlt y (Tree.addrs_child_subset (by simp [hx]) hy))
        (fun heq ↦ ha₁ (heq ▸ hy')) fun heq ↦ ?_
      exact h₁ y hy' c.addr (Or.inl hcmem) heq
    · have hhead : ((c.upper h.bound :: cs₂).flatMap Tree.leaves).head?.or next =
          (c.upper h.bound).leaves.head?.or ((cs₂.flatMap Tree.leaves).head?.or next) := by
        simp [Option.or_assoc]
      rw [hhead]
      exact hlow
    · refine hafter.imp fun x hx nx hrep ↦ hrep.congr fun y hy ↦ ?_
      have hy' : y ∈ cs₂.flatMap Tree.addrs := List.mem_flatMap.mpr ⟨x, hx, hy⟩
      exact hkept y (hlt y (Tree.addrs_child_subset (by simp [hx]) hy))
        (fun heq ↦ ha₂ (heq ▸ hy')) fun heq ↦ hc₂ c.addr hcmem y hy' heq.symm
  · refine ⟨by simp [splitHeap], fun x hx hout ↦ ?_⟩
    simp only [Set.mem_insert_iff, Set.mem_singleton_iff, not_or] at hout
    rw [hreads, if_neg hout.1, if_neg hout.2, if_neg (by omega)]
  · rw [live_splitHeap (hlive a (Tree.addr_mem_addrs _))
      (hlive c.addr (Tree.addrs_child_subset (by simp) hcmem)), Set.mem_ofPred_eq,
      Set.mem_ofPred_eq, (addrs_splitAt a ks cs₁ c cs₂ sep h.bound).mem_iff, List.mem_cons]
    have := hlive x
    tauto

end Heap

end WsServer.FBPTree
