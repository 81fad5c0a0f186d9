import WsServer.FBPTree.Model

/-!
# The chain of leaves under insertion

An insertion writes to the heap in a few places, and each time the chain of leaves only grows: a
leaf stays a leaf at its address, and from every position in it the keys that were ahead are still
ahead (`Grows`). `insert_grows` says so for any heap, without the invariant of the tree.
-/

set_option autoImplicit false
set_option relaxedAutoImplicit false

namespace WsServer.FBPTree

open Foundations

variable {Key Value : Type}

/-- The chain leads from `start` to `stop` over leaves with these keys. -/
inductive KeyPath (h : Memory Key Value) : List Key → Option ℕ → Option ℕ → Prop
  | nil (stop : Option ℕ) : KeyPath h [] stop stop
  | cons {a : ℕ} {keys rest : List Key} {values : List Value} {next stop : Option ℕ}
      (hread : h.read a = some (.leaf keys values next)) (hrest : KeyPath h rest next stop) :
      KeyPath h (keys ++ rest) (some a) stop

/-- Every leaf of `h` is a leaf of `h'`. What it held from a position on, it holds from there on
together with the new leaves between it and its old neighbour. -/
def Grows (h h' : Memory Key Value) : Prop :=
  ∀ a keys values next, h.read a = some (.leaf keys values next) →
    ∃ keys' values' next' between, h'.read a = some (.leaf keys' values' next') ∧
      KeyPath h' between next' next ∧ ∀ i, keys.drop i ⊆ keys'.drop i ++ between

section Paths

variable {h h' h'' : Memory Key Value} {keys keys' : List Key} {start mid stop : Option ℕ}

theorem KeyPath.append (hp : KeyPath h keys start mid) (hp' : KeyPath h keys' mid stop) :
    KeyPath h (keys ++ keys') start stop := by
  induction hp with
  | nil => exact hp'
  | cons hread _ ih =>
    rw [List.append_assoc]
    exact .cons hread (ih hp')

/-- The chain up to its end is determined by where it starts. -/
theorem KeyPath.unique (hp : KeyPath h keys start none) (hp' : KeyPath h keys' start none) :
    keys = keys' := by
  generalize hstop : (none : Option ℕ) = stop at hp
  induction hp generalizing keys' with
  | nil =>
    subst hstop
    cases hp'
    rfl
  | cons hread _ ih =>
    cases hp' with
    | cons hread' hrest' =>
      rw [hread] at hread'
      cases hread'
      rw [ih hrest' hstop]

theorem Grows.refl (h : Memory Key Value) : Grows h h := fun _ keys values next hread ↦
  ⟨keys, values, next, [], hread, .nil next, fun _ ↦ List.subset_append_left _ _⟩

/-- A chain keeps its ends, and its keys. -/
theorem Grows.keyPath (hg : Grows h h') (hp : KeyPath h keys start stop) :
    ∃ keys', KeyPath h' keys' start stop ∧ keys ⊆ keys' := by
  induction hp with
  | nil stop => exact ⟨[], .nil stop, List.Subset.refl _⟩
  | cons hread _ ih =>
    obtain ⟨rest', hrest', hsub⟩ := ih
    obtain ⟨keys', values', next', between, hread', hbetween, hdrop⟩ := hg _ _ _ _ hread
    refine ⟨keys' ++ (between ++ rest'), .cons hread' (hbetween.append hrest'), ?_⟩
    rw [← List.append_assoc]
    exact List.append_subset.mpr
      ⟨List.Subset.trans (hdrop 0) (List.subset_append_left _ _),
        List.Subset.trans hsub (List.subset_append_right _ _)⟩

theorem Grows.trans (hg : Grows h h') (hg' : Grows h' h'') : Grows h h'' := by
  intro a keys values next hread
  obtain ⟨keys₁, values₁, next₁, between₁, hread₁, hpath₁, hdrop₁⟩ := hg a keys values next hread
  obtain ⟨keys₂, values₂, next₂, between₂, hread₂, hpath₂, hdrop₂⟩ := hg' a _ _ _ hread₁
  obtain ⟨between₁', hpath₁', hsub⟩ := hg'.keyPath hpath₁
  refine ⟨keys₂, values₂, next₂, between₂ ++ between₁', hread₂, hpath₂.append hpath₁', fun i ↦ ?_⟩
  rw [← List.append_assoc]
  exact List.Subset.trans (hdrop₁ i) (List.append_subset.mpr
    ⟨List.Subset.trans (hdrop₂ i) (List.subset_append_left _ _),
      List.Subset.trans hsub (List.subset_append_right _ _)⟩)

end Paths

/-! ### What the writes do -/

section Writes

variable {h h' : Memory Key Value} {a : ℕ}

/-- A write that succeeds replaces a live cell. -/
theorem exists_of_write {node : Node Key Value} (hwrite : h.write a node = some h') :
    ∃ old, h.read a = some old ∧ h' = h.set a (some node) := by
  cases hread : h.read a with
  | none => simp [Heap.write, hread] at hwrite
  | some old =>
    rw [Heap.write_eq hread, Option.some_inj] at hwrite
    exact ⟨old, rfl, hwrite.symm⟩

theorem grows_of_read_eq
    (heq : ∀ b keys values next, h.read b = some (.leaf keys values next) → h'.read b = h.read b) :
    Grows h h' := fun b keys values next hread ↦
  ⟨keys, values, next, [], by rw [heq b keys values next hread, hread], .nil next,
    fun _ ↦ List.subset_append_left _ _⟩

theorem grows_alloc (h : Memory Key Value) (node : Node Key Value) : Grows h (h.alloc node).2 :=
  grows_of_read_eq fun b _ _ _ hread ↦ by
    rw [Heap.read_alloc, if_neg (Heap.lt_bound_of_read hread).ne]

/-- Inner nodes are not on the chain. -/
theorem grows_set_inner {keys : List Key} {children : List ℕ}
    (hread : h.read a = some (.inner keys children)) (node : Node Key Value) :
    Grows h (h.set a (some node)) :=
  grows_of_read_eq fun b _ _ _ hb ↦ by
    rw [Heap.read_set (Heap.lt_bound_of_read hread), if_neg]
    rintro rfl
    rw [hread] at hb
    cases hb

/-- A leaf is rewritten in place. -/
theorem grows_set_leaf {keys keys' : List Key} {values : List Value} {next : Option ℕ}
    (hread : h.read a = some (.leaf keys values next)) (hdrop : ∀ i, keys.drop i ⊆ keys'.drop i)
    (values' : List Value) : Grows h (h.set a (some (.leaf keys' values' next))) := by
  intro b keysb valuesb nextb hb
  by_cases hba : b = a
  · subst hba
    rw [hread] at hb
    cases hb
    exact ⟨keys', values', next, [],
      by rw [Heap.read_set (Heap.lt_bound_of_read hread), if_pos rfl], .nil next,
      fun i ↦ List.Subset.trans (hdrop i) (List.subset_append_left _ _)⟩
  · exact ⟨keysb, valuesb, nextb, [],
      by rw [Heap.read_set (Heap.lt_bound_of_read hread), if_neg hba, hb], .nil nextb,
      fun _ ↦ List.subset_append_left _ _⟩

/-- A leaf gives its upper part to a new neighbour. -/
theorem grows_split_leaf {keys : List Key} {values : List Value} {next : Option ℕ}
    (hread : h.read a = some (.leaf keys values next)) (mid : ℕ) (lower upper : List Value) :
    Grows h ((h.alloc (.leaf (keys.drop mid) upper next)).2.set a
      (some (.leaf (keys.take mid) lower (some h.bound)))) := by
  have ha := Heap.lt_bound_of_read hread
  have hreads (b : ℕ) : ((h.alloc (.leaf (keys.drop mid) upper next)).2.set a
      (some (.leaf (keys.take mid) lower (some h.bound)))).read b =
        if b = a then some (.leaf (keys.take mid) lower (some h.bound))
        else if b = h.bound then some (.leaf (keys.drop mid) upper next) else h.read b := by
    rw [Heap.read_set (by simp; omega), Heap.read_alloc]
  intro b keysb valuesb nextb hb
  by_cases hba : b = a
  · subst hba
    rw [hread] at hb
    cases hb
    refine ⟨keys.take mid, lower, some h.bound, keys.drop mid ++ [], by rw [hreads, if_pos rfl],
      .cons (by rw [hreads, if_neg ha.ne', if_pos rfl]) (.nil next), fun i ↦ ?_⟩
    conv_lhs => rw [← List.take_append_drop mid keys]
    rw [List.drop_append, List.append_nil]
    exact List.append_subset.mpr ⟨List.subset_append_left _ _,
      List.Subset.trans (List.drop_subset _ _) (List.subset_append_right _ _)⟩
  · refine ⟨keysb, valuesb, nextb, [], ?_, .nil nextb, fun _ ↦ List.subset_append_left _ _⟩
    rw [hreads, if_neg hba, if_neg (Heap.lt_bound_of_read hb).ne, hb]

/-- Past an inserted element, and before it, nothing is lost. -/
theorem drop_subset_of_insertAt? {α : Type} {v v' : List α} {j : ℕ} {x : α}
    (hinsert : insertAt? v j x = some v') (i : ℕ) : v.drop i ⊆ v'.drop i := by
  simp only [insertAt?, Option.ite_none_right_eq_some, Option.some_inj] at hinsert
  obtain ⟨hj, rfl⟩ := hinsert
  have hlen : (v.take j).length = j := List.length_take_of_le hj
  conv_lhs => rw [← List.take_append_drop j v]
  rw [List.drop_append, List.drop_append, hlen]
  refine List.append_subset.mpr ⟨List.subset_append_left _ _, ?_⟩
  refine List.Subset.trans ?_ (List.subset_append_right _ _)
  cases i - j with
  | zero => exact List.subset_cons_self _ _
  | succ n =>
    rw [List.drop_succ_cons]
    exact List.drop_subset_drop_left _ (Nat.le_succ n)

end Writes

/-! ### The chain under an insertion -/

section Insertion

variable {h h' : Memory Key Value}

/-- Splitting a leaf moves the upper part of its keys into the new leaf behind it. Splitting an
inner node does not touch the chain. -/
theorem splitChild_grows {parent i : ℕ} (hrun : splitChild h parent i = some h') : Grows h h' := by
  simp only [splitChild, Option.bind_eq_bind, Option.bind_eq_some_iff] at hrun
  obtain ⟨top, htop, hrun⟩ := hrun
  cases top with
  | leaf keys values next => simp at hrun
  | inner parentKeys parentChildren =>
    simp only [Option.bind_eq_some_iff] at hrun
    obtain ⟨child, -, node, hchild, hrun⟩ := hrun
    have hc := Heap.lt_bound_of_read hchild
    have ht := Heap.lt_bound_of_read htop
    cases node with
    | leaf keys values next =>
      simp only [suffix?, Option.bind_eq_some_iff, Option.ite_none_right_eq_some,
        Option.some_inj] at hrun
      obtain ⟨_, ⟨-, rfl⟩, upper, ⟨-, rfl⟩, h₁, hwrite, -, -, keys', -, children', -, hwrite'⟩ :=
        hrun
      obtain ⟨-, -, rfl⟩ := exists_of_write hwrite
      obtain ⟨-, -, rfl⟩ := exists_of_write hwrite'
      have hne : parent ≠ child := by
        rintro rfl
        rw [htop] at hchild
        cases hchild
      have hparent (x y : Node Key Value) : ((h.alloc x).2.set child (some y)).read parent =
          some (.inner parentKeys parentChildren) := by
        rw [Heap.read_set (by simp; omega), if_neg hne, Heap.read_alloc, if_neg ht.ne, htop]
      exact (grows_split_leaf hchild _ _ _).trans (grows_set_inner (hparent _ _) _)
    | inner keys children =>
      simp only [suffix?, Option.bind_eq_some_iff, Option.ite_none_right_eq_some,
        Option.some_inj] at hrun
      obtain ⟨-, -, upper, -, upperChildren, -, h₁, hwrite, keys', -, children', -, hwrite'⟩ := hrun
      obtain ⟨-, -, rfl⟩ := exists_of_write hwrite
      obtain ⟨-, -, rfl⟩ := exists_of_write hwrite'
      have hchild₁ (x : Node Key Value) :
          (h.alloc x).2.read child = some (.inner keys children) := by
        rw [Heap.read_alloc, if_neg hc.ne, hchild]
      have hparent (x : Node Key Value) (ks : List Key) (cs : List ℕ) : ∃ ks' cs',
          ((h.alloc x).2.set child (some (.inner ks cs))).read parent = some (.inner ks' cs') := by
        rw [Heap.read_set (by simp; omega), Heap.read_alloc, if_neg ht.ne]
        split_ifs with heq
        · exact ⟨ks, cs, rfl⟩
        · exact ⟨parentKeys, parentChildren, htop⟩
      obtain ⟨ks', cs', hread⟩ := hparent _ _ _
      exact (grows_alloc h _).trans
        ((grows_set_inner (hchild₁ _) _).trans (grows_set_inner hread _))

variable [LinearOrder Key] {k : Key} {v : Value}

/-- The descent splits nodes, and ends with a write to one leaf. -/
theorem insertNonFull_grows {fuel size size' n : ℕ}
    (hrun : insertNonFull k v fuel h size n = some (h', size')) : Grows h h' := by
  induction fuel generalizing h n with
  | zero => simp [insertNonFull] at hrun
  | succ fuel ih =>
    simp only [insertNonFull, Option.bind_eq_bind, Option.bind_eq_some_iff] at hrun
    obtain ⟨node, hread, hrun⟩ := hrun
    cases node with
    | leaf keys values next =>
      simp only at hrun
      split_ifs at hrun with hfound
      · simp only [Option.bind_eq_some_iff, Option.some_inj, Prod.mk.injEq] at hrun
        obtain ⟨values', -, h₁, hwrite, rfl, -⟩ := hrun
        obtain ⟨-, -, rfl⟩ := exists_of_write hwrite
        exact grows_set_leaf hread (fun _ ↦ List.Subset.refl _) values'
      · simp only [Option.bind_eq_some_iff, Option.some_inj, Prod.mk.injEq] at hrun
        obtain ⟨keys', hinsert, values', -, h₁, hwrite, rfl, -⟩ := hrun
        obtain ⟨-, -, rfl⟩ := exists_of_write hwrite
        exact grows_set_leaf hread (drop_subset_of_insertAt? hinsert) values'
    | inner keys children =>
      simp only [Option.bind_eq_some_iff] at hrun
      obtain ⟨child, -, childNode, -, hrun⟩ := hrun
      split_ifs at hrun with hfull
      · simp only [Option.bind_eq_some_iff] at hrun
        obtain ⟨h₁, hsplit, top, -, hrun⟩ := hrun
        refine (splitChild_grows hsplit).trans ?_
        cases top with
        | leaf => simp at hrun
        | inner keys₁ children₁ =>
          simp only [Option.bind_eq_some_iff] at hrun
          obtain ⟨separator, -, hrun⟩ := hrun
          split_ifs at hrun with hside
          · obtain ⟨right, -, hrun⟩ := Option.bind_eq_some_iff.mp hrun
            exact ih hrun
          · exact ih hrun
      · exact ih hrun

/-- Insertion into an object only lets the chains of leaves grow, whoever they belong to. -/
theorem insert_grows {t t' : FBPlusTree} (hrun : insert h t k v = some (h', t')) : Grows h h' := by
  simp only [insert, Option.bind_eq_bind] at hrun
  cases hroot : t.root with
  | none =>
    simp only [hroot, Option.some_inj, Prod.mk.injEq] at hrun
    obtain ⟨rfl, -⟩ := hrun
    exact grows_alloc h _
  | some root =>
    simp only [hroot, Option.bind_eq_some_iff] at hrun
    obtain ⟨rootNode, -, hrun⟩ := hrun
    split_ifs at hrun with hfull
    · simp only [Option.bind_eq_some_iff, Option.some_inj, Prod.mk.injEq] at hrun
      obtain ⟨h₁, hsplit, ⟨h₂, size⟩, hinsert, rfl, -⟩ := hrun
      exact ((grows_alloc h _).trans (splitChild_grows hsplit)).trans (insertNonFull_grows hinsert)
    · simp only [Option.bind_eq_some_iff, Option.some_inj, Prod.mk.injEq] at hrun
      obtain ⟨⟨h₁, size⟩, hinsert, rfl, -⟩ := hrun
      exact insertNonFull_grows hinsert

end Insertion

end WsServer.FBPTree
