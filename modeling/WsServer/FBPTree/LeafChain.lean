import WsServer.FBPTree.Search

/-!
# The chain of leaves

The `next` pointers are a second view of a tree. `leavesOf` collects the leaves an object owns by
walking down from the root, `followNext` collects the leaves met along `next`, and on a represented
tree both give the same list. The iterator crosses the same chain and yields the entries of the tree
in order.
-/

set_option autoImplicit false
set_option relaxedAutoImplicit false

namespace WsServer.FBPTree

open Foundations

variable {Key Value : Type} {d : ℕ}

/-! ### Two walks over the leaves -/

/-- The leaves below a node, from left to right along the child pointers. -/
def leavesBelow (h : Memory Key Value) : ℕ → ℕ → Option (List ℕ)
  | 0, _ => none
  | fuel + 1, n => do
    match ← h.read n with
    | .leaf _ _ _ => some [n]
    | .inner _ children =>
      let parts ← children.mapM (leavesBelow h fuel)
      some parts.flatten

/-- The leaves owned by an object. -/
def leavesOf (h : Memory Key Value) (t : FBPlusTree) : Option (List ℕ) :=
  match t.root with
  | none => some []
  | some n => leavesBelow h h.bound n

/-- The leaves met from a pointer along `next`, when the chain ends in the null pointer after at
most `fuel` of them. -/
def followNext (h : Memory Key Value) : ℕ → Option ℕ → Option (List ℕ)
  | _, none => some []
  | 0, some _ => none
  | fuel + 1, some a => do
    let .leaf _ _ next ← h.read a | none
    let rest ← followNext h fuel next
    some (a :: rest)

theorem leavesBelow_eq {h : Memory Key Value} {t : Tree Key Value d} {next : Option ℕ}
    (ht : Represents h t next) {fuel : ℕ} (hfuel : d < fuel) :
    leavesBelow h fuel t.addr = some t.leaves := by
  induction d generalizing next fuel with
  | zero =>
    obtain ⟨fuel, rfl⟩ := Nat.exists_eq_add_one_of_ne_zero (by omega : fuel ≠ 0)
    obtain ⟨a, l, rfl⟩ := t.eq_leaf
    rw [represents_leaf] at ht
    simp [leavesBelow, ht]
  | succ d ih =>
    obtain ⟨fuel, rfl⟩ := Nat.exists_eq_add_one_of_ne_zero (by omega : fuel ≠ 0)
    obtain ⟨a, ks, cs, rfl⟩ := t.eq_inner
    rw [represents_inner] at ht
    have hparts : (cs.map Tree.addr).mapM (leavesBelow h fuel) = some (cs.map Tree.leaves) := by
      have hall : ∀ c ∈ cs, leavesBelow h fuel c.addr = some c.leaves := fun c hc ↦ by
        obtain ⟨next', hrep⟩ := ht.2.exists_of_mem hc
        exact ih hrep (Nat.lt_of_succ_lt_succ hfuel)
      clear ht
      induction cs with
      | nil => rfl
      | cons c cs ihcs =>
        simp [hall c List.mem_cons_self, ihcs fun x hx ↦ hall x (List.mem_cons_of_mem _ hx)]
    simp [leavesBelow, ht.1, hparts, List.flatMap_def]

/-! ### Paths along the chain -/

/-- The leaves with their entries, from left to right. -/
def Tree.leafEntries : {d : ℕ} → Tree Key Value d → List (ℕ × List (Key × Value))
  | 0, t => [(t.addr, t.entries)]
  | _ + 1, t => t.children.flatMap leafEntries

theorem Tree.map_fst_leafEntries (t : Tree Key Value d) :
    t.leafEntries.map Prod.fst = t.leaves := by
  induction d with
  | zero => rfl
  | succ d ih =>
    obtain ⟨a, ks, cs, rfl⟩ := t.eq_inner
    simp only [leafEntries, children_inner, leaves_inner, List.map_flatMap, ih]

theorem Tree.flatMap_snd_leafEntries (t : Tree Key Value d) :
    t.leafEntries.flatMap Prod.snd = t.entries := by
  induction d with
  | zero => simp [leafEntries]
  | succ d ih =>
    obtain ⟨a, ks, cs, rfl⟩ := t.eq_inner
    simp only [leafEntries, children_inner, entries_inner, List.flatMap_assoc, ih]

/-- The chain leads from the pointer `start` over the given non-empty leaves to `next`. -/
inductive LeafPath (h : Memory Key Value) :
    List (ℕ × List (Key × Value)) → Option ℕ → Option ℕ → Prop
  | nil (next : Option ℕ) : LeafPath h [] next next
  | cons {a : ℕ} {l : List (Key × Value)} {mid next : Option ℕ}
      {path : List (ℕ × List (Key × Value))}
      (hread : h.read a = some (.leaf (keysOf l) (l.map Prod.snd) mid)) (hne : l ≠ [])
      (hrest : LeafPath h path mid next) : LeafPath h ((a, l) :: path) (some a) next

theorem LeafPath.append {h : Memory Key Value} {path path' : List (ℕ × List (Key × Value))}
    {start mid next : Option ℕ} (hp : LeafPath h path start mid)
    (hp' : LeafPath h path' mid next) : LeafPath h (path ++ path') start next := by
  induction hp with
  | nil => exact hp'
  | cons hread hne _ ih => exact .cons hread hne (ih hp')

/-- The leaves of a represented tree form a path to `next`. -/
theorem Represents.leafPath {h : Memory Key Value} {t : Tree Key Value d} {next : Option ℕ}
    {least : ℕ} (ht : Represents h t next) (hwf : WellFormed least t) (hpos : 0 < least) :
    LeafPath h t.leafEntries t.leaves.head? next := by
  induction d generalizing next least with
  | zero =>
    obtain ⟨a, l, rfl⟩ := t.eq_leaf
    exact .cons ht (hwf.entries_ne_nil hpos) (.nil next)
  | succ d ih =>
    obtain ⟨a, ks, cs, rfl⟩ := t.eq_inner
    rw [represents_inner] at ht
    have hformed := ((wellFormed_inner _ _ _).mp hwf).children_formed
    have hlist : LeafPath h (cs.flatMap Tree.leafEntries) ((cs.flatMap Tree.leaves).head?.or next)
        next := by
      have hchain := ht.2
      clear ht hwf
      induction cs with
      | nil => exact .nil next
      | cons c cs ihcs =>
        obtain ⟨hc, hcs⟩ := List.forall_mem_cons.mp hformed
        have hhead : ((c :: cs).flatMap Tree.leaves).head?.or next = c.leaves.head? := by
          obtain ⟨x, xs, hx⟩ := List.exists_cons_of_ne_nil hc.leaves_ne_nil
          simp [hx]
        rw [hhead]
        exact (ih hchain.1 hc (by decide)).append (ihcs hcs hchain.2)
    obtain ⟨x, xs, hx⟩ := List.exists_cons_of_ne_nil hwf.leaves_ne_nil
    rw [Tree.leaves_inner] at hx
    rw [Tree.leaves_inner, hx]
    rw [hx] at hlist
    exact hlist

/-- Following `next` to the null pointer meets exactly the leaves of the path. -/
theorem LeafPath.followNext_eq {h : Memory Key Value} {path : List (ℕ × List (Key × Value))}
    {start next : Option ℕ} (hp : LeafPath h path start next) (hend : next = none) :
    followNext h path.length start = some (path.map Prod.fst) := by
  induction hp with
  | nil next =>
    subst hend
    rfl
  | cons hread hne _ ih => simp [followNext, hread, ih hend]

/-- A path to the end of the chain starts at a leaf that holds a key. -/
theorem LeafPath.exists_start {h : Memory Key Value} {path : List (ℕ × List (Key × Value))}
    {start : Option ℕ} (hp : LeafPath h path start none) {a : ℕ} (hstart : start = some a) :
    ∃ keys values next, h.read a = some (.leaf keys values next) ∧ keys.isEmpty = false := by
  cases hp with
  | nil => simp at hstart
  | cons hread hne _ =>
    obtain rfl := Option.some.inj hstart
    exact ⟨_, _, _, hread, by simpa using hne⟩

/-! ### Iteration along a path -/

theorem iterateFrom_end (h : Memory Key Value) (fuel : ℕ) : iterateFrom h fuel {} = some [] := by
  cases fuel <;> simp [iterateFrom]

/-- From position `i` of a leaf, the loop yields the rest of the leaf and goes on at `next`. -/
theorem iterateFrom_leaf {h : Memory Key Value} {a : ℕ} {l : List (Key × Value)} {next : Option ℕ}
    (hread : h.read a = some (.leaf (keysOf l) (l.map Prod.snd) next)) (fuel : ℕ) (i : ℕ)
    (hi : i < l.length) :
    iterateFrom h (fuel + (l.length - i)) { leaf := some a, index := i } =
      (iterateFrom h fuel { leaf := next, index := 0 }).map (l.drop i ++ ·) := by
  induction hn : l.length - i generalizing i with
  | zero => omega
  | succ n ih =>
    have hderef : Iterator.deref h { leaf := some a, index := i } = some l[i] := by
      simp [Iterator.deref, hread, hi]
    have hne : ({ leaf := some a, index := i } : Iterator) ≠ {} := by simp
    rw [← Nat.add_assoc, iterateFrom, if_neg hne]
    simp only [hderef, Option.bind_eq_bind, Option.bind_some]
    by_cases hlast : l.length ≤ i + 1
    · have hadv : Iterator.advance h { leaf := some a, index := i } =
          some { leaf := next, index := 0 } := by
        simp [Iterator.advance, hread, hlast]
      have hn0 : n = 0 := by omega
      have hdrop : l.drop i = [l[i]] := by
        rw [List.drop_eq_getElem_cons hi, List.drop_eq_nil_of_le hlast]
      rw [hadv, hdrop, hn0, Option.bind_some, Nat.add_zero]
      cases iterateFrom h fuel { leaf := next, index := 0 } <;> rfl
    · have hadv : Iterator.advance h { leaf := some a, index := i } =
          some { leaf := some a, index := i + 1 } := by
        simp [Iterator.advance, hread, hlast]
      rw [hadv, Option.bind_some, ih (i + 1) (by omega) (by omega), List.drop_eq_getElem_cons hi]
      cases iterateFrom h fuel { leaf := next, index := 0 } <;> rfl

/-- The loop crosses the leaves of a path. -/
theorem LeafPath.iterateFrom_eq {h : Memory Key Value} {path : List (ℕ × List (Key × Value))}
    {start next : Option ℕ} (hp : LeafPath h path start next) (fuel : ℕ) :
    iterateFrom h (fuel + (path.flatMap Prod.snd).length) { leaf := start, index := 0 } =
      (iterateFrom h fuel { leaf := next, index := 0 }).map (path.flatMap Prod.snd ++ ·) := by
  induction hp with
  | nil next => simp
  | @cons a l mid next path hread hne _ ih =>
    have hfuel : fuel + (((a, l) :: path).flatMap Prod.snd).length =
        fuel + (path.flatMap Prod.snd).length + (l.length - 0) := by
      simp only [List.flatMap_cons, List.length_append]
      omega
    rw [hfuel, iterateFrom_leaf hread _ 0 (List.length_pos_iff.mpr hne), ih, Option.map_map]
    simp [Function.comp_def]

end WsServer.FBPTree
