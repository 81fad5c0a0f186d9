import WsServer.FBPTree.Pool

/-!
# Moved trees

The defaulted move operations hand over `root_` and copy `size_`, so that a moved-from object has no
tree but still the old size. Such an object is stale until it is cleared, inserted into or assigned
to, and its copies are stale too. Apart from that the pool behaves as one in which the size of a
stale object is 0 (`Pool.settled`). `consistent_iff` says in which runs no object is ever stale.
-/

set_option autoImplicit false
set_option relaxedAutoImplicit false

namespace WsServer.FBPTree

open Foundations

variable {Key Value : Type}

/-- What a defaulted move leaves behind: `root_` is null, `size_` is what it was. -/
def FBPlusTree.movedFrom (t : FBPlusTree) : FBPlusTree := { t with root := none }

/-- The operations on a pool with the moves. -/
inductive Command (Key Value : Type)
  | op (o : Op Key Value)
  | moveConstruct (source : ℕ)
  | moveAssign (i source : ℕ)

variable [LinearOrder Key]

/-- Move assignment releases the old tree of the target. An object assigned to itself stays as it
is, since `unique_ptr` releases the pointer before it resets it. -/
def Pool.execute (w : Pool Key Value) : Command Key Value → Option (Pool Key Value)
  | .op o => w.step o
  | .moveConstruct source =>
    match w.trees[source]? with
    | none => some w
    | some other => some { w with trees := w.trees.set source other.movedFrom ++ [other] }
  | .moveAssign i source =>
    match w.trees[i]?, w.trees[source]? with
    | some t, some other =>
      if i = source then some w
      else do
        let h ← resetRoot w.heap t.root
        some { heap := h, trees := (w.trees.set i other).set source other.movedFrom }
    | _, _ => some w

/-- `size()` is the number of pairs that iteration yields, and `empty()` tells whether `begin()` is
`end()`. -/
def Consistent (h : Memory Key Value) (t : FBPlusTree) : Prop :=
  (∃ fuel l, iterate h t fuel = some l ∧ t.size = l.length) ∧
    (t.empty = true ↔ begin h t = some {})

/-- A step does not move from an object that has a size, except to itself. -/
def MovesOnlyEmpty (x : Transition (Pool Key Value) (Command Key Value)) : Prop :=
  match x.action with
  | .op _ => True
  | .moveConstruct source => ∀ other ∈ x.before.trees[source]?, other.size = 0
  | .moveAssign i source =>
    i ≠ source → ∀ t ∈ x.before.trees[i]?, ∀ other ∈ x.before.trees[source]?, other.size = 0

/-! ### Settled objects -/

/-- The object with the size of no tree when it has none. -/
def FBPlusTree.settled (t : FBPlusTree) : FBPlusTree := if t.root = none then {} else t

def Pool.settled (w : Pool Key Value) : Pool Key Value :=
  { w with trees := w.trees.map FBPlusTree.settled }

section Settled

variable {h : Memory Key Value} {t other : FBPlusTree} {g : Content Key Value}
  {w : Pool Key Value}

theorem FBPlusTree.root_settled (t : FBPlusTree) : t.settled.root = t.root := by
  unfold settled
  split_ifs with hroot
  · exact hroot.symm
  · rfl

theorem FBPlusTree.settled_of_root_eq_none (hroot : t.root = none) : t.settled = {} :=
  if_pos hroot

theorem FBPlusTree.settled_of_root_ne_none (hroot : t.root ≠ none) : t.settled = t :=
  if_neg hroot

theorem FBPlusTree.settled_eq_iff : t.settled = t ↔ (t.root = none → t.size = 0) := by
  by_cases hroot : t.root = none
  · rw [settled_of_root_eq_none hroot]
    constructor
    · intro h _
      rw [← h]
    · intro hsize
      obtain ⟨root, size⟩ := t
      obtain rfl : root = none := hroot
      obtain rfl : size = 0 := hsize rfl
      rfl
  · exact iff_of_true (settled_of_root_ne_none hroot) fun h ↦ absurd h hroot

/-- Objects of the same root settle alike, whatever their sizes, if there is no tree. -/
theorem FBPlusTree.settled_congr (hroot : t.root = other.root)
    (hsize : t.root ≠ none → t.size = other.size) : t.settled = other.settled := by
  by_cases hnone : t.root = none
  · rw [settled_of_root_eq_none hnone, settled_of_root_eq_none (hroot ▸ hnone)]
  · obtain ⟨root, size⟩ := t
    obtain ⟨root', size'⟩ := other
    obtain rfl : root = root' := hroot
    obtain rfl : size = size' := hsize hnone
    rfl

theorem FBPlusTree.settled_settled (t : FBPlusTree) : t.settled.settled = t.settled := by
  refine settled_congr t.root_settled fun hroot ↦ ?_
  rw [settled_of_root_ne_none (t.root_settled ▸ hroot)]

theorem FBPlusTree.settled_movedFrom (t : FBPlusTree) : t.movedFrom.settled = {} :=
  settled_of_root_eq_none rfl

theorem Holds.settled (hg : Holds h t g) : t.settled = t := by
  refine FBPlusTree.settled_eq_iff.mpr fun hroot ↦ ?_
  match g with
  | none => exact hg.2
  | some ⟨_, tree⟩ => nomatch hroot.symm.trans (Owns.root_eq hg)

theorem Holds.eq_none (hg : Holds h t g) (hroot : t.root = none) : g = none := by
  match g with
  | none => rfl
  | some ⟨_, tree⟩ => nomatch hroot.symm.trans (Owns.root_eq hg)

/-! ### Consistent objects -/

omit [LinearOrder Key] in
theorem begin_eq_end_iff {fuel : ℕ} {l : List (Key × Value)} (hl : iterate h t fuel = some l) :
    begin h t = some {} ↔ l = [] := by
  obtain ⟨it, hbegin, hfrom⟩ := Option.bind_eq_some_iff.mp hl
  rw [hbegin, Option.some_inj]
  by_cases hit : it = {}
  · subst hit
    rw [iterateFrom_end, Option.some_inj] at hfrom
    exact iff_of_true rfl hfrom.symm
  · refine iff_of_false hit fun hnil ↦ ?_
    subst hnil
    unfold iterateFrom at hfrom
    rw [if_neg hit] at hfrom
    cases fuel with
    | zero => cases hfrom
    | succ fuel =>
      obtain ⟨entry, -, hfrom⟩ := Option.bind_eq_some_iff.mp hfrom
      obtain ⟨it', -, hfrom⟩ := Option.bind_eq_some_iff.mp hfrom
      obtain ⟨rest, -, hfrom⟩ := Option.bind_eq_some_iff.mp hfrom
      cases hfrom

theorem Holds.consistent (hg : Holds h t g) : Consistent h t := by
  have hiter := iterate_spec hg le_rfl
  refine ⟨⟨_, _, hiter, hg.size_eq⟩, ?_⟩
  rw [begin_eq_end_iff hiter, ← List.length_eq_zero_iff, ← hg.size_eq]
  exact beq_iff_eq

omit [LinearOrder Key] in
theorem iterate_of_root_eq_none (hroot : t.root = none) (fuel : ℕ) :
    iterate h t fuel = some [] := by
  have hbegin : begin h t = some {} := by simp [begin, leftmostLeaf, hroot]
  simp [iterate, hbegin, iterateFrom_end]

omit [LinearOrder Key] in
theorem Consistent.settled (hc : Consistent h t) : t.settled = t := by
  refine FBPlusTree.settled_eq_iff.mpr fun hroot ↦ ?_
  obtain ⟨fuel, l, hl, hsize⟩ := hc.1
  rw [iterate_of_root_eq_none hroot, Option.some_inj] at hl
  rw [hsize, ← hl, List.length_nil]

/-- An object that behaves as its settled one is consistent when it is settled, and else not. -/
theorem consistent_iff_settled (hg : Holds h t.settled g) : Consistent h t ↔ t.settled = t :=
  ⟨Consistent.settled, fun hsettled ↦ Holds.consistent (hsettled ▸ hg)⟩

end Settled

/-! ### A pool and its settled pool -/

section Simulation

variable {w w' w₁ : Pool Key Value} {content : ℕ → Content Key Value} {hs : Histories Key Value}

/-- The heap and the settled object of a result. -/
def settleResult (r : Memory Key Value × FBPlusTree) : Memory Key Value × FBPlusTree :=
  (r.1, r.2.settled)

theorem insert_settled (h : Memory Key Value) (t : FBPlusTree) (key : Key) (value : Value) :
    insert h t.settled key value = insert h t key value := by
  by_cases hroot : t.root = none
  · simp only [insert, FBPlusTree.root_settled, hroot]
  · rw [FBPlusTree.settled_of_root_ne_none hroot]

omit [LinearOrder Key] in
theorem clear_settled (h : Memory Key Value) (t : FBPlusTree) : clear h t.settled = clear h t := by
  rw [clear, FBPlusTree.root_settled, clear]

omit [LinearOrder Key] in
/-- A copy has a tree when its source has. -/
theorem copyConstruct_settled (h : Memory Key Value) (t : FBPlusTree) :
    (copyConstruct h t.settled).map settleResult = (copyConstruct h t).map settleResult := by
  by_cases hroot : t.root = none
  · simp [copyConstruct, hroot, cloneNode, settleResult, FBPlusTree.settled_of_root_eq_none]
  · rw [FBPlusTree.settled_of_root_ne_none hroot]

omit [LinearOrder Key] in
theorem copyAssign_settled (h : Memory Key Value) (t other : FBPlusTree) :
    (copyAssign h t.settled other.settled).map settleResult =
      (copyAssign h t other).map settleResult := by
  have hcopy (t other : FBPlusTree) : (copyAssign h t other).map settleResult =
      ((copyConstruct h other).map settleResult).bind fun r ↦
        (resetRoot r.1 t.root).map fun h ↦ (h, r.2) := by
    cases hrun : copyConstruct h other with
    | none => simp [copyAssign, hrun]
    | some r =>
      simp only [copyAssign, hrun, Option.bind_eq_bind, Option.bind_some, Option.map_some]
      cases hreset : resetRoot r.1 t.root with
      | none => simp [settleResult, hreset]
      | some h' => simp [settleResult, hreset]
  rw [hcopy, hcopy, copyConstruct_settled, FBPlusTree.root_settled]

omit [LinearOrder Key] in
theorem Pool.getElem?_settled (w : Pool Key Value) (i : ℕ) :
    w.settled.trees[i]? = w.trees[i]?.map FBPlusTree.settled :=
  List.getElem?_map

omit [LinearOrder Key] in
theorem Pool.getElem?_settled_none {i : ℕ} (htree : w.trees[i]? = none) :
    w.settled.trees[i]? = none := by
  rw [w.getElem?_settled, htree, Option.map_none]

omit [LinearOrder Key] in
theorem Pool.getElem?_settled_some {i : ℕ} {t : FBPlusTree} (htree : w.trees[i]? = some t) :
    w.settled.trees[i]? = some t.settled := by
  rw [w.getElem?_settled, htree, Option.map_some]

omit [LinearOrder Key] in
theorem Pool.settled_settled (w : Pool Key Value) : w.settled.settled = w.settled := by
  simp [Pool.settled, FBPlusTree.settled_settled]

omit [LinearOrder Key] in
/-- When a result is put among the objects, settling the pool settles the result and puts it among
the settled objects. -/
theorem map_settled_bind (put put' : FBPlusTree → List FBPlusTree)
    (hput : ∀ t, (put t).map FBPlusTree.settled = put' t.settled)
    (r : Option (Memory Key Value × FBPlusTree)) :
    (r.bind fun r ↦ some (⟨r.1, put r.2⟩ : Pool Key Value)).map Pool.settled =
      (r.map settleResult).map fun r ↦ ⟨r.1, put' r.2⟩ := by
  cases r with
  | none => rfl
  | some r => simp [Pool.settled, settleResult, hput]

omit [LinearOrder Key] in
theorem Pool.update_settled {i : ℕ}
    (f f' : Memory Key Value → FBPlusTree → Option (Memory Key Value × FBPlusTree))
    (hf : ∀ t, (f' w.heap t.settled).map settleResult = (f w.heap t).map settleResult) :
    (w.settled.update i f').map Pool.settled = (w.update i f).map Pool.settled := by
  cases htree : w.trees[i]? with
  | none =>
    have hsettled := Pool.getElem?_settled_none htree
    simp only [Pool.update, htree, hsettled, Option.map_some, w.settled_settled]
  | some t =>
    have hsettled := Pool.getElem?_settled_some htree
    have hset (w : Pool Key Value) (r : Option (Memory Key Value × FBPlusTree)) :=
      map_settled_bind (w.trees.set i) (w.settled.trees.set i) (fun _ ↦ List.map_set) r
    simp only [Pool.update, hsettled, htree, Option.bind_eq_bind]
    rw [hset, hset, w.settled_settled]
    exact congrArg _ (hf t)

/-- An operation on the settled pool does what it does on the pool. -/
theorem Pool.step_settled (w : Pool Key Value) (o : Op Key Value) :
    (w.settled.step o).map Pool.settled = (w.step o).map Pool.settled := by
  cases o with
  | create => simp [Pool.step, Pool.settled, FBPlusTree.settled_settled]
  | insert i key value =>
    exact Pool.update_settled (fun h t ↦ FBPTree.insert h t key value)
      (fun h t ↦ FBPTree.insert h t key value)
      fun t ↦ congrArg _ (insert_settled w.heap t key value)
  | clear i => exact Pool.update_settled _ _ fun t ↦ congrArg _ (clear_settled w.heap t)
  | copyConstruct source =>
    cases htree : w.trees[source]? with
    | none =>
      have hsettled := Pool.getElem?_settled_none htree
      simp only [Pool.step, htree, hsettled, Option.map_some, w.settled_settled]
    | some other =>
      have hsettled := Pool.getElem?_settled_some htree
      have hpush (w : Pool Key Value) (r : Option (Memory Key Value × FBPlusTree)) :=
        map_settled_bind (w.trees ++ [·]) (w.settled.trees ++ [·]) (fun _ ↦ List.map_append) r
      simp only [Pool.step, hsettled, htree, Option.bind_eq_bind]
      rw [hpush, hpush, w.settled_settled]
      exact congrArg _ (copyConstruct_settled w.heap other)
  | copyAssign i source =>
    cases htree : w.trees[source]? with
    | none =>
      have hsettled := Pool.getElem?_settled_none htree
      simp only [Pool.step, htree, hsettled, Option.map_some, w.settled_settled]
    | some other =>
      have hsettled := Pool.getElem?_settled_some htree
      simp only [Pool.step, hsettled, htree]
      split_ifs with heq
      · rw [Option.map_some, Option.map_some, w.settled_settled]
      · exact Pool.update_settled _ _ fun t ↦ copyAssign_settled w.heap t other

end Simulation

/-! ### Runs with moves -/

/-- The insertions into each object: a move takes them along. -/
def Histories.execute (hs : Histories Key Value) : Command Key Value → Histories Key Value
  | .op o => hs.step o
  | .moveConstruct source =>
    match hs[source]? with
    | none => hs
    | some l => hs.set source [] ++ [l]
  | .moveAssign i source =>
    match hs[i]?, hs[source]? with
    | some _, some l => if i = source then hs else (hs.set i l).set source []
    | _, _ => hs

/-- The settled pool is the one that the specification describes. -/
def Settles (w : Pool Key Value) (hs : Histories Key Value) : Prop :=
  ∃ content, Owned w.settled content hs

section Runs

variable {w w' : Pool Key Value} {content : ℕ → Content Key Value} {hs : Histories Key Value}

theorem Owned.settled_eq (hw : Owned w content hs) : w.settled = w := by
  have hmap : w.trees.map FBPlusTree.settled = w.trees := by
    refine List.ext_getElem? fun i ↦ ?_
    rw [List.getElem?_map]
    cases ht : w.trees[i]? with
    | none => rfl
    | some t => rw [Option.map_some, (hw.holds i t ht).settled]
  rw [Pool.settled, hmap]

theorem getElem?_set_set {α : Type} {l : List α} {i j k : ℕ} {x y z : α}
    (hk : ((l.set i x).set j y)[k]? = some z) :
    (k = j ∧ z = y) ∨ (k = i ∧ z = x) ∨ (k ≠ i ∧ k ≠ j ∧ l[k]? = some z) := by
  simp only [List.getElem?_set, List.length_set] at hk
  grind

/-- A tree changes hands: object `i`, which has none, takes that of object `j`. -/
theorem Owned.transfer (hw : Owned w content hs) {i j : ℕ} {t : FBPlusTree}
    {l : List (Key × Value)} (hi : i < w.trees.length) (hnone : content i = none)
    (ht : w.trees[j]? = some t) (hl : hs[j]? = some l) :
    Owned { w with trees := (w.trees.set i t).set j {} } (content ∘ Equiv.swap i j)
      ((hs.set i l).set j []) := by
  obtain ⟨hj, -⟩ := List.getElem?_eq_some_iff.mp ht
  refine ⟨by simpa using hw.length_eq, fun k t' hk ↦ ?_, fun k hk ↦ ?_, fun k l' hk ↦ ?_,
    fun k k' hkk' ↦ hw.disjoint _ _ ((Equiv.swap i j).injective.ne hkk')⟩
  · rw [Function.comp_apply]
    obtain ⟨rfl, rfl⟩ | ⟨rfl, rfl⟩ | ⟨hki, hkj, hk⟩ := getElem?_set_set hk
    · rw [Equiv.swap_apply_right, hnone]
      exact ⟨rfl, rfl⟩
    · rw [Equiv.swap_apply_left]
      exact hw.holds j t' ht
    · rw [Equiv.swap_apply_of_ne_of_ne hki hkj]
      exact hw.holds k t' hk
  · simp only [List.length_set] at hk
    rw [Function.comp_apply, Equiv.swap_apply_of_ne_of_ne (by omega) (by omega)]
    exact hw.outside k hk
  · rw [Function.comp_apply]
    obtain ⟨rfl, rfl⟩ | ⟨rfl, rfl⟩ | ⟨hki, hkj, hk⟩ := getElem?_set_set hk
    · rw [Equiv.swap_apply_right, hnone]
      rfl
    · rw [Equiv.swap_apply_left]
      exact hw.entries_eq j l' hl
    · rw [Equiv.swap_apply_of_ne_of_ne hki hkj]
      exact hw.entries_eq k l' hk

omit [LinearOrder Key] in
theorem Accounted.comp {h : Memory Key Value} (hacc : Accounted h content) (e : ℕ ≃ ℕ) :
    Accounted h (content ∘ e) := by
  intro a
  rw [hacc a]
  exact (e.surjective.exists (p := fun i ↦ a ∈ (content i).addrs))

/-- An operation is defined, since it is on the settled pool. -/
theorem Owned.step_of_settled (hw : Owned w.settled content hs) (o : Op Key Value) :
    ∃ w' content', w.step o = some w' ∧ Owned w'.settled content' (hs.step o) ∧
      (Accounted w.heap content → Accounted w'.heap content') := by
  obtain ⟨w₁, content₁, hstep, hw₁, hacc⟩ := hw.step_accounted o
  have hmap := w.step_settled o
  rw [hstep, Option.map_some, hw₁.settled_eq] at hmap
  obtain ⟨w', hstep', rfl⟩ := Option.map_eq_some_iff.mp hmap.symm
  exact ⟨w', content₁, hstep', hw₁, hacc⟩

theorem set_set_concat {α : Type} {l : List α} {j : ℕ} (hj : j < l.length) (x y z : α) :
    ((l ++ [x]).set l.length y).set j z = l.set j z ++ [y] := by
  rw [List.set_append_right _ _ le_rfl, Nat.sub_self, List.set_cons_zero,
    List.set_append_left _ _ hj]

theorem set_modify {α : Type} (l : List α) (i : ℕ) (f : α → α) (x : α) :
    (l.modify i f).set i x = l.set i x := by
  refine List.ext_getElem? fun j ↦ ?_
  by_cases hj : i = j
  · subst hj
    simp [List.getElem?_set]
  · rw [List.getElem?_set_ne hj, List.getElem?_set_ne hj, List.getElem?_modify_ne _ _ hj]

/-- The new object takes over the tree and the insertions of the source. -/
theorem Owned.moveConstruct (hw : Owned w.settled content hs) (source : ℕ) :
    ∃ w' content', w.execute (.moveConstruct source) = some w' ∧
      Owned w'.settled content' (hs.execute (.moveConstruct source)) ∧
      (Accounted w.heap content → Accounted w'.heap content') := by
  cases htree : w.trees[source]? with
  | none =>
    have hsettled := Pool.getElem?_settled_none htree
    have hnone := hw.history_eq_none hsettled
    exact ⟨w, content, by simp [Pool.execute, htree],
      by simpa [Histories.execute, hnone] using hw, id⟩
  | some other =>
    have hsettled := Pool.getElem?_settled_some htree
    obtain ⟨l, hl⟩ := hw.history hsettled
    obtain ⟨hlt, -⟩ := List.getElem?_eq_some_iff.mp hsettled
    -- the new object is first made without a tree and then gets that of the source
    have hnew : Holds w.settled.heap {} (none : Content Key Value) := ⟨rfl, rfl⟩
    obtain ⟨content₁, hw₁, hacc⟩ := hw.push (l := []) (.refl_none w.heap) hnew rfl
    have hnone : content₁ w.settled.trees.length = none :=
      (hw₁.holds _ {} (by simp)).eq_none rfl
    have hw₂ := hw₁.transfer (by simp) hnone
      (by rw [List.getElem?_append_left hlt, hsettled])
      (l := l) (by rw [List.getElem?_append_left (hw.length_eq ▸ hlt), hl])
    have htrees : ({ w with trees := w.trees.set source other.movedFrom ++ [other] }).settled =
        { w with trees := w.settled.trees.set source {} ++ [other.settled] } := by
      simp only [Pool.settled, List.map_append, List.map_set, FBPlusTree.settled_movedFrom,
        List.map_cons, List.map_nil]
    rw [hw.length_eq] at hlt
    rw [set_set_concat (hw.length_eq ▸ hlt), hw.length_eq, set_set_concat hlt] at hw₂
    refine ⟨{ w with trees := w.trees.set source other.movedFrom ++ [other] },
      content₁ ∘ Equiv.swap hs.length source, by simp only [Pool.execute, htree], ?_,
      fun hw ↦ (hacc hw).comp _⟩
    simp only [Histories.execute, hl, htrees]
    exact hw₂

/-- The target releases its tree and takes over that of the source. -/
theorem Owned.moveAssign (hw : Owned w.settled content hs) (i source : ℕ) :
    ∃ w' content', w.execute (.moveAssign i source) = some w' ∧
      Owned w'.settled content' (hs.execute (.moveAssign i source)) ∧
      (Accounted w.heap content → Accounted w'.heap content') := by
  cases ht : w.trees[i]? with
  | none =>
    have hsettled := Pool.getElem?_settled_none ht
    have hnone := hw.history_eq_none hsettled
    exact ⟨w, content, by simp [Pool.execute, ht],
      by simpa [Histories.execute, hnone] using hw, id⟩
  | some t =>
    cases hother : w.trees[source]? with
    | none =>
      have hsettled := Pool.getElem?_settled_none hother
      have hnone := hw.history_eq_none hsettled
      exact ⟨w, content, by simp [Pool.execute, ht, hother],
        by simpa [Histories.execute, hnone] using hw, id⟩
    | some other =>
      have hsettled := Pool.getElem?_settled_some ht
      have hsettled' := Pool.getElem?_settled_some hother
      obtain ⟨l, hl⟩ := hw.history hsettled
      obtain ⟨l', hl'⟩ := hw.history hsettled'
      by_cases heq : i = source
      · subst heq
        exact ⟨w, content, by simp [Pool.execute, ht],
          by simpa [Histories.execute, hl] using hw, id⟩
      · -- the target is first cleared and then gets the tree of the source
        obtain ⟨w₁, content₁, hclear, hw₁, hacc⟩ := hw.step_accounted (.clear i)
        obtain ⟨h', hreset, -⟩ := resetRoot_spec (hw.holds i _ hsettled)
        simp only [Pool.step, Pool.update, hsettled, clear, hreset, Option.bind_eq_bind,
          Option.bind_some, Option.some_inj] at hclear
        subst hclear
        obtain ⟨hlt, -⟩ := List.getElem?_eq_some_iff.mp hsettled
        have hnone : content₁ i = none :=
          (hw₁.holds i _ (List.getElem?_set_self hlt)).eq_none rfl
        have hw₂ := hw₁.transfer (by simpa using hlt) hnone
          (by rw [List.getElem?_set_ne heq, hsettled'])
          (l := l') (by rw [Histories.step, List.getElem?_modify_ne _ _ heq, hl'])
        rw [List.set_set, Histories.step, set_modify] at hw₂
        rw [FBPlusTree.root_settled] at hreset
        have htrees : (⟨h', (w.trees.set i other).set source other.movedFrom⟩ :
              Pool Key Value).settled =
            ⟨h', (w.settled.trees.set i other.settled).set source {}⟩ := by
          simp only [Pool.settled, List.map_set, FBPlusTree.settled_movedFrom]
        have hrun : w.execute (.moveAssign i source) =
            some ⟨h', (w.trees.set i other).set source other.movedFrom⟩ := by
          have hheap : resetRoot w.heap t.root = some h' := hreset
          simp [Pool.execute, ht, hother, heq, hheap]
        refine ⟨_, content₁ ∘ Equiv.swap i source, hrun, ?_, fun hw ↦ (hacc hw).comp _⟩
        simp only [Histories.execute, hl, hl', heq, if_false, htrees]
        exact hw₂

/-- Every command is defined, whatever objects are stale, and keeps the account of the heap. -/
theorem Owned.execute (hw : Owned w.settled content hs) (c : Command Key Value) :
    ∃ w' content', w.execute c = some w' ∧ Owned w'.settled content' (hs.execute c) ∧
      (Accounted w.heap content → Accounted w'.heap content') := by
  cases c with
  | op o => exact hw.step_of_settled o
  | moveConstruct source => exact hw.moveConstruct source
  | moveAssign i source => exact hw.moveAssign i source

theorem Settles.execute (hw : Settles w hs) (c : Command Key Value) :
    ∃ w', w.execute c = some w' ∧ Settles w' (hs.execute c) := by
  obtain ⟨content, hw⟩ := hw
  obtain ⟨w', content', hstep, hw', -⟩ := hw.execute c
  exact ⟨w', hstep, content', hw'⟩

theorem settles_initial : Settles (Pool.initial : Pool Key Value) [] := ⟨_, owned_initial⟩

omit [LinearOrder Key] in
theorem Pool.settled_eq_iff : w.settled = w ↔ ∀ t ∈ w.trees, t.settled = t := by
  obtain ⟨h, trees⟩ := w
  simp only [Pool.settled, Pool.mk.injEq, true_and]
  have hid : (trees.map FBPlusTree.settled = trees) =
      (trees.map FBPlusTree.settled = trees.map id) := by rw [List.map_id]
  rw [hid]
  exact List.map_inj_left

/-- The objects of a pool are consistent when none of them is stale. -/
theorem Settles.allConsistent_iff (hw : Settles w hs) :
    (∀ t ∈ w.trees, Consistent w.heap t) ↔ w.settled = w := by
  obtain ⟨content, hw⟩ := hw
  rw [Pool.settled_eq_iff]
  refine forall₂_congr fun t ht ↦ ?_
  obtain ⟨i, hi⟩ := List.getElem?_of_mem ht
  have hsettled := Pool.getElem?_settled_some hi
  exact consistent_iff_settled (hw.holds i _ hsettled)

theorem FBPlusTree.settled_movedFrom_iff {t : FBPlusTree} :
    t.movedFrom.settled = t.movedFrom ↔ t.size = 0 := by
  rw [settled_eq_iff]
  exact ⟨fun h ↦ h rfl, fun h _ ↦ h⟩

/-- Among settled objects, one that was moved from is stale exactly when it had a size. -/
theorem settled_set_movedFrom_iff {trees : List FBPlusTree} {source : ℕ} {other : FBPlusTree}
    (hlt : source < trees.length) (htrees : ∀ t ∈ trees, t.settled = t) :
    (∀ t ∈ trees.set source other.movedFrom, t.settled = t) ↔ other.size = 0 := by
  constructor
  · exact fun hall ↦ FBPlusTree.settled_movedFrom_iff.mp (hall _ (List.mem_set hlt _))
  · intro hsize t ht
    rcases List.mem_or_eq_of_mem_set ht with ht | rfl
    · exact htrees t ht
    · exact FBPlusTree.settled_movedFrom_iff.mpr hsize

/-- Among objects that are not stale, a command leaves a stale one exactly when it moves from an
object that has a size. -/
theorem Owned.settled_execute_iff (hw : Owned w content hs) {c : Command Key Value}
    (hstep : w.execute c = some w') : w'.settled = w' ↔ MovesOnlyEmpty ⟨w, c, w'⟩ := by
  have hw_settled := Pool.settled_eq_iff.mp hw.settled_eq
  cases c with
  | op o =>
    obtain ⟨w₁, content₁, hstep₁, hw₁⟩ := hw.step o
    obtain rfl := Option.some.inj (hstep.symm.trans hstep₁)
    exact iff_of_true hw₁.settled_eq trivial
  | moveConstruct source =>
    simp only [MovesOnlyEmpty, Option.mem_def]
    cases hother : w.trees[source]? with
    | none =>
      simp only [Pool.execute, hother, Option.some_inj] at hstep
      subst hstep
      exact iff_of_true hw.settled_eq (by simp)
    | some other =>
      simp only [Pool.execute, hother, Option.some_inj] at hstep
      subst hstep
      obtain ⟨hlt, -⟩ := List.getElem?_eq_some_iff.mp hother
      simp only [Pool.settled_eq_iff, Option.some_inj, forall_eq', List.forall_mem_append,
        List.forall_mem_singleton]
      rw [settled_set_movedFrom_iff hlt hw_settled]
      exact and_iff_left (hw_settled other (List.mem_of_getElem? hother))
  | moveAssign i source =>
    simp only [MovesOnlyEmpty, Option.mem_def]
    cases ht : w.trees[i]? with
    | none =>
      simp only [Pool.execute, ht, Option.some_inj] at hstep
      subst hstep
      exact iff_of_true hw.settled_eq (by simp)
    | some t =>
      cases hother : w.trees[source]? with
      | none =>
        simp only [Pool.execute, ht, hother, Option.some_inj] at hstep
        subst hstep
        exact iff_of_true hw.settled_eq (by simp)
      | some other =>
        simp only [Pool.execute, ht, hother] at hstep
        by_cases heq : i = source
        · rw [if_pos heq, Option.some_inj] at hstep
          subst hstep
          exact iff_of_true hw.settled_eq fun hne ↦ absurd heq hne
        · rw [if_neg heq] at hstep
          obtain ⟨h', -, hw'⟩ := Option.bind_eq_some_iff.mp hstep
          obtain rfl := Option.some.inj hw'
          obtain ⟨hlt, -⟩ := List.getElem?_eq_some_iff.mp hother
          have htrees : ∀ t ∈ w.trees.set i other, t.settled = t := fun t ht ↦ by
            rcases List.mem_or_eq_of_mem_set ht with ht | rfl
            · exact hw_settled t ht
            · exact hw_settled t (List.mem_of_getElem? hother)
          simp only [Pool.settled_eq_iff, Option.some_inj, forall_eq']
          rw [settled_set_movedFrom_iff (by simpa using hlt) htrees]
          exact ⟨fun hsize _ ↦ hsize, fun hsize ↦ hsize heq⟩

/-- Every sequence of operations and moves is defined. Every object is consistent in every state
that it reaches, exactly when every move is from an object of size 0 or from an object to itself. -/
theorem consistent_iff (cs : List (Command Key Value)) :
    ∃ h w, Execution.trace Pool.execute (Pool.initial : Pool Key Value) cs = some (h, w) ∧
      ((∀ x ∈ h, ∀ t ∈ x.after.trees, Consistent x.after.heap t) ↔ ∀ x ∈ h, MovesOnlyEmpty x) := by
  obtain ⟨h, w, htrace⟩ := Execution.exists_trace
    (P := fun w : Pool Key Value ↦ ∃ hs, Settles w hs)
    (fun w c ⟨hs, hw⟩ ↦ by
      obtain ⟨w', hstep, hw'⟩ := hw.execute c
      exact ⟨w', hstep, _, hw'⟩) cs ⟨[], settles_initial⟩
  refine ⟨h, w, htrace, ?_⟩
  have hiff : Throughout (fun _ x ↦ ∀ t ∈ x.after.trees, Consistent x.after.heap t) h ↔
      Throughout (fun _ x ↦ MovesOnlyEmpty x) h :=
    Execution.throughout_iff (D := fun _ _ ↦ True)
      (P := fun _ w ↦ ∃ content hs, Owned w content hs)
      ⟨_, _, owned_initial⟩
      (fun _ w c w' _ _ ⟨content, hs, hw⟩ hstep ↦ by
        obtain ⟨w₁, hstep₁, hw₁⟩ := Settles.execute ⟨content, hw.settled_eq.symm ▸ hw⟩ c
        obtain rfl := Option.some.inj (hstep.symm.trans hstep₁)
        exact hw₁.allConsistent_iff.trans (hw.settled_execute_iff hstep))
      (fun _ w c w' ⟨content, hs, hw⟩ _ hstep hall ↦ by
        obtain ⟨w₁, hstep₁, hw₁⟩ := Settles.execute ⟨content, hw.settled_eq.symm ▸ hw⟩ c
        obtain rfl := Option.some.inj (hstep.symm.trans hstep₁)
        obtain ⟨content', hw'⟩ := hw₁
        exact ⟨content', _, Settles.allConsistent_iff ⟨content', hw'⟩ |>.mp hall ▸ hw'⟩)
      (Execution.of_trace htrace) throughout_true
  rwa [throughout_iff_mem, throughout_iff_mem] at hiff

/-- After a move from a tree with one entry, `size()` of the source is 1 and iteration yields
nothing. -/
theorem movedFrom_not_consistent :
    ¬ ∀ cs : List (Command ℕ ℕ), ∃ h w, Execution.trace Pool.execute Pool.initial cs = some (h, w) ∧
      ∀ x ∈ h, ∀ t ∈ x.after.trees, Consistent x.after.heap t := by
  intro hall
  obtain ⟨h, w, htrace, x, hx, t, ht, hstale⟩ : ∃ h w,
      Execution.trace Pool.execute (Pool.initial : Pool ℕ ℕ)
        [.op .create, .op (.insert 0 1 2), .moveConstruct 0] = some (h, w) ∧
      ∃ x ∈ h, ∃ t ∈ x.after.trees, t.settled ≠ t :=
    ⟨_, _, rfl, _, List.mem_of_getElem? (i := 2) rfl, { root := none, size := 1 },
      List.mem_cons_self, by decide⟩
  obtain ⟨h', w', htrace', hconsistent⟩ := hall _
  obtain ⟨rfl, -⟩ := Prod.mk.inj (Option.some.inj (htrace.symm.trans htrace'))
  exact hstale (hconsistent x hx t ht).settled

end Runs

end WsServer.FBPTree
