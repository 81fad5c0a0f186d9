import WsServer.FBPTree.Iterators

/-!
# Loops over changing trees

A client goes over an object with an iterator and does what it likes with all objects inside the
loop. `scan_of_reachable` says what such a loop can rely on: `++it` and the `*it` behind it are
defined, and no key is missed, as long as the nodes of the object are not released. A key may come
twice, since an insertion in front of it moves it to the next position.

What is inserted are values of the client. A loop that inserts `(*it).second` itself, without a copy
of it, refers to a string that the insertion may move away.
-/

set_option autoImplicit false
set_option relaxedAutoImplicit false

namespace WsServer.FBPTree

open Foundations

variable {Key Value : Type}

/-- The loop `for (it = t.begin(); it != t.end(); ++it)` of a client while it runs: what object `t`
is by now, and none when its nodes have been released; the iterator; and `*it` at each position
where the iterator has arrived. -/
structure Scan (Key Value : Type) where
  pool : Pool Key Value
  home : Option ℕ
  it : Iterator
  seen : List (Key × Value)

/-- Inside the loop anything is done with objects, where what is inserted is the client's own; then
`++it`. -/
inductive Scan.Action (Key Value : Type)
  | event (e : Event Key Value)
  | next

/-- `it != t.end()` and `*it`. -/
def arrive (h : Memory Key Value) (it : Iterator) (seen : List (Key × Value)) :
    Option (List (Key × Value)) :=
  if it = {} then some seen else (it.deref h).map fun e ↦ seen ++ [e]

def Scan.start (w : Pool Key Value) (i : ℕ) : Option (Scan Key Value) := do
  let t ← w.trees[i]?
  let it ← begin w.heap t
  let seen ← arrive w.heap it []
  some { pool := w, home := some i, it := it, seen := seen }

/-- A client does not use an iterator any more whose object has released its nodes. -/
def Scan.step [LinearOrder Key] (s : Scan Key Value) :
    Scan.Action Key Value → Option (Scan Key Value)
  | .event e => do
    let w ← s.pool.perform e
    some { s with pool := w, home := s.home.bind fun i ↦ s.pool.follow i e }
  | .next =>
    if s.home = none then some s
    else do
      let it ← s.it.advance s.pool.heap
      let seen ← arrive s.pool.heap it s.seen
      some { s with it := it, seen := seen }

section Scans

variable [LinearOrder Key] {start seen keys keys' : List Key}

/-- What was in the tree at the start and has not been seen is ahead, behind what was seen last. -/
def Covers (start seen keys : List Key) : Prop :=
  ∀ k ∈ start, k ∈ seen ∨ (k ∈ keys ∧ ∀ x ∈ seen.getLast?, x < k)

theorem Covers.mono (hcovers : Covers start seen keys) (hsub : keys ⊆ keys') :
    Covers start seen keys' := fun k hk ↦
  (hcovers k hk).imp_right fun ⟨hin, hlast⟩ ↦ ⟨hsub hin, hlast⟩

/-- Passing a key loses none that has not been seen: the key passed is not behind the one that was
seen last, which is still ahead. -/
theorem Covers.pass (hcovers : Covers start seen keys) (hsorted : keys.Pairwise (· < ·))
    (hlast : keys = [] ∨ ∃ x ∈ seen.getLast?, x ∈ keys)
    (hpass : keys = keys' ∨ ∃ y, keys = y :: keys') : ∀ k ∈ start, k ∈ seen ∨ k ∈ keys' := by
  intro k hk
  obtain hseen | ⟨hin, hbehind⟩ := hcovers k hk
  · exact Or.inl hseen
  · obtain rfl | ⟨y, rfl⟩ := hpass
    · exact Or.inr hin
    · obtain hnil | ⟨x, hx, hxin⟩ := hlast
      · cases hnil
      · rcases List.mem_cons.mp hin with rfl | hin
        · rcases List.mem_cons.mp hxin with rfl | hxin
          · exact absurd (hbehind x hx) (lt_irrefl x)
          · exact absurd (hbehind x hx) ((List.pairwise_cons.mp hsorted).1 x hxin).not_gt
        · exact Or.inr hin

theorem Covers.arrive {x : Key} {rest : List Key} (hsorted : (x :: rest).Pairwise (· < ·))
    (hcovers : ∀ k ∈ start, k ∈ seen ∨ k ∈ x :: rest) :
    Covers start (seen ++ [x]) (x :: rest) := by
  intro k hk
  rcases hcovers k hk with hseen | hin
  · exact Or.inl (List.mem_append_left _ hseen)
  · rcases List.mem_cons.mp hin with rfl | hrest
    · exact Or.inl (by simp)
    · exact Or.inr ⟨hin, fun y hy ↦ by
        rw [List.getLast?_concat, Option.mem_some_iff] at hy
        exact hy ▸ (List.pairwise_cons.mp hsorted).1 k hrest⟩

/-- The invariant of a loop over an object that held the keys `start`. -/
structure Scan.Valid (start : List Key) (s : Scan Key Value) : Prop where
  owned : AllOwned s.pool
  covers : ∀ i, s.home = some i → ∃ keys, s.it.Inside s.pool i keys ∧
    Covers start (keysOf s.seen) keys ∧
    (s.it = {} ∨ ∃ x ∈ (keysOf s.seen).getLast?, x ∈ keys)

theorem Scan.Valid.event {s : Scan Key Value} (hs : s.Valid start) (e : Event Key Value) :
    ∃ s', s.step (.event e) = some s' ∧ s'.Valid start := by
  obtain ⟨w', hstep, howned⟩ := hs.owned.perform e
  refine ⟨{ s with pool := w', home := s.home.bind fun i ↦ s.pool.follow i e },
    by simp only [Scan.step, hstep, Option.bind_eq_bind, Option.bind_some], howned, fun j hj ↦ ?_⟩
  obtain ⟨i, hi, hfollow⟩ := Option.bind_eq_some_iff.mp hj
  obtain ⟨keys, hit, hcovers, hlast⟩ := hs.covers i hi
  obtain ⟨content, hist, hw, -⟩ := hs.owned
  obtain ⟨keys', hit', hsub⟩ := hit.perform hw hstep hfollow
  exact ⟨keys', hit', hcovers.mono hsub, hlast.imp_right fun ⟨x, hx, hin⟩ ↦ ⟨x, hx, hsub hin⟩⟩

theorem Scan.Valid.next {s : Scan Key Value} (hs : s.Valid start) :
    ∃ s', s.step .next = some s' ∧ s'.Valid start := by
  simp only [Scan.step]
  split_ifs with hhome
  · exact ⟨s, rfl, hs⟩
  · obtain ⟨i, hi⟩ := Option.ne_none_iff_exists'.mp hhome
    obtain ⟨keys, hit, hcovers, hlast⟩ := hs.covers i hi
    obtain ⟨content, hist, hw, -⟩ := id hs.owned
    obtain ⟨it', keys', hadvance, hit', hsorted, hsorted', hpass, harrive⟩ := hit.advance_eq hw
    have hahead : keys = [] ∨ ∃ x ∈ (keysOf s.seen).getLast?, x ∈ keys :=
      hlast.imp_left fun hend ↦ (hend ▸ hit).nil_of_end
    have hrest := hcovers.pass hsorted hahead hpass
    have hhere : ∀ j, s.home = some j → j = i := fun j hj ↦ Option.some.inj (hj.symm.trans hi)
    rcases harrive with rfl | ⟨e, rest, hne, hderef, rfl⟩
    · -- the loop ends, with nothing ahead
      refine ⟨{ s with it := {} }, by simp [hadvance, FBPTree.arrive], hs.owned, fun j hj ↦ ?_⟩
      obtain rfl := hhere j hj
      obtain rfl := hit'.nil_of_end
      exact ⟨[], hit', fun k hk ↦ Or.inl ((hrest k hk).resolve_right List.not_mem_nil),
        Or.inl rfl⟩
    · refine ⟨{ s with it := it', seen := s.seen ++ [e] },
        by simp [hadvance, FBPTree.arrive, hne, hderef], hs.owned, fun j hj ↦ ?_⟩
      obtain rfl := hhere j hj
      have hseen : keysOf (s.seen ++ [e]) = keysOf s.seen ++ [e.1] := by simp [keysOf]
      refine ⟨e.1 :: rest, hit', ?_, Or.inr ⟨e.1, ?_, List.mem_cons_self⟩⟩
      · rw [hseen]
        exact .arrive hsorted' hrest
      · rw [hseen, List.getLast?_concat]
        rfl

theorem Scan.Valid.step {s : Scan Key Value} (hs : s.Valid start) (action : Scan.Action Key Value) :
    ∃ s', s.step action = some s' ∧ s'.Valid start := by
  cases action with
  | event e => exact hs.event e
  | next => exact hs.next

theorem FBPlusTree.size_settled_le (t : FBPlusTree) : t.settled.size ≤ t.size := by
  unfold FBPlusTree.settled
  split_ifs
  · exact Nat.zero_le _
  · exact le_rfl

omit [LinearOrder Key] in
theorem begin_settled (h : Memory Key Value) (t : FBPlusTree) : begin h t.settled = begin h t := by
  simp only [begin, leftmostLeaf, FBPlusTree.root_settled]

/-- Iteration over an object yields its entries, whether it is stale or not. -/
theorem Owned.iterate_settled {w : Pool Key Value} {content : ℕ → Content Key Value}
    {hist : Histories Key Value} (hw : Owned w.settled content hist) {i : ℕ} {t : FBPlusTree}
    (ht : w.trees[i]? = some t) {fuel : ℕ} (hfuel : t.size ≤ fuel) :
    iterate w.heap t fuel = some (content i).entries := by
  have hspec := iterate_spec (hw.holds i _ (Pool.getElem?_settled_some ht))
    (t.size_settled_le.trans hfuel)
  rw [iterate, begin_settled] at hspec
  exact hspec

/-- The loop begins at the first entry. -/
theorem exists_start {w : Pool Key Value} (howned : AllOwned w) {i : ℕ} {t : FBPlusTree}
    (ht : w.trees[i]? = some t) :
    ∃ s entries, Scan.start w i = some s ∧ s.Valid (keysOf entries) ∧
      ∀ fuel, t.size ≤ fuel → iterate w.heap t fuel = some entries := by
  obtain ⟨content, hist, hw, hacc⟩ := id howned
  have hholds := hw.holds i _ (Pool.getElem?_settled_some ht)
  have hiterate : ∀ fuel, t.size ≤ fuel → iterate w.heap t fuel = some (content i).entries :=
    fun fuel hfuel ↦ hw.iterate_settled ht hfuel
  cases hcontent : content i with
  | none =>
    rw [hcontent] at hholds hiterate
    have hroot : t.root = none := t.root_settled ▸ hholds.1
    refine ⟨{ pool := w, home := some i, it := {}, seen := [] }, [],
      by simp [Scan.start, ht, begin, leftmostLeaf, hroot, FBPTree.arrive], ⟨howned, ?_⟩, hiterate⟩
    exact fun j hj ↦ ⟨[], ⟨.finish, by simp⟩, by simp [Covers], Or.inl rfl⟩
  | some top =>
    obtain ⟨d, tree⟩ := top
    rw [hcontent] at hholds hiterate
    have hown : Owns w.heap t.settled tree := hholds
    obtain ⟨a, e, rest, hbegin, ha, hahead, hderef, hkeys⟩ := hown.begin_eq
    rw [begin_settled] at hbegin
    refine ⟨{ pool := w, home := some i, it := { leaf := some a, index := 0 }, seen := [e] },
      tree.entries, by simp [Scan.start, ht, hbegin, FBPTree.arrive, hderef], ⟨howned, ?_⟩,
      hiterate⟩
    rintro j ⟨⟩
    have hsorted : (keysOf tree.entries).Pairwise (· < ·) := hown.sorted
    rw [hkeys] at hahead hsorted ⊢
    have hcovers : Covers (e.1 :: rest) ([] ++ [e.1]) (e.1 :: rest) :=
      .arrive hsorted fun k hk ↦ Or.inr hk
    refine ⟨_, ⟨hahead, fun b hb ↦ ?_⟩, hcovers, Or.inr ⟨e.1, rfl, List.mem_cons_self⟩⟩
    cases hb
    obtain ⟨depth, hpath⟩ := hown.represents.exists_descends ha
    exact ⟨tree.addr, depth, (Pool.pointee_root_of_tree ht).trans (t.root_settled ▸ hown.root_eq),
      hpath⟩

/-- The key 1 comes twice when 0 is inserted while the loop is at it. -/
example :
    (do
      let w ← [.op .create, .op (.insert 0 1 ()), .op (.insert 0 2 ())].foldlM
        Pool.execute (Pool.initial : Pool ℕ Unit)
      let s ← Scan.start w 0
      let s ← [.event (.command (.op (.insert 0 0 ()))), .next, .next, .next].foldlM Scan.step s
      some (s.seen, s.it)) = some ([(1, ()), (1, ()), (2, ())], {}) := by
  decide

end Scans

end WsServer.FBPTree
