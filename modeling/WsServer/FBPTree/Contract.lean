import WsServer.FBPTree.Pool

/-!
# Reachable trees as finite maps

Every object of every reachable pool is the finite map of the insertions made into it
(`pool_refines_map`), and its chain of leaves is exactly its own tree, so that iteration enumerates
that map in key order and an operation on one object is invisible in all others
(`leaf_chain_of_reachable`).
-/

set_option autoImplicit false
set_option relaxedAutoImplicit false

namespace WsServer.FBPTree

open Foundations

variable {Key Value : Type} [LinearOrder Key]

/-- The value of the last insertion of `k` in a history. -/
def lastInserted (k : Key) (history : List (Key × Value)) : Option Value :=
  history.reverse.lookup k

/-- The number of distinct keys in a history. -/
def distinctKeys (history : List (Key × Value)) : ℕ := (history.map Prod.fst).toFinset.card

section Owned

variable {w : Pool Key Value} {content : ℕ → Content Key Value} {hs : Histories Key Value}
  {i : ℕ} {t : FBPlusTree} {l : List (Key × Value)}

theorem Owned.find_eq (hw : Owned w content hs) (ht : w.trees[i]? = some t)
    (hl : hs[i]? = some l) (k : Key) : find w.heap t k = some (lastInserted k l) := by
  rw [find_spec (hw.holds i t ht), hw.entries_eq i l hl, lookup_replay, lastInserted]

theorem Owned.size_eq (hw : Owned w content hs) (ht : w.trees[i]? = some t)
    (hl : hs[i]? = some l) : t.size = distinctKeys l := by
  rw [(hw.holds i t ht).size_eq, hw.entries_eq i l hl, length_replay, distinctKeys]

theorem Owned.exists_tree (hw : Owned w content hs) (hl : hs[i]? = some l) :
    ∃ t, w.trees[i]? = some t := by
  obtain ⟨hlt, -⟩ := List.getElem?_eq_some_iff.mp hl
  rw [← hw.length_eq] at hlt
  exact ⟨_, List.getElem?_eq_getElem hlt⟩

/-- Objects with the same history iterate alike, whatever their nodes. -/
theorem Owned.iterate_eq (hw : Owned w content hs) (ht : w.trees[i]? = some t)
    (hl : hs[i]? = some l) {fuel : ℕ} (hfuel : t.size ≤ fuel) :
    iterate w.heap t fuel = some (replay l) := by
  rw [iterate_spec (hw.holds i t ht) hfuel, hw.entries_eq i l hl]

end Owned

/-! ### Refinement of a finite map -/

theorem distinctKeys_append_of_mem {k : Key} {l : List (Key × Value)} (hk : k ∈ keysOf l)
    (v : Value) : distinctKeys (l ++ [(k, v)]) = distinctKeys l := by
  have hset : ((l ++ [(k, v)]).map Prod.fst).toFinset = (l.map Prod.fst).toFinset := by
    ext x
    simp only [List.map_append, List.map_cons, List.map_nil, List.mem_toFinset, List.mem_append,
      List.mem_singleton, or_iff_left_iff_imp]
    rintro rfl
    exact hk
  rw [distinctKeys, hset, distinctKeys]

/-- After any operations on any number of objects, `find` returns for every object and key the last
value inserted, `size_` counts the distinct keys, and one more insertion of a present key overwrites
the value and keeps the size. -/
theorem pool_refines_map (ops : List (Op Key Value)) :
    ∃ w, Pool.initial.run ops = some w ∧ w.trees.length = (histories ops).length ∧
      ∀ i t, w.trees[i]? = some t → ∃ l, (histories ops)[i]? = some l ∧
        (∀ k, find w.heap t k = some (lastInserted k l)) ∧ t.size = distinctKeys l ∧
        ∀ k v, find w.heap t k ≠ some none → ∃ w' t', w.step (.insert i k v) = some w' ∧
          w'.trees[i]? = some t' ∧ t'.size = t.size ∧
          ∀ k', find w'.heap t' k' = if k' = k then some (some v) else find w.heap t k' := by
  obtain ⟨w, content, hrun, hw⟩ := owned_run ops
  refine ⟨w, hrun, hw.length_eq, fun i t ht ↦ ?_⟩
  obtain ⟨l, hl⟩ := hw.history ht
  refine ⟨l, hl, hw.find_eq ht hl, hw.size_eq ht hl, fun k v hk ↦ ?_⟩
  obtain ⟨w', content', hstep, hw'⟩ := hw.step (.insert i k v)
  have hl' : (Histories.step (histories ops) (.insert i k v))[i]? = some (l ++ [(k, v)]) := by
    simp [Histories.step, hl]
  obtain ⟨t', ht'⟩ := hw'.exists_tree hl'
  refine ⟨w', t', hstep, ht', ?_, fun k' ↦ ?_⟩
  · have hmem : k ∈ keysOf l := by
      by_contra hout
      refine hk ?_
      rw [hw.find_eq ht hl, lastInserted, lookup_eq_none_of_notMem]
      simpa using hout
    rw [hw'.size_eq ht' hl', hw.size_eq ht hl, distinctKeys_append_of_mem hmem]
  · rw [hw'.find_eq ht' hl', hw.find_eq ht hl]
    by_cases hkk : k' = k
    · simp [hkk, lastInserted]
    · have hbeq : (k' == k) = false := beq_eq_false_iff_ne.mpr hkk
      simp [hkk, hbeq, lastInserted, List.lookup_cons]

/-! ### The chain of leaves -/

omit [LinearOrder Key] in
/-- An operation leaves the history of every object but its target. -/
theorem Histories.step_of_target_ne {hs : Histories Key Value} {op : Op Key Value} {i : ℕ}
    {l : List (Key × Value)} (hl : hs[i]? = some l) (hop : op.target ≠ some i) :
    (hs.step op)[i]? = some l := by
  obtain ⟨hlt, -⟩ := List.getElem?_eq_some_iff.mp hl
  cases op with
  | create => rw [Histories.step, List.getElem?_append_left hlt, hl]
  | insert j k v =>
    rw [Histories.step, List.getElem?_modify_ne _ _ (fun h ↦ hop (congrArg some h)), hl]
  | clear j => rw [Histories.step, List.getElem?_modify_ne _ _ (fun h ↦ hop (congrArg some h)), hl]
  | copyConstruct source =>
    simp only [Histories.step]
    split
    · exact hl
    · rw [List.getElem?_append_left hlt, hl]
  | copyAssign j source =>
    simp only [Histories.step]
    split
    · exact hl
    · rw [List.getElem?_modify_ne _ _ (fun h ↦ hop (congrArg some h)), hl]

omit [LinearOrder Key] in
theorem Pool.update_of_ne {w w' : Pool Key Value} {i j : ℕ} {t : FBPlusTree}
    {f : Memory Key Value → FBPlusTree → Option (Memory Key Value × FBPlusTree)}
    (ht : w.trees[i]? = some t) (hj : j ≠ i) (hstep : w.update j f = some w') :
    w'.trees[i]? = some t := by
  simp only [Pool.update] at hstep
  split at hstep
  · obtain rfl := Option.some.inj hstep
    exact ht
  · obtain ⟨r, -, hr⟩ := Option.bind_eq_some_iff.mp hstep
    obtain rfl := Option.some.inj hr
    rw [List.getElem?_set_ne hj, ht]

/-- An operation leaves every object but its target as it is. -/
theorem Pool.step_of_target_ne {w w' : Pool Key Value} {op : Op Key Value} {i : ℕ}
    {t : FBPlusTree} (ht : w.trees[i]? = some t) (hop : op.target ≠ some i)
    (hstep : w.step op = some w') : w'.trees[i]? = some t := by
  obtain ⟨hlt, -⟩ := List.getElem?_eq_some_iff.mp ht
  cases op with
  | create =>
    obtain rfl := Option.some.inj hstep
    rw [List.getElem?_append_left hlt, ht]
  | insert j k v =>
    exact Pool.update_of_ne (f := fun h t ↦ FBPTree.insert h t k v) ht
      (fun h ↦ hop (congrArg some h)) hstep
  | clear j => exact Pool.update_of_ne ht (fun h ↦ hop (congrArg some h)) hstep
  | copyConstruct source =>
    simp only [Pool.step] at hstep
    split at hstep
    · obtain rfl := Option.some.inj hstep
      exact ht
    · obtain ⟨r, -, hr⟩ := Option.bind_eq_some_iff.mp hstep
      obtain rfl := Option.some.inj hr
      rw [List.getElem?_append_left hlt, ht]
  | copyAssign j source =>
    simp only [Pool.step] at hstep
    split at hstep
    · obtain rfl := Option.some.inj hstep
      exact ht
    · split_ifs at hstep with heq
      · obtain rfl := Option.some.inj hstep
        exact ht
      · exact Pool.update_of_ne ht (fun h ↦ hop (congrArg some h)) hstep

/-- Operations on other objects are invisible in object `i`. -/
theorem Owned.run_of_target_ne {w : Pool Key Value} {content : ℕ → Content Key Value}
    {hs : Histories Key Value} (hw : Owned w content hs) {i : ℕ} {t : FBPlusTree}
    {l : List (Key × Value)} (ht : w.trees[i]? = some t) (hl : hs[i]? = some l)
    {ops : List (Op Key Value)} (hops : ∀ op ∈ ops, op.target ≠ some i) :
    ∃ w', w.run ops = some w' ∧ w'.trees[i]? = some t ∧
      ∀ fuel, t.size ≤ fuel → iterate w'.heap t fuel = some (replay l) := by
  induction ops generalizing w content hs with
  | nil => exact ⟨w, rfl, ht, fun fuel hfuel ↦ hw.iterate_eq ht hl hfuel⟩
  | cons op ops ih =>
    obtain ⟨hop, hops⟩ := List.forall_mem_cons.mp hops
    obtain ⟨w₁, content₁, hstep, hw₁⟩ := hw.step op
    obtain ⟨w', hrun, ht', hiter⟩ := ih hw₁ (Pool.step_of_target_ne ht hop hstep)
      (Histories.step_of_target_ne hl hop) hops
    exact ⟨w', by simpa [Pool.run, hstep] using hrun, ht', hiter⟩

/-- In every reachable pool, `next` leads from the leftmost leaf of an object over exactly its own
leaves, each once and in tree order, to the null pointer. Iteration therefore ends after `size_`
pairs with increasing keys, the pairs that `find` knows; no leaf is shared with another object, and
operations on the others do not change what iteration yields. -/
theorem leaf_chain_of_reachable (ops : List (Op Key Value)) :
    ∃ w, Pool.initial.run ops = some w ∧ ∀ i t, w.trees[i]? = some t →
      ∃ leaves first entries, leavesOf w.heap t = some leaves ∧ leaves.Nodup ∧
        leftmostLeaf w.heap t = some first ∧
        followNext w.heap leaves.length first = some leaves ∧
        (∀ fuel, t.size ≤ fuel → iterate w.heap t fuel = some entries) ∧
        (entries.map Prod.fst).Pairwise (· < ·) ∧ entries.length = t.size ∧
        (∀ k v, (k, v) ∈ entries ↔ find w.heap t k = some (some v)) ∧
        (∀ j t' leaves', j ≠ i → w.trees[j]? = some t' → leavesOf w.heap t' = some leaves' →
          ∀ a ∈ leaves, a ∉ leaves') ∧
        ∀ later : List (Op Key Value), (∀ op ∈ later, op.target ≠ some i) →
          ∃ w', w.run later = some w' ∧ w'.trees[i]? = some t ∧
            ∀ fuel, t.size ≤ fuel → iterate w'.heap t fuel = some entries := by
  obtain ⟨w, content, hrun, hw⟩ := owned_run ops
  refine ⟨w, hrun, fun i t ht ↦ ?_⟩
  obtain ⟨l, hl⟩ := hw.history ht
  have hg := hw.holds i t ht
  refine ⟨_, _, replay l, leavesOf_spec hg, hg.nodup_leaves, leftmostLeaf_spec hg,
    followNext_spec hg, fun fuel hfuel ↦ hw.iterate_eq ht hl hfuel, keysSorted_replay l, ?_,
    fun k v ↦ ?_, fun j t' leaves' hj ht' hleaves a ha hin ↦ ?_,
    fun later hlater ↦ hw.run_of_target_ne ht hl hlater⟩
  · rw [hw.size_eq ht hl, length_replay, distinctKeys]
  · rw [mem_iff_lookup (keysSorted_replay l), lookup_replay, hw.find_eq ht hl, lastInserted,
      Option.some_inj]
  · rw [leavesOf_spec (hw.holds j t' ht'), Option.some_inj] at hleaves
    subst hleaves
    exact hw.disjoint i j hj.symm a ((content i).leaves_subset_addrs ha)
      ((content j).leaves_subset_addrs hin)

end WsServer.FBPTree
