import WsServer.FBPTree.Shape

/-!
# Descending to a leaf

`upper_bound` on the separators picks the one child whose entries can contain the key
(`exists_routed`): everything to its left is smaller, everything to its right is larger. `find_leaf`
therefore ends in the leaf that decides the lookup, and `find` computes the lookup in the ordered
entries of the tree.
-/

set_option autoImplicit false
set_option relaxedAutoImplicit false

namespace WsServer.FBPTree

open Foundations

variable {Key Value : Type} [LinearOrder Key] {d : ℕ} {least : ℕ}

/-! ### Separators -/

omit [LinearOrder Key] in
theorem InnerFormed.separator {Child : Type} {formed : Child → Prop} {minKey : Child → Option Key}
    {ks : List Key} {cs : List Child} (h : InnerFormed least formed minKey ks cs) {j : ℕ}
    (hj : j < ks.length) (hj' : j + 1 < cs.length) : minKey cs[j + 1] = some ks[j] := by
  have hsep := congrArg (fun l ↦ l[j]?) h.separators
  simp only [List.getElem?_map, List.getElem?_tail, List.getElem?_eq_getElem hj,
    List.getElem?_eq_getElem hj', Option.map_some, Option.some.injEq] at hsep
  exact hsep.symm

theorem head_le_of_keysSorted {l : List (Key × Value)} (hl : KeysSorted l) {m : Key}
    (hm : l.head?.map Prod.fst = some m) : ∀ e ∈ l, m ≤ e.1 := by
  cases l with
  | nil => simp at hm
  | cons x l =>
    obtain rfl : x.1 = m := by simpa using hm
    intro e he
    rcases List.mem_cons.mp he with rfl | he
    · exact le_rfl
    · exact ((keysSorted_cons.mp hl).1 e he).le

theorem minKey_le {t : Tree Key Value d} (ht : KeysSorted t.entries) {m : Key}
    (hm : t.minKey = some m) : ∀ e ∈ t.entries, m ≤ e.1 :=
  head_le_of_keysSorted ht hm

theorem keysSorted_flatMap {cs : List (Tree Key Value d)} :
    KeysSorted (cs.flatMap Tree.entries) ↔ (∀ c ∈ cs, KeysSorted c.entries) ∧
      cs.Pairwise fun c c' ↦ ∀ e ∈ c.entries, ∀ e' ∈ c'.entries, e.1 < e'.1 := by
  simp only [KeysSorted, List.pairwise_map, List.pairwise_flatMap]

/-- The separators of a sorted tree are strictly increasing. -/
theorem separators_sorted {a : ℕ} {ks : List Key} {cs : List (Tree Key Value d)}
    (hwf : WellFormed least (Tree.inner a ks cs))
    (hsorted : KeysSorted (Tree.inner a ks cs).entries) : ks.Pairwise (· < ·) := by
  rw [wellFormed_inner] at hwf
  rw [Tree.entries_inner] at hsorted
  have harity := hwf.arity
  have hpair := (keysSorted_flatMap.mp hsorted).2
  rw [List.pairwise_iff_getElem] at hpair ⊢
  intro i j hi hj hij
  obtain ⟨e, he, hmin⟩ := minKey_eq_some ((hwf.children_formed cs[i + 1]
    (List.getElem_mem (by omega))).entries_ne_nil (by decide))
  obtain ⟨e', he', hmin'⟩ := minKey_eq_some ((hwf.children_formed cs[j + 1]
    (List.getElem_mem (by omega))).entries_ne_nil (by decide))
  rw [hwf.separator hi (by omega)] at hmin
  rw [hwf.separator hj (by omega)] at hmin'
  have hlt := hpair (i + 1) (j + 1) (by omega) (by omega) (by omega) e he e' he'
  rwa [← Option.some.inj hmin, ← Option.some.inj hmin'] at hlt

/-! ### The child a key belongs to -/

/-- Among the children `cs₁ ++ c :: cs₂`, the key belongs to `c`. -/
structure Routed (k : Key) (cs₁ : List (Tree Key Value d)) (c : Tree Key Value d)
    (cs₂ : List (Tree Key Value d)) : Prop where
  below : ∀ e ∈ cs₁.flatMap Tree.entries, e.1 < k
  above : ∀ e ∈ cs₂.flatMap Tree.entries, k < e.1
  low : cs₁ ≠ [] → ∃ m, c.minKey = some m ∧ m ≤ k

theorem Routed.lookup_eq {k : Key} {cs₁ cs₂ : List (Tree Key Value d)} {c : Tree Key Value d}
    (h : Routed k cs₁ c cs₂) :
    ((cs₁ ++ c :: cs₂).flatMap Tree.entries).lookup k = c.entries.lookup k := by
  simp only [List.flatMap_append, List.flatMap_cons]
  rw [lookup_append_of_lt h.below, lookup_append_of_gt h.above]

theorem Routed.upsert_eq {k : Key} {cs₁ cs₂ : List (Tree Key Value d)} {c : Tree Key Value d}
    (h : Routed k cs₁ c cs₂) (v : Value) :
    upsert k v ((cs₁ ++ c :: cs₂).flatMap Tree.entries) =
      cs₁.flatMap Tree.entries ++ (upsert k v c.entries ++ cs₂.flatMap Tree.entries) := by
  simp only [List.flatMap_append, List.flatMap_cons]
  rw [upsert_append_of_lt v _ h.below, upsert_append_of_gt v _ h.above]

/-- A child whose smallest key is at most `k`, with larger keys from the next child on. -/
theorem routed_of_bounds {k : Key} {cs₁ cs₂ : List (Tree Key Value d)} {c : Tree Key Value d}
    (hsorted : KeysSorted ((cs₁ ++ c :: cs₂).flatMap Tree.entries)) (hc : c.entries ≠ [])
    (hlow : cs₁ ≠ [] → ∃ m, c.minKey = some m ∧ m ≤ k)
    (hhigh : ∀ c' ∈ cs₂.head?, c'.entries ≠ [] ∧ ∀ m, c'.minKey = some m → k < m) :
    Routed k cs₁ c cs₂ := by
  simp only [List.flatMap_append, List.flatMap_cons] at hsorted
  obtain ⟨-, hrest, hcross⟩ := keysSorted_append.mp hsorted
  refine ⟨fun e he ↦ ?_, fun e he ↦ ?_, hlow⟩
  · have hne : cs₁ ≠ [] := by
      rintro rfl
      simp at he
    obtain ⟨m, hm, hle⟩ := hlow hne
    obtain ⟨x, hx, hmin⟩ := minKey_eq_some hc
    have hxm : x.1 = m := Option.some.inj (hmin.symm.trans hm)
    have hlt := hcross e he x (List.mem_append_left _ hx)
    exact hlt.trans_le (hxm ▸ hle)
  · cases cs₂ with
    | nil => simp at he
    | cons c' cs₂ =>
      obtain ⟨hne, hgt⟩ := hhigh c' (by simp)
      obtain ⟨x, -, hmin⟩ := minKey_eq_some hne
      have hhead : ((c' :: cs₂).flatMap Tree.entries).head?.map Prod.fst = some x.1 := by
        rw [List.flatMap_cons, List.head?_append_of_ne_nil _ hne]
        exact hmin
      exact (hgt _ hmin).trans_le
        (head_le_of_keysSorted (keysSorted_append.mp hrest).2.1 hhead e he)

/-- `upper_bound` on the separators finds the child of the key, within range. -/
theorem exists_routed {a : ℕ} {ks : List Key} {cs : List (Tree Key Value d)}
    (hwf : WellFormed least (Tree.inner a ks cs))
    (hsorted : KeysSorted (Tree.inner a ks cs).entries) (k : Key) :
    ∃ cs₁ c cs₂, cs = cs₁ ++ c :: cs₂ ∧ cs₁.length = ub ks k ∧ Routed k cs₁ c cs₂ := by
  have hks := separators_sorted hwf hsorted
  rw [wellFormed_inner] at hwf
  have harity := hwf.arity
  have hub : ub ks k ≤ ks.length := upperBound_le ks k
  have hi : ub ks k < cs.length := by omega
  have hsplit : cs = cs.take (ub ks k) ++ cs[ub ks k] :: cs.drop (ub ks k + 1) := by simp
  refine ⟨cs.take (ub ks k), cs[ub ks k], cs.drop (ub ks k + 1), hsplit, ?_, ?_⟩
  · rw [List.length_take]
    omega
  · have hformed (j : ℕ) (hj : j < cs.length) : (cs[j]).entries ≠ [] :=
      (hwf.children_formed _ (List.getElem_mem hj)).entries_ne_nil (by decide)
    refine routed_of_bounds ?_ (hformed _ hi) (fun hne ↦ ?_) (fun c' hc' ↦ ?_)
    · rw [← hsplit]
      exact hsorted
    · have hpos : 0 < ub ks k := by
        by_contra hzero
        exact hne (by simp [Nat.eq_zero_of_not_pos hzero])
      obtain ⟨j, hj⟩ : ∃ j, ub ks k = j + 1 := ⟨ub ks k - 1, by omega⟩
      have hlt : j < upperBound ks k := by
        rw [show upperBound ks k = j + 1 from hj]
        exact Nat.lt_succ_self j
      refine ⟨ks[j], ?_, getElem_le_of_lt_upperBound hlt _⟩
      simp only [hj]
      exact hwf.separator (by omega) (by omega)
    · rw [List.head?_drop, Option.mem_def, List.getElem?_eq_some_iff] at hc'
      obtain ⟨hlen, rfl⟩ := hc'
      refine ⟨hformed _ hlen, fun m hm ↦ ?_⟩
      rw [hwf.separator (by omega) hlen] at hm
      rw [← Option.some.inj hm]
      exact lt_getElem_of_upperBound_le hks le_rfl _

/-! ### The searches -/

/-- `find_leaf` ends in a leaf of the tree, and that leaf alone decides the lookup. -/
theorem findLeafFrom_eq {h : Memory Key Value} {t : Tree Key Value d} {next : Option ℕ}
    (ht : Represents h t next) (hwf : WellFormed least t) (hsorted : KeysSorted t.entries) (k : Key)
    {fuel : ℕ} (hfuel : d < fuel) :
    ∃ a l next', findLeafFrom h k fuel t.addr = some a ∧
      h.read a = some (.leaf (keysOf l) (l.map Prod.snd) next') ∧ KeysSorted l ∧
      l.lookup k = t.entries.lookup k := by
  induction d generalizing next least fuel with
  | zero =>
    obtain ⟨a, l, rfl⟩ := t.eq_leaf
    obtain ⟨fuel, rfl⟩ := Nat.exists_eq_add_one_of_ne_zero (by omega : fuel ≠ 0)
    rw [represents_leaf] at ht
    exact ⟨a, l, next, by simp [findLeafFrom, ht], ht, hsorted, rfl⟩
  | succ d ih =>
    obtain ⟨a, ks, cs, rfl⟩ := t.eq_inner
    obtain ⟨fuel, rfl⟩ := Nat.exists_eq_add_one_of_ne_zero (by omega : fuel ≠ 0)
    obtain ⟨cs₁, c, cs₂, rfl, hidx, hrouted⟩ := exists_routed hwf hsorted k
    rw [represents_inner] at ht
    rw [wellFormed_inner] at hwf
    have hc : c ∈ cs₁ ++ c :: cs₂ := by simp
    obtain ⟨next', hrep⟩ := ht.2.exists_of_mem hc
    obtain ⟨x, l, nx, hfind, hread, hl, hlookup⟩ := ih hrep (hwf.children_formed c hc)
      ((keysSorted_flatMap.mp hsorted).1 c hc) (by omega : d < fuel)
    refine ⟨x, l, nx, ?_, hread, hl, ?_⟩
    · have hchild :
          (cs₁.map Tree.addr ++ c.addr :: cs₂.map Tree.addr)[ub ks k]? = some c.addr := by
        simp [← hidx]
      simp [findLeafFrom, ht.1, hchild, hfind]
    · rw [hlookup, Tree.entries_inner, hrouted.lookup_eq]

/-- A tree object that owns a represented, well-formed and sorted tree finds what is in it. -/
theorem find_eq_lookup {h : Memory Key Value} {t : Tree Key Value d} {next : Option ℕ}
    (ht : Represents h t next) (hwf : WellFormed least t) (hsorted : KeysSorted t.entries)
    (hdepth : d < h.bound) {obj : FBPlusTree} (hroot : obj.root = some t.addr) (k : Key) :
    find h obj k = some (t.entries.lookup k) := by
  obtain ⟨a, l, next', hfind, hread, hl, hlookup⟩ := findLeafFrom_eq ht hwf hsorted k hdepth
  simp only [find, findLeaf, hroot, hfind, Option.map_some, Option.bind_eq_bind, Option.bind_some,
    hread]
  split_ifs with hfound
  · obtain ⟨heq, -⟩ := found_at_lowerBound hl hfound
    have hsome : ∃ v, l.lookup k = some v := by
      obtain ⟨hi, -⟩ := List.getElem?_eq_some_iff.mp hfound
      rw [heq]
      exact ⟨_, List.getElem?_eq_getElem (by simpa [lb] using hi)⟩
    obtain ⟨v, hv⟩ := hsome
    rw [← hlookup, hv, show (l.map Prod.snd)[lb (keysOf l) k]? = some v from heq.symm.trans hv]
    rfl
  · rw [← hlookup, lookup_eq_none_of_notMem (absent_at_lowerBound hl hfound).1]

omit [LinearOrder Key] in
/-- `leftmost_leaf` ends in the first leaf. -/
theorem leftmostFrom_eq {h : Memory Key Value} {t : Tree Key Value d} {next : Option ℕ}
    (ht : Represents h t next) (hwf : WellFormed least t) {fuel : ℕ} (hfuel : d < fuel) :
    leftmostFrom h fuel t.addr = t.leaves.head? := by
  induction d generalizing next least fuel with
  | zero =>
    obtain ⟨a, l, rfl⟩ := t.eq_leaf
    obtain ⟨fuel, rfl⟩ := Nat.exists_eq_add_one_of_ne_zero (by omega : fuel ≠ 0)
    rw [represents_leaf] at ht
    simp [leftmostFrom, ht]
  | succ d ih =>
    obtain ⟨a, ks, cs, rfl⟩ := t.eq_inner
    obtain ⟨fuel, rfl⟩ := Nat.exists_eq_add_one_of_ne_zero (by omega : fuel ≠ 0)
    rw [represents_inner] at ht
    rw [wellFormed_inner] at hwf
    cases cs with
    | nil => simpa using hwf.arity
    | cons c cs =>
      have hformed := hwf.children_formed c List.mem_cons_self
      have hchild := ih ht.2.1 hformed (by omega : d < fuel)
      simp only [leftmostFrom, ht.1, Option.bind_eq_bind, Option.bind_some, List.map_cons,
        List.head?_cons, hchild, Tree.leaves_inner, List.flatMap_cons, List.head?_append,
        Tree.addr_inner]
      cases hleaves : c.leaves with
      | nil => exact absurd hleaves hformed.leaves_ne_nil
      | cons x l => simp

end WsServer.FBPTree
