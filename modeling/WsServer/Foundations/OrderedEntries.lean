import Mathlib.Data.List.Sort
import Mathlib.Data.List.Pairwise
import Mathlib.Order.Lattice
import Mathlib.Tactic

/-!
Finite maps kept as strictly ordered lists of entries. `lowerBound` and `upperBound` are the two
partition points of a sorted vector; `upsert` is insertion with overwriting. Both the lookup and
the insertion act locally: entries known to lie entirely below or above the key are passed over
(`lookup_append_of_lt`, `upsert_append_of_lt` and their mirror images), which is what lets a search
structure descend into one child.
-/

set_option autoImplicit false
set_option relaxedAutoImplicit false

namespace WsServer.Foundations

variable {K V : Type*} [LinearOrder K]

/-! ### Partition points -/

/-- Index of the first element that is not less than `x`. -/
def lowerBound (v : List K) (x : K) : ℕ := v.findIdx fun y ↦ decide (x ≤ y)

/-- Index of the first element that is greater than `x`. -/
def upperBound (v : List K) (x : K) : ℕ := v.findIdx fun y ↦ decide (x < y)

theorem lowerBound_le (v : List K) (x : K) : lowerBound v x ≤ v.length :=
  List.findIdx_le_length

theorem upperBound_le (v : List K) (x : K) : upperBound v x ≤ v.length :=
  List.findIdx_le_length

theorem getElem_lt_of_lt_lowerBound {v : List K} {x : K} {i : ℕ} (hi : i < lowerBound v x)
    (hlen : i < v.length) : v[i] < x := by
  have h := List.not_of_lt_findIdx hi
  simpa using h

theorem getElem_le_of_lt_upperBound {v : List K} {x : K} {i : ℕ} (hi : i < upperBound v x)
    (hlen : i < v.length) : v[i] ≤ x := by
  have h := List.not_of_lt_findIdx hi
  simpa using h

theorem le_getElem_of_lowerBound_le {v : List K} (hv : v.Pairwise (· < ·)) {x : K} {i : ℕ}
    (hi : lowerBound v x ≤ i) (hlen : i < v.length) : x ≤ v[i] := by
  have hfirst : x ≤ v[lowerBound v x] := by
    have h := @List.findIdx_getElem _ (fun y ↦ decide (x ≤ y)) v (lt_of_le_of_lt hi hlen)
    simpa [lowerBound] using h
  rcases hi.eq_or_lt with heq | hlt
  · simpa [heq] using hfirst
  · exact hfirst.trans (List.pairwise_iff_getElem.mp hv _ _ _ hlen hlt).le

theorem lt_getElem_of_upperBound_le {v : List K} (hv : v.Pairwise (· < ·)) {x : K} {i : ℕ}
    (hi : upperBound v x ≤ i) (hlen : i < v.length) : x < v[i] := by
  have hfirst : x < v[upperBound v x] := by
    have h := @List.findIdx_getElem _ (fun y ↦ decide (x < y)) v (lt_of_le_of_lt hi hlen)
    simpa [upperBound] using h
  rcases hi.eq_or_lt with heq | hlt
  · simpa [heq] using hfirst
  · exact hfirst.trans (List.pairwise_iff_getElem.mp hv _ _ _ hlen hlt)

/-! ### Ordered entries -/

/-- The keys of the entries, in order. -/
abbrev keysOf (l : List (K × V)) : List K := l.map Prod.fst

/-- Strictly increasing keys. -/
def KeysSorted (l : List (K × V)) : Prop := (keysOf l).Pairwise (· < ·)

/-- Insertion that overwrites the value of a present key. -/
def upsert (k : K) (v : V) : List (K × V) → List (K × V)
  | [] => [(k, v)]
  | e :: l => if e.1 < k then e :: upsert k v l
    else if k < e.1 then (k, v) :: e :: l else (k, v) :: l

theorem keysSorted_cons {e : K × V} {l : List (K × V)} :
    KeysSorted (e :: l) ↔ (∀ x ∈ l, e.1 < x.1) ∧ KeysSorted l := by
  simp [KeysSorted]

theorem keysSorted_append {l l' : List (K × V)} :
    KeysSorted (l ++ l') ↔
      KeysSorted l ∧ KeysSorted l' ∧ ∀ e ∈ l, ∀ e' ∈ l', e.1 < e'.1 := by
  simp [KeysSorted, List.pairwise_append]

theorem KeysSorted.sublist {l l' : List (K × V)} (hl : KeysSorted l) (hsub : l'.Sublist l) :
    KeysSorted l' :=
  List.Pairwise.sublist (hsub.map Prod.fst) hl

theorem lookup_append_of_lt {k : K} {l l' : List (K × V)} (hl : ∀ e ∈ l, e.1 < k) :
    (l ++ l').lookup k = l'.lookup k := by
  have hnone : l.lookup k = none := by
    rw [List.lookup_eq_none_iff]
    intro e he
    simpa using (hl e he).ne'
  rw [List.lookup_append, hnone, Option.none_or]

theorem lookup_append_of_gt {k : K} {l l' : List (K × V)} (hl' : ∀ e ∈ l', k < e.1) :
    (l ++ l').lookup k = l.lookup k := by
  have hnone : l'.lookup k = none := by
    rw [List.lookup_eq_none_iff]
    intro e he
    simpa using (hl' e he).ne
  rw [List.lookup_append, hnone, Option.or_none]

theorem upsert_append_of_lt {k : K} (v : V) {l : List (K × V)} (l' : List (K × V))
    (hl : ∀ e ∈ l, e.1 < k) : upsert k v (l ++ l') = l ++ upsert k v l' := by
  induction l with
  | nil => rfl
  | cons e l ih =>
    have he : e.1 < k := hl e List.mem_cons_self
    have hrest := ih fun x hx ↦ hl x (List.mem_cons_of_mem _ hx)
    simp [upsert, he, hrest]

theorem upsert_append_of_gt {k : K} (v : V) (l : List (K × V)) {l' : List (K × V)}
    (hl' : ∀ e ∈ l', k < e.1) : upsert k v (l ++ l') = upsert k v l ++ l' := by
  induction l with
  | nil =>
    cases l' with
    | nil => rfl
    | cons e l' =>
      have he : k < e.1 := hl' e List.mem_cons_self
      simp [upsert, he, he.le.not_gt]
  | cons e l ih =>
    simp only [List.cons_append, upsert]
    split_ifs <;> simp [ih]

theorem lookup_upsert (k k' : K) (v : V) (l : List (K × V)) :
    (upsert k v l).lookup k' = if k' = k then some v else l.lookup k' := by
  induction l with
  | nil =>
    by_cases hk : k' = k
    · simp [upsert, hk]
    · have hbeq : (k' == k) = false := beq_eq_false_iff_ne.mpr hk
      simp [upsert, List.lookup_cons, hk, hbeq]
  | cons e l ih =>
    obtain ⟨ek, ev⟩ := e
    simp only [upsert]
    split_ifs with hlt hgt hk hk <;> simp only [List.lookup_cons, ih] <;> grind

theorem mem_keysOf_upsert {k x : K} {v : V} {l : List (K × V)} :
    x ∈ keysOf (upsert k v l) ↔ x = k ∨ x ∈ keysOf l := by
  induction l with
  | nil => simp [upsert]
  | cons e l ih =>
    simp only [upsert]
    split_ifs with hlt hgt
    · simp only [List.map_cons, List.mem_cons, ih]
      tauto
    · simp
    · have he : e.1 = k := le_antisymm (not_lt.mp hgt) (not_lt.mp hlt)
      simp [he]

theorem KeysSorted.upsert {k : K} {v : V} {l : List (K × V)} (hl : KeysSorted l) :
    KeysSorted (upsert k v l) := by
  induction l with
  | nil => simp [Foundations.upsert, KeysSorted]
  | cons e l ih =>
    obtain ⟨hhead, htail⟩ := keysSorted_cons.mp hl
    simp only [Foundations.upsert]
    split_ifs with hlt hgt
    · refine keysSorted_cons.mpr ⟨fun x hx ↦ ?_, ih htail⟩
      rcases mem_keysOf_upsert.mp (List.mem_map_of_mem hx) with hk | hk
      · rwa [hk]
      · obtain ⟨y, hy, heq⟩ := List.mem_map.mp hk
        rw [← heq]
        exact hhead y hy
    · refine keysSorted_cons.mpr ⟨fun x hx ↦ ?_, hl⟩
      rcases List.mem_cons.mp hx with rfl | hx
      · exact hgt
      · exact hgt.trans (hhead x hx)
    · have he : e.1 = k := le_antisymm (not_lt.mp hgt) (not_lt.mp hlt)
      exact keysSorted_cons.mpr ⟨fun x hx ↦ he ▸ hhead x hx, htail⟩

theorem mem_iff_lookup {k : K} {v : V} {l : List (K × V)} (hl : KeysSorted l) :
    (k, v) ∈ l ↔ l.lookup k = some v := by
  induction l with
  | nil => simp
  | cons e l ih =>
    obtain ⟨hhead, htail⟩ := keysSorted_cons.mp hl
    obtain ⟨ek, ev⟩ := e
    rw [List.lookup_cons, List.mem_cons, ih htail]
    by_cases hk : k = ek
    · subst hk
      have habsent : l.lookup k = none := by
        rw [List.lookup_eq_none_iff]
        intro x hx
        simpa using (hhead x hx).ne
      simp [habsent, eq_comm]
    · have hbeq : (k == ek) = false := beq_eq_false_iff_ne.mpr hk
      simp [hk, hbeq]

/-! ### The entry at a partition point -/

theorem keysSorted_split {l : List (K × V)} (hl : KeysSorted l) (k : K) :
    (∀ e ∈ l.take (lowerBound (keysOf l) k), e.1 < k) ∧
      ∀ e ∈ l.drop (lowerBound (keysOf l) k), k ≤ e.1 := by
  constructor
  · intro e he
    obtain ⟨i, hi, rfl⟩ := List.mem_iff_getElem.mp he
    have hlt : i < lowerBound (keysOf l) k := by
      rw [List.length_take] at hi
      omega
    have hlen : i < (keysOf l).length := by
      rw [List.length_take] at hi
      simp only [List.length_map]
      omega
    simpa using getElem_lt_of_lt_lowerBound hlt hlen
  · intro e he
    obtain ⟨i, hi, rfl⟩ := List.mem_iff_getElem.mp he
    have hlen : lowerBound (keysOf l) k + i < (keysOf l).length := by
      rw [List.length_drop] at hi
      simp only [List.length_map]
      omega
    simpa using le_getElem_of_lowerBound_le hl (Nat.le_add_right _ i) hlen

/-- A key found at its lower bound: its entry there is the one looked up and the one overwritten. -/
theorem found_at_lowerBound {l : List (K × V)} (hl : KeysSorted l) {k : K}
    (hfound : (keysOf l)[lowerBound (keysOf l) k]? = some k) :
    l.lookup k = (l.map Prod.snd)[lowerBound (keysOf l) k]? ∧
      ∀ v, upsert k v l = l.set (lowerBound (keysOf l) k) (k, v) := by
  obtain ⟨hbelow, -⟩ := keysSorted_split hl k
  obtain ⟨hi, hkey⟩ := List.getElem?_eq_some_iff.mp hfound
  generalize lowerBound (keysOf l) k = i at *
  have hi' : i < l.length := by simpa using hi
  have hkey' : (l[i]).1 = k := by simpa using hkey
  have hsplit : l = l.take i ++ l[i] :: l.drop (i + 1) := by simp
  constructor
  · calc l.lookup k = (l.take i ++ l[i] :: l.drop (i + 1)).lookup k := by rw [← hsplit]
      _ = (l[i] :: l.drop (i + 1)).lookup k := lookup_append_of_lt hbelow
      _ = some (l[i]).2 := by
        rw [← hkey']
        exact List.lookup_cons_self
      _ = (l.map Prod.snd)[i]? := by simp [hi']
  · intro v
    calc upsert k v l = upsert k v (l.take i ++ l[i] :: l.drop (i + 1)) := by rw [← hsplit]
      _ = l.take i ++ upsert k v (l[i] :: l.drop (i + 1)) := upsert_append_of_lt v _ hbelow
      _ = l.take i ++ (k, v) :: l.drop (i + 1) := by simp [upsert, hkey']
      _ = l.set i (k, v) := by rw [List.set_eq_take_append_cons_drop, if_pos hi']

/-- A key not found at its lower bound is absent, and inserting it there is the insertion. -/
theorem absent_at_lowerBound {l : List (K × V)} (hl : KeysSorted l) {k : K}
    (habsent : (keysOf l)[lowerBound (keysOf l) k]? ≠ some k) :
    k ∉ keysOf l ∧ ∀ v, upsert k v l =
      l.take (lowerBound (keysOf l) k) ++ (k, v) :: l.drop (lowerBound (keysOf l) k) := by
  obtain ⟨hbelow, habove⟩ := keysSorted_split hl k
  have hle : lowerBound (keysOf l) k ≤ l.length := by simpa using lowerBound_le (keysOf l) k
  generalize lowerBound (keysOf l) k = i at *
  have hgt : ∀ e ∈ l.drop i, k < e.1 := by
    intro e he
    obtain ⟨hhead, htail⟩ | hnil : (∃ hi : i < l.length, l.drop i = l[i] :: l.drop (i + 1)) ∨
        l.drop i = [] := by
      by_cases hi : i < l.length
      · exact Or.inl ⟨hi, List.drop_eq_getElem_cons hi⟩
      · exact Or.inr (List.drop_eq_nil_of_le (not_lt.mp hi))
    · have hne : (l[i]).1 ≠ k := fun h ↦ habsent (by simp [hhead, h])
      have hfirst : k < (l[i]).1 :=
        lt_of_le_of_ne (habove _ (htail ▸ List.mem_cons_self)) hne.symm
      rw [htail] at he
      rcases List.mem_cons.mp he with rfl | he
      · exact hfirst
      · have hsorted := hl.sublist (List.drop_sublist i l)
        rw [htail] at hsorted
        exact hfirst.trans ((keysSorted_cons.mp hsorted).1 e he)
    · simp [hnil] at he
  constructor
  · intro hmem
    obtain ⟨e, he, rfl⟩ := List.mem_map.mp hmem
    rw [← List.take_append_drop i l] at he
    rcases List.mem_append.mp he with he | he
    · exact lt_irrefl _ (hbelow e he)
    · exact lt_irrefl _ (hgt e he)
  · intro v
    have hnil : upsert k v (l.drop i) = (k, v) :: l.drop i :=
      upsert_append_of_gt v [] hgt
    calc upsert k v l = upsert k v (l.take i ++ l.drop i) := by rw [List.take_append_drop]
      _ = l.take i ++ (k, v) :: l.drop i := by rw [upsert_append_of_lt v _ hbelow, hnil]

theorem lookup_eq_none_of_notMem {k : K} {l : List (K × V)} (hk : k ∉ keysOf l) :
    l.lookup k = none := by
  rw [List.lookup_eq_none_iff]
  intro e he
  have hne : k ≠ e.1 := fun h ↦ hk (h ▸ List.mem_map_of_mem he)
  simpa using hne

/-! ### Replaying a sequence of insertions -/

/-- The entries left by inserting the pairs of `l` one after the other. -/
def replay (l : List (K × V)) : List (K × V) := l.foldl (fun m e ↦ upsert e.1 e.2 m) []

theorem replay_append_singleton (l : List (K × V)) (e : K × V) :
    replay (l ++ [e]) = upsert e.1 e.2 (replay l) := by
  simp [replay]

theorem keysSorted_replay (l : List (K × V)) : KeysSorted (replay l) := by
  induction l using List.reverseRecOn with
  | nil => exact List.Pairwise.nil
  | append_singleton l e ih =>
    rw [replay_append_singleton]
    exact ih.upsert

/-- The last insertion of a key decides its value. -/
theorem lookup_replay (l : List (K × V)) (k : K) : (replay l).lookup k = l.reverse.lookup k := by
  induction l using List.reverseRecOn with
  | nil => rfl
  | append_singleton l e ih =>
    rw [replay_append_singleton, lookup_upsert, ih, List.reverse_append, List.reverse_singleton,
      List.singleton_append, List.lookup_cons]
    by_cases hk : k = e.1
    · simp [hk]
    · have hbeq : (k == e.1) = false := beq_eq_false_iff_ne.mpr hk
      simp [hk, hbeq]

theorem mem_keysOf_replay {l : List (K × V)} {k : K} : k ∈ keysOf (replay l) ↔ k ∈ keysOf l := by
  induction l using List.reverseRecOn with
  | nil => rfl
  | append_singleton l e ih =>
    rw [replay_append_singleton, mem_keysOf_upsert, ih]
    simp [or_comm]

theorem length_replay (l : List (K × V)) : (replay l).length = (keysOf l).toFinset.card := by
  have hnodup : (keysOf (replay l)).Nodup := (keysSorted_replay l).imp fun h ↦ h.ne
  have hset : (keysOf l).toFinset = (keysOf (replay l)).toFinset := by
    ext k
    rw [List.mem_toFinset, List.mem_toFinset, mem_keysOf_replay]
  rw [hset, List.toFinset_card_of_nodup hnodup, List.length_map]

end WsServer.Foundations
