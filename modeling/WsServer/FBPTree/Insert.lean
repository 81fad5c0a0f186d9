import WsServer.FBPTree.Split

/-!
# Insertion below a node that is not full

`insert_non_full` descends to the leaf of the key and splits every full child on the way, so that
each node it recurses into has room for one more separator. `Inserted` collects what the caller of
one level needs to know about the level below; `inserted_in_child` lifts it from a child to its
parent and `Inserted.after_split` puts a split in front. `insertNonFull_spec` is the induction on
the height.
-/

set_option autoImplicit false
set_option relaxedAutoImplicit false

namespace WsServer.FBPTree

open Foundations

variable {Key Value : Type} [LinearOrder Key] {d : ℕ} {least : ℕ}

/-- Inserting `k` below the top node of `t` turned it into `t'`: the same place in its parent and in
the chain of leaves, the entries with `k` upserted, and no foreign cell touched or adopted. -/
structure Inserted (h h' : Memory Key Value) (k : Key) (v : Value) (t t' : Tree Key Value d)
    (next : Option ℕ) : Prop where
  represents : Represents h' t' next
  keeps : h.Keeps h' {a | a ∈ t.addrs}
  addr_eq : t'.addr = t.addr
  owned : ∀ a ∈ t'.addrs, a ∈ t.addrs ∨ h.bound ≤ a
  nodup : t'.addrs.Nodup
  head_leaves : t'.leaves.head? = t.leaves.head?
  entries_eq : t'.entries = upsert k v t.entries

theorem minKey_upsert {k m : Key} {v : Value} {l : List (Key × Value)}
    (hm : l.head?.map Prod.fst = some m) (hle : m ≤ k) :
    (upsert k v l).head?.map Prod.fst = some m := by
  cases l with
  | nil => simp at hm
  | cons e l =>
    obtain rfl : e.1 = m := by simpa using hm
    simp only [upsert]
    split_ifs with hlt hgt
    · rfl
    · exact absurd hle hgt.not_ge
    · simpa using le_antisymm (not_lt.mp hlt) hle

/-! ### At a leaf -/

/-- The leaf case: overwriting the value at the lower bound, or inserting there. -/
theorem insertNonFull_leaf {h : Memory Key Value} {t : Tree Key Value 0} {next : Option ℕ}
    (ht : Represents h t next) (hsorted : KeysSorted t.entries) (hwf : WellFormed least t)
    (hroom : t.width < maxKeys) (k : Key) (v : Value) (fuel size : ℕ) :
    ∃ h' size' t', insertNonFull k v (fuel + 1) h size t.addr = some (h', size') ∧
      size' + t.entries.length = size + t'.entries.length ∧
      Inserted h h' k v t t' next ∧ WellFormed least t' ∧
      h.Accounts h' {a | a ∈ t.addrs} {a | a ∈ t'.addrs} := by
  obtain ⟨a, l, rfl⟩ := t.eq_leaf
  rw [represents_leaf] at ht
  have ha := Heap.lt_bound_of_read ht
  rw [wellFormed_leaf] at hwf
  simp only [Tree.width_leaf] at hroom
  have hinserted (l' : List (Key × Value)) (hl' : upsert k v l = l') :
      Inserted h (h.set a (some (.leaf (keysOf l') (l'.map Prod.snd) next))) k v
        (Tree.leaf a l) (Tree.leaf a l') next := by
    refine ⟨?_, Heap.keeps_set ha _ (by simp), rfl, fun x hx ↦ Or.inl hx, by simp, rfl, hl'.symm⟩
    rw [represents_leaf, Heap.read_set ha, if_pos rfl]
  have hlive (node : Node Key Value) :
      h.Accounts (h.set a (some node)) {x | x ∈ [a]} {x | x ∈ [a]} :=
    .of_live_eq (Heap.live_set_some ht node) fun x hx ↦ by
      rw [List.mem_singleton.mp hx]
      exact Heap.mem_live_of_read ht
  have hlb : lb (keysOf l) k ≤ l.length := by simpa [lb] using lowerBound_le (keysOf l) k
  by_cases hfound : (keysOf l)[lb (keysOf l) k]? = some k
  · obtain ⟨-, hupsert⟩ := found_at_lowerBound hsorted hfound
    obtain ⟨hi, hkey⟩ := List.getElem?_eq_some_iff.mp hfound
    have hset : keysOf (l.set (lb (keysOf l) k) (k, v)) = keysOf l := by
      have hself := List.set_getElem_self hi
      rw [hkey] at hself
      rw [keysOf, List.map_set]
      exact hself
    refine ⟨_, size, Tree.leaf a (l.set (lb (keysOf l) k) (k, v)), ?_, by simp,
      hinserted _ (hupsert v), ?_, hlive _⟩
    · have hlen : lb (keysOf l) k < (l.map Prod.snd).length := by simpa using hi
      simp only [insertNonFull, Tree.addr_leaf, ht, Option.bind_eq_bind, Option.bind_some,
        if_pos hfound, setAt?, if_pos hlen, Heap.write_eq ht, hset]
      simp
    · rw [wellFormed_leaf, List.length_set]
      exact hwf
  · obtain ⟨-, hupsert⟩ := absent_at_lowerBound hsorted hfound
    have hlen : (l.take (lb (keysOf l) k) ++ (k, v) :: l.drop (lb (keysOf l) k)).length =
        l.length + 1 := by
      simp only [List.length_append, List.length_cons, List.length_take, List.length_drop]
      omega
    refine ⟨_, size + 1, Tree.leaf a (l.take (lb (keysOf l) k) ++ (k, v) ::
      l.drop (lb (keysOf l) k)), ?_, ?_, hinserted _ (hupsert v), ?_, hlive _⟩
    · have hk : lb (keysOf l) k ≤ (keysOf l).length := by simpa using hlb
      have hv : lb (keysOf l) k ≤ (l.map Prod.snd).length := by simpa using hlb
      simp only [insertNonFull, Tree.addr_leaf, ht, Option.bind_eq_bind, Option.bind_some,
        if_neg hfound, insertAt?, if_pos hk, if_pos hv, Heap.write_eq ht]
      simp [keysOf]
    · rw [Tree.entries_leaf, Tree.entries_leaf, hlen]
      omega
    · rw [wellFormed_leaf, hlen]
      omega

/-! ### At an inner node -/

section Inner

variable {h h' : Memory Key Value} {k : Key} {v : Value} {a : ℕ} {ks : List Key}
  {cs₁ cs₂ : List (Tree Key Value d)} {c c' : Tree Key Value d} {next : Option ℕ}

/-- An insertion below one child is an insertion below the parent. -/
theorem inserted_in_child (ht : Represents h (Tree.inner a ks (cs₁ ++ c :: cs₂)) next)
    (hnodup : (Tree.inner a ks (cs₁ ++ c :: cs₂)).addrs.Nodup) (hrouted : Routed k cs₁ c cs₂)
    (hc : Inserted h h' k v c c' ((cs₂.flatMap Tree.leaves).head?.or next)) :
    Inserted h h' k v (Tree.inner a ks (cs₁ ++ c :: cs₂)) (Tree.inner a ks (cs₁ ++ c' :: cs₂))
      next := by
  have hlt := ht.lt_bound
  rw [represents_inner, chainedAll_append] at ht
  obtain ⟨hread, hbefore, -, hafter⟩ := ht
  simp only [Tree.addrs_inner, List.flatMap_append, List.flatMap_cons, List.nodup_cons,
    List.nodup_append, List.mem_append, not_or] at hnodup
  obtain ⟨⟨ha₁, hac, ha₂⟩, hnd₁, ⟨hndc, hnd₂, hc₂⟩, h₁⟩ := hnodup
  have ha : a < h.bound := Heap.lt_bound_of_read hread
  have hkept : ∀ x < h.bound, x ∉ c.addrs → h'.read x = h.read x := hc.keeps.read_eq
  -- the child's new nodes are its old ones and fresh ones, so they meet nobody else's
  have hfresh : ∀ x < h.bound, x ∉ c.addrs → x ∉ c'.addrs := fun x hx hout hin ↦ by
    rcases hc.owned x hin with hold | hnew
    · exact hout hold
    · omega
  have hlt₁ : ∀ y ∈ cs₁.flatMap Tree.addrs, y < h.bound := fun y hy ↦ hlt y (by simp [hy])
  have hlt₂ : ∀ y ∈ cs₂.flatMap Tree.addrs, y < h.bound := fun y hy ↦ hlt y (by simp [hy])
  have hout₁ : ∀ y ∈ cs₁.flatMap Tree.addrs, y ∉ c.addrs := fun y hy hin ↦
    h₁ y hy y (Or.inl hin) rfl
  have hout₂ : ∀ y ∈ cs₂.flatMap Tree.addrs, y ∉ c.addrs := fun y hy hin ↦ hc₂ y hin y hy rfl
  have hleaves : ((c' :: cs₂).flatMap Tree.leaves).head? =
      ((c :: cs₂).flatMap Tree.leaves).head? := by
    simp [hc.head_leaves]
  refine ⟨?_, hc.keeps.mono fun x hx ↦ Tree.addrs_child_subset (by simp) hx, rfl, ?_, ?_, ?_, ?_⟩
  · rw [represents_inner, chainedAll_append, hleaves]
    refine ⟨?_, ?_, hc.represents, ?_⟩
    · rw [hkept a ha hac, hread]
      simp [hc.addr_eq]
    · exact hbefore.imp fun x hx nx hrep ↦ hrep.congr fun y hy ↦ by
        have hy' : y ∈ cs₁.flatMap Tree.addrs := List.mem_flatMap.mpr ⟨x, hx, hy⟩
        exact hkept y (hlt₁ y hy') (hout₁ y hy')
    · exact hafter.imp fun x hx nx hrep ↦ hrep.congr fun y hy ↦ by
        have hy' : y ∈ cs₂.flatMap Tree.addrs := List.mem_flatMap.mpr ⟨x, hx, hy⟩
        exact hkept y (hlt₂ y hy') (hout₂ y hy')
  · intro x hx
    simp only [Tree.addrs_inner, List.flatMap_append, List.flatMap_cons, List.mem_cons,
      List.mem_append] at hx ⊢
    rcases hx with hx | hx | hx | hx
    · tauto
    · tauto
    · have := hc.owned x hx
      tauto
    · tauto
  · simp only [Tree.addrs_inner, List.flatMap_append, List.flatMap_cons, List.nodup_cons,
      List.nodup_append, List.mem_append, not_or]
    refine ⟨⟨ha₁, hfresh a ha hac, ha₂⟩, hnd₁, ⟨hc.nodup, hnd₂, ?_⟩, ?_⟩
    · rintro x hx y hy rfl
      exact hfresh x (hlt₂ x hy) (hout₂ x hy) hx
    · rintro x hx y (hy | hy) rfl
      · exact hfresh x (hlt₁ x hx) (hout₁ x hx) hy
      · exact h₁ x hx x (Or.inr hy) rfl
  · simp only [Tree.leaves_inner, List.flatMap_append, List.head?_append, hleaves]
  · rw [Tree.entries_inner, Tree.entries_inner, hrouted.upsert_eq]
    simp [hc.entries_eq]

omit [LinearOrder Key] in
theorem accounts_in_child (ht : Represents h (Tree.inner a ks (cs₁ ++ c :: cs₂)) next)
    (hnodup : (Tree.inner a ks (cs₁ ++ c :: cs₂)).addrs.Nodup)
    (hc : h.Accounts h' {x | x ∈ c.addrs} {x | x ∈ c'.addrs}) :
    h.Accounts h' {x | x ∈ (Tree.inner a ks (cs₁ ++ c :: cs₂)).addrs}
      {x | x ∈ (Tree.inner a ks (cs₁ ++ c' :: cs₂)).addrs} := by
  have hlive := ht.mem_live
  simp only [Tree.addrs_inner, List.flatMap_append, List.flatMap_cons, List.nodup_cons,
    List.nodup_append, List.mem_append, not_or] at hnodup
  obtain ⟨⟨-, hac, -⟩, -, ⟨-, -, hc₂⟩, h₁⟩ := hnodup
  refine hc.frame (r := {x | x = a ∨ x ∈ cs₁.flatMap Tree.addrs ∨ x ∈ cs₂.flatMap Tree.addrs})
    (fun x hx ↦ ⟨hlive x ?_, ?_⟩) (fun x ↦ ?_) fun x ↦ ?_
  · simp only [Set.mem_ofPred_eq] at hx
    simp only [Tree.addrs_inner, List.flatMap_append, List.flatMap_cons, List.mem_cons,
      List.mem_append]
    tauto
  · rcases hx with rfl | hx | hx
    · exact hac
    · exact fun hin ↦ h₁ x hx x (Or.inl hin) rfl
    · exact fun hin ↦ hc₂ x hin x hx rfl
  · simp only [Tree.addrs_inner, List.flatMap_append, List.flatMap_cons, List.mem_cons,
      List.mem_append, Set.mem_ofPred_eq]
    tauto
  · simp only [Tree.addrs_inner, List.flatMap_append, List.flatMap_cons, List.mem_cons,
      List.mem_append, Set.mem_ofPred_eq]
    tauto

theorem wellFormed_in_child (hwf : WellFormed least (Tree.inner a ks (cs₁ ++ c :: cs₂)))
    (hrouted : Routed k cs₁ c cs₂) (hentries : c'.entries = upsert k v c.entries)
    (hc' : WellFormed (kMinDegree - 1) c') :
    WellFormed least (Tree.inner a ks (cs₁ ++ c' :: cs₂)) := by
  rw [wellFormed_inner] at hwf ⊢
  refine ⟨hwf.least_le, hwf.le_most, by simpa using hwf.arity, ?_, fun x hx ↦ ?_⟩
  · rw [hwf.separators]
    cases cs₁ with
    | nil => rfl
    | cons x xs =>
      obtain ⟨m, hm, hle⟩ := hrouted.low (List.cons_ne_nil _ _)
      have hmin : c'.minKey = c.minKey := by
        rw [hm, Tree.minKey, hentries, minKey_upsert hm hle]
      simp [hmin]
  · rcases List.mem_append.mp hx with hx | hx
    · exact hwf.children_formed x (by simp [hx])
    · rcases List.mem_cons.mp hx with rfl | hx
      · exact hc'
      · exact hwf.children_formed x (by simp [hx])

omit [LinearOrder Key] in
/-- The nodes after a split are the old ones and the new right half. -/
theorem owned_splitAt {sep : Key} {x : ℕ}
    (hx : x ∈ (Tree.splitAt a ks cs₁ c cs₂ sep h.bound).addrs) :
    x ∈ (Tree.inner a ks (cs₁ ++ c :: cs₂)).addrs ∨ h.bound ≤ x := by
  rcases List.mem_cons.mp ((addrs_splitAt a ks cs₁ c cs₂ sep h.bound).mem_iff.mp hx) with rfl | hx
  · exact Or.inr le_rfl
  · exact Or.inl hx

/-- A split in front of an insertion, below the same parent. -/
theorem Inserted.after_split {h₁ : Memory Key Value} {sep : Key} {t' : Tree Key Value (d + 1)}
    (hins : Inserted h₁ h' k v (Tree.splitAt a ks cs₁ c cs₂ sep h.bound) t' next)
    (hwf : WellFormed least c) (hfull : c.width = maxKeys) (hbound : h₁.bound = h.bound + 1)
    (hkeeps : h.Keeps h₁ {a, c.addr}) :
    Inserted h h' k v (Tree.inner a ks (cs₁ ++ c :: cs₂)) t' next := by
  refine ⟨hins.represents, ?_, hins.addr_eq, fun x hx ↦ ?_, hins.nodup, ?_, ?_⟩
  · refine Heap.Keeps.trans (hkeeps.mono ?_) hins.keeps fun _ ↦ owned_splitAt
    rintro x (rfl | rfl)
    · exact List.mem_cons_self
    · exact Tree.addrs_child_subset (by simp) (Tree.addr_mem_addrs c)
  · rcases hins.owned x hx with hx | hx
    · exact owned_splitAt hx
    · exact Or.inr (by omega)
  · rw [hins.head_leaves, head_leaves_splitAt h.bound hwf hfull]
  · rw [hins.entries_eq, entries_splitAt]

/-- With the child split, the key belongs to one of the halves. -/
theorem Routed.split {sep : Key} (hrouted : Routed k cs₁ c cs₂) (hwf : WellFormed least c)
    (hsorted : KeysSorted c.entries) (hfull : c.width = maxKeys) (neu : ℕ)
    (hsep : (c.upper neu).minKey = some sep) :
    (sep ≤ k → Routed k (cs₁ ++ [c.lower]) (c.upper neu) cs₂) ∧
      (k < sep → Routed k cs₁ c.lower (c.upper neu :: cs₂)) := by
  rw [← Tree.entries_lower_upper neu c] at hsorted
  obtain ⟨-, hupper, hcross⟩ := keysSorted_append.mp hsorted
  obtain ⟨x, hx, hmin⟩ := minKey_eq_some
    ((wellFormed_upper neu hwf hfull).entries_ne_nil (by decide))
  obtain rfl : x.1 = sep := Option.some.inj (hmin.symm.trans hsep)
  constructor
  · intro hle
    refine ⟨fun e he ↦ ?_, hrouted.above, fun _ ↦ ⟨x.1, hsep, hle⟩⟩
    rw [List.flatMap_append, List.mem_append] at he
    rcases he with he | he
    · exact hrouted.below e he
    · exact (hcross e (by simpa using he) x hx).trans_le hle
  · intro hlt
    refine ⟨hrouted.below, fun e he ↦ ?_, fun hne ↦ ?_⟩
    · rw [List.flatMap_cons, List.mem_append] at he
      rcases he with he | he
      · exact hlt.trans_le (minKey_le hupper hsep e he)
      · exact hrouted.above e he
    · rw [minKey_lower hwf hfull]
      exact hrouted.low hne

end Inner

/-- Insertion into a node with room, by induction on the height. The counter grows by the number of
entries gained. -/
theorem insertNonFull_spec {h : Memory Key Value} {t : Tree Key Value d} {next : Option ℕ}
    (ht : Represents h t next) (hnodup : t.addrs.Nodup) (hwf : WellFormed least t)
    (hsorted : KeysSorted t.entries) (hroom : t.width < maxKeys) (k : Key) (v : Value)
    {fuel : ℕ} (hfuel : d < fuel) (size : ℕ) :
    ∃ h' size' t', insertNonFull k v fuel h size t.addr = some (h', size') ∧
      size' + t.entries.length = size + t'.entries.length ∧
      Inserted h h' k v t t' next ∧ WellFormed least t' ∧
      h.Accounts h' {a | a ∈ t.addrs} {a | a ∈ t'.addrs} := by
  induction d generalizing h next least fuel with
  | zero =>
    obtain ⟨fuel, rfl⟩ := Nat.exists_eq_add_one_of_ne_zero (by omega : fuel ≠ 0)
    exact insertNonFull_leaf ht hsorted hwf hroom k v fuel size
  | succ d ih =>
    obtain ⟨fuel, rfl⟩ := Nat.exists_eq_add_one_of_ne_zero (by omega : fuel ≠ 0)
    obtain ⟨a, ks, cs, rfl⟩ := t.eq_inner
    obtain ⟨cs₁, c, cs₂, rfl, hidx, hrouted⟩ := exists_routed hwf hsorted k
    -- one level down: an insertion below a child with room, whatever heap and parent it is in
    have hdown {h₁ : Memory Key Value} {ks₁ : List Key} {xs ys : List (Tree Key Value d)}
        {x : Tree Key Value d} (hrep : Represents h₁ (Tree.inner a ks₁ (xs ++ x :: ys)) next)
        (hnd : (Tree.inner a ks₁ (xs ++ x :: ys)).addrs.Nodup)
        (hform : WellFormed least (Tree.inner a ks₁ (xs ++ x :: ys)))
        (hsort : KeysSorted (Tree.inner a ks₁ (xs ++ x :: ys)).entries)
        (hroute : Routed k xs x ys) (hwidth : x.width < maxKeys) :
        ∃ h' size' t', insertNonFull k v fuel h₁ size x.addr = some (h', size') ∧
          size' + (Tree.inner a ks₁ (xs ++ x :: ys)).entries.length =
            size + t'.entries.length ∧
          Inserted h₁ h' k v (Tree.inner a ks₁ (xs ++ x :: ys)) t' next ∧
          WellFormed least t' ∧
          h₁.Accounts h' {y | y ∈ (Tree.inner a ks₁ (xs ++ x :: ys)).addrs}
            {y | y ∈ t'.addrs} := by
      have hx : x ∈ xs ++ x :: ys := by simp
      have hrep' := ((chainedAll_append _ _ _ _ _).mp hrep.2).2.1
      have hnd' : x.addrs.Nodup := by
        simp only [Tree.addrs_inner, List.flatMap_append, List.flatMap_cons, List.nodup_cons,
          List.nodup_append] at hnd
        exact hnd.2.2.1.1
      have hform' := InnerFormed.children_formed hform x hx
      obtain ⟨h', size', x', hrun, hcount, hins, hwf', hacc⟩ := ih hrep' hnd' hform'
        ((keysSorted_flatMap.mp hsort).1 x hx) hwidth (Nat.lt_of_succ_lt_succ hfuel)
      refine ⟨h', size', _, hrun, ?_, inserted_in_child hrep hnd hroute hins,
        wellFormed_in_child hform hroute hins.entries_eq hwf', accounts_in_child hrep hnd hacc⟩
      simp only [Tree.entries_inner, List.flatMap_append, List.flatMap_cons, List.length_append]
      omega
    have hcmem : c ∈ cs₁ ++ c :: cs₂ := by simp
    have hread := ((represents_inner a ks _ next).mp ht).1
    have hchild := ((chainedAll_append _ _ _ _ _).mp ht.2).2.1
    have hformed := InnerFormed.children_formed hwf c hcmem
    obtain ⟨node, hnode, hnodeKeys⟩ := hchild.read_addr
    have hchildAt : (cs₁.map Tree.addr ++ c.addr :: cs₂.map Tree.addr)[ub ks k]? =
        some c.addr := by simp [← hidx]
    simp only [insertNonFull, Tree.addr_inner, hread, Option.bind_eq_bind, Option.bind_some,
      List.map_append, List.map_cons, hchildAt, hnode, hnodeKeys]
    split_ifs with hfull
    · -- the child is full: split it, then descend into the half of the key
      have hwidth : c.width = maxKeys := le_antisymm hformed.width_le hfull
      have hle : cs₁.length ≤ ks.length := hidx ▸ upperBound_le ks k
      obtain ⟨h₁, sep, hsplit, hsep, hrep₁, hbound, hkeeps, hacc₁⟩ :=
        splitChild_spec ht hnodup hformed hwidth hle
      obtain ⟨sep', hsep', hmin⟩ := promoted_eq h.bound hformed hwidth
      obtain rfl : sep = sep' := Option.some.inj (hsep.symm.trans hsep')
      have hnd₁ := (addrs_splitAt a ks cs₁ c cs₂ sep h.bound).nodup_iff.mpr (List.nodup_cons.mpr
        ⟨fun hin ↦ lt_irrefl _ (ht.lt_bound _ hin), hnodup⟩)
      have hwf₁ := wellFormed_split h.bound hwf hwidth hroom hsep
      have hsorted₁ := hsorted
      rw [← entries_splitAt a ks cs₁ c cs₂ sep h.bound] at hsorted₁
      obtain ⟨hright, hleft⟩ := hrouted.split hformed
        ((keysSorted_flatMap.mp hsorted).1 c hcmem) hwidth h.bound hmin
      have hread₁ : h₁.read a = some (.inner (ks.take cs₁.length ++ sep :: ks.drop cs₁.length)
          ((cs₁ ++ c.lower :: c.upper h.bound :: cs₂).map Tree.addr)) := hrep₁.1
      have hsepAt : (ks.take cs₁.length ++ sep :: ks.drop cs₁.length)[cs₁.length]? = some sep := by
        simp [hle]
      have hupperAt : ((cs₁ ++ c.lower :: c.upper h.bound :: cs₂).map Tree.addr)[cs₁.length + 1]? =
          some h.bound := by simp
      simp only [← hidx, hsplit, Option.bind_some, hread₁, hsepAt, hupperAt]
      split_ifs with hside
      · have hassoc : cs₁ ++ c.lower :: c.upper h.bound :: cs₂ =
            (cs₁ ++ [c.lower]) ++ c.upper h.bound :: cs₂ := by simp
        rw [Tree.splitAt, hassoc] at hrep₁ hnd₁ hwf₁ hsorted₁
        obtain ⟨h', size', t', hrun, hcount, hins, hwf', hacc⟩ := hdown hrep₁ hnd₁ hwf₁ hsorted₁
          (hright hside) (width_upper h.bound hwidth)
        rw [← hassoc] at hins hcount hacc
        rw [Tree.addr_upper] at hrun
        have hcount' := congrArg List.length (entries_splitAt a ks cs₁ c cs₂ sep h.bound)
        exact ⟨h', size', t', hrun, by rw [← hcount']; exact hcount,
          Inserted.after_split hins hformed hwidth hbound hkeeps, hwf',
          hacc₁.trans hacc fun _ ↦ owned_splitAt⟩
      · obtain ⟨h', size', t', hrun, hcount, hins, hwf', hacc⟩ := hdown hrep₁ hnd₁ hwf₁ hsorted₁
          (hleft (not_le.mp hside)) (width_lower hwidth)
        rw [Tree.addr_lower] at hrun
        have hcount' := congrArg List.length (entries_splitAt a ks cs₁ c cs₂ sep h.bound)
        exact ⟨h', size', t', hrun, by rw [← hcount']; exact hcount,
          Inserted.after_split hins hformed hwidth hbound hkeeps, hwf',
          hacc₁.trans hacc fun _ ↦ owned_splitAt⟩
    · exact hdown ht hnodup hwf hsorted hrouted (not_le.mp hfull)

end WsServer.FBPTree
