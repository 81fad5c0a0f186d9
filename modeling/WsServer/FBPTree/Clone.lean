import WsServer.FBPTree.Insert

/-!
# Cloning and destroying a tree

`clone_internal` copies the nodes into fresh cells and rebuilds the chain of leaves from scratch:
the clones of two neighbouring subtrees are linked as soon as the second one exists
(`relinks_tree`), so no pointer of the clone leads into the source (`cloneInternal_spec`).
`destroyNode_spec` says that destruction releases exactly the nodes of the tree.
-/

set_option autoImplicit false
set_option relaxedAutoImplicit false

namespace WsServer.FBPTree

open Foundations

variable {Key Value : Type} {d : ℕ} {least : ℕ}

/-! ### The last leaf -/

/-- Overwriting the `next` pointer of the last leaf chains the tree to a new neighbour. -/
def Relinks (h : Memory Key Value) (chained : Memory Key Value → Option ℕ → Prop) (leaves : List ℕ)
    (addrs : List ℕ) (next : Option ℕ) : Prop :=
  ∃ l ks vs, leaves.getLast? = some l ∧ l ∈ addrs ∧ h.read l = some (.leaf ks vs next) ∧
    ∀ x, chained (h.set l (some (.leaf ks vs x))) x

theorem relinks_children {h : Memory Key Value} {cs : List (Tree Key Value d)} {next : Option ℕ}
    (hne : cs ≠ []) (hchain : ChainedAll (Represents h) Tree.leaves cs next)
    (hnodup : (cs.flatMap Tree.addrs).Nodup) (hformed : ∀ c ∈ cs, c.leaves ≠ [])
    (htree : ∀ c ∈ cs, ∀ nx, Represents h c nx → c.addrs.Nodup →
      Relinks h (fun h' ↦ Represents h' c) c.leaves c.addrs nx) :
    Relinks h (fun h' ↦ ChainedAll (Represents h') Tree.leaves cs) (cs.flatMap Tree.leaves)
      (cs.flatMap Tree.addrs) next := by
  obtain ⟨init, c, rfl⟩ : ∃ init c, cs = init ++ [c] :=
    ⟨cs.dropLast, cs.getLast hne, (List.dropLast_append_getLast hne).symm⟩
  have hc : c ∈ init ++ [c] := by simp
  have hleaves := hformed c hc
  obtain ⟨y, ys, hys⟩ := List.exists_cons_of_ne_nil hleaves
  rw [chainedAll_append] at hchain
  obtain ⟨hinit, hlast, -⟩ := hchain
  simp only [List.flatMap_append, List.flatMap_singleton, List.nodup_append] at hnodup
  obtain ⟨l, ks, vs, hget, hmem, hread, hset⟩ := htree c hc next (by simpa using hlast) hnodup.2.1
  refine ⟨l, ks, vs, ?_, ?_, hread, fun x ↦ ?_⟩
  · simp only [List.flatMap_append, List.flatMap_singleton]
    rw [List.getLast?_append_of_ne_nil _ hleaves]
    exact hget
  · simp [hmem]
  · beta_reduce
    rw [chainedAll_append]
    refine ⟨?_, by simpa using hset x, trivial⟩
    have hhead : ([c].flatMap Tree.leaves).head?.or x =
        ([c].flatMap Tree.leaves).head?.or next := by simp [hys]
    rw [hhead]
    refine hinit.imp fun z hz nx hrep ↦ hrep.congr fun w hw ↦ ?_
    have hwl : w ≠ l := hnodup.2.2 w (List.mem_flatMap.mpr ⟨z, hz, hw⟩) l hmem
    rw [Heap.read_set (Heap.lt_bound_of_read hread), if_neg hwl]

theorem relinks_tree {h : Memory Key Value} {t : Tree Key Value d} {next : Option ℕ}
    (ht : Represents h t next) (hnodup : t.addrs.Nodup) (hwf : WellFormed least t) :
    Relinks h (fun h' ↦ Represents h' t) t.leaves t.addrs next := by
  induction d generalizing next least with
  | zero =>
    obtain ⟨a, l, rfl⟩ := t.eq_leaf
    rw [represents_leaf] at ht
    refine ⟨a, keysOf l, l.map Prod.snd, rfl, List.mem_singleton_self a, ht, fun x ↦ ?_⟩
    beta_reduce
    rw [represents_leaf, Heap.read_set (Heap.lt_bound_of_read ht), if_pos rfl]
  | succ d ih =>
    obtain ⟨a, ks, cs, rfl⟩ := t.eq_inner
    rw [represents_inner] at ht
    rw [wellFormed_inner] at hwf
    obtain ⟨ha, hnd⟩ := List.nodup_cons.mp hnodup
    have hne : cs ≠ [] := by
      rintro rfl
      simpa using hwf.arity
    obtain ⟨l, ks', vs, hget, hmem, hread, hset⟩ := relinks_children hne ht.2 hnd
      (fun c hc ↦ (hwf.children_formed c hc).leaves_ne_nil)
      (fun c hc nx hrep hndc ↦ ih hrep hndc (hwf.children_formed c hc))
    refine ⟨l, ks', vs, hget, List.mem_cons_of_mem _ hmem, hread, fun x ↦ ?_⟩
    beta_reduce
    rw [represents_inner]
    refine ⟨?_, hset x⟩
    have hla : a ≠ l := fun heq ↦ ha (heq ▸ hmem)
    rw [Heap.read_set (Heap.lt_bound_of_read hread), if_neg hla]
    exact ht.1

/-! ### Cloning -/

/-- `t'` is a copy of `t` in cells that are fresh with respect to `h`. -/
structure Cloned (h h' : Memory Key Value) (t t' : Tree Key Value d) : Prop where
  represents : Represents h' t' none
  keeps : h.Keeps h' ∅
  owned : ∀ a ∈ t'.addrs, h.bound ≤ a
  nodup : t'.addrs.Nodup
  entries_eq : t'.entries = t.entries
  formed : ∀ least, WellFormed least t → WellFormed least t'

/-- Linking the clones so far to the clone of the next child. -/
theorem linkLeaf_spec {h : Memory Key Value} {done : List (Tree Key Value d)} {c : Tree Key Value d}
    (hdone : ∀ x ∈ done, WellFormed (kMinDegree - 1) x) (hc : WellFormed (kMinDegree - 1) c)
    (hchain : ChainedAll (Represents h) Tree.leaves done none) (hrep : Represents h c none)
    (hnodup : (done.flatMap Tree.addrs).Nodup)
    (hdisjoint : ∀ x ∈ done.flatMap Tree.addrs, x ∉ c.addrs) :
    ∃ h', linkLeaf h (done.flatMap Tree.leaves).getLast? c.leaves.head? = some h' ∧
      ChainedAll (Represents h') Tree.leaves (done ++ [c]) none ∧
      h.Keeps h' {x | x ∈ done.flatMap Tree.addrs} ∧ h'.live = h.live := by
  obtain ⟨r, rs, hr⟩ := List.exists_cons_of_ne_nil hc.leaves_ne_nil
  by_cases hne : done = []
  · subst hne
    exact ⟨h, by simp [linkLeaf], by simpa [ChainedAll] using hrep, Heap.Keeps.refl _ _, rfl⟩
  · obtain ⟨l, ks, vs, hget, hmem, hread, hset⟩ := relinks_children hne hchain hnodup
      (fun x hx ↦ (hdone x hx).leaves_ne_nil)
      (fun x hx nx hrep hnd ↦ relinks_tree hrep hnd (hdone x hx))
    refine ⟨h.set l (some (.leaf ks vs (some r))), ?_, ?_,
      Heap.keeps_set (Heap.lt_bound_of_read hread) _ hmem, Heap.live_set_some hread _⟩
    · simp [linkLeaf, hget, hr, hread, Heap.write_eq hread]
    · rw [chainedAll_append]
      refine ⟨?_, ?_, trivial⟩
      · have hhead : ([c].flatMap Tree.leaves).head?.or none = some r := by simp [hr]
        rw [hhead]
        exact hset (some r)
      · apply hrep.congr
        intro x hx
        have hxl : x ≠ l := fun heq ↦ hdisjoint l hmem (heq ▸ hx)
        rw [Heap.read_set (Heap.lt_bound_of_read hread), if_neg hxl]

/-- The clones `done` so far hang chained under the node `a`. `h₀` is the heap before the clone; all
writes go to `done` and to `a`. -/
structure ClonedSoFar (h₀ : Memory Key Value) (a : ℕ) (ks : List Key)
    (done : List (Tree Key Value d)) (h : Memory Key Value) : Prop where
  formed : ∀ c ∈ done, WellFormed (kMinDegree - 1) c
  keeps : h₀.Keeps h ∅
  read : h.read a = some (.inner ks (done.map Tree.addr))
  chain : ChainedAll (Represents h) Tree.leaves done none
  nodup : (a :: done.flatMap Tree.addrs).Nodup
  owned : ∀ x ∈ done.flatMap Tree.addrs, h₀.bound ≤ x

/-- The clone `c'` of the next child is linked to the last one and entered in the node. -/
theorem ClonedSoFar.concat {h₀ h h₁ : Memory Key Value} {a : ℕ} {ks : List Key}
    {done : List (Tree Key Value d)} {c c' : Tree Key Value d} (hs : ClonedSoFar h₀ a ks done h)
    (ha : h₀.bound ≤ a) (hc : WellFormed (kMinDegree - 1) c) (hcl : Cloned h h₁ c c') :
    ∃ h₂, linkLeaf h₁ (done.flatMap Tree.leaves).getLast? c'.leaves.head? = some h₂ ∧
      h₂.read a = some (.inner ks (done.map Tree.addr)) ∧ h₂.live = h₁.live ∧
      ClonedSoFar h₀ a ks (done ++ [c'])
        (h₂.set a (some (.inner ks ((done ++ [c']).map Tree.addr)))) := by
  obtain ⟨hnd_a, hnd⟩ := List.nodup_cons.mp hs.nodup
  -- the clone of `c` lies above everything so far, `done` and `a` included
  have hlt_done : ∀ x ∈ done.flatMap Tree.addrs, x < h.bound := fun x hx ↦ by
    obtain ⟨z, hz, hxz⟩ := List.mem_flatMap.mp hx
    obtain ⟨nz, hnz⟩ := hs.chain.exists_of_mem hz
    exact hnz.lt_bound x hxz
  have ha_lt : a < h.bound := Heap.lt_bound_of_read hs.read
  have hchain₁ : ChainedAll (Represents h₁) Tree.leaves done none :=
    hs.chain.imp fun z _ nz hz ↦ hz.keep hcl.keeps (by simp)
  have hdisjoint : ∀ x ∈ done.flatMap Tree.addrs, x ∉ c'.addrs := fun x hx hin ↦ by
    have := hcl.owned x hin
    have := hlt_done x hx
    omega
  obtain ⟨h₂, hlink, hchain₂, hkeeps₂, hlive₂⟩ := linkLeaf_spec hs.formed (hcl.formed _ hc) hchain₁
    hcl.represents hnd hdisjoint
  have hread₂ : h₂.read a = some (.inner ks (done.map Tree.addr)) := by
    rw [hkeeps₂.read_eq a (lt_of_lt_of_le ha_lt hcl.keeps.bound_le) hnd_a,
      hcl.keeps.read_eq a ha_lt (by simp), hs.read]
  have ha_c' : a ∉ c'.addrs := fun hin ↦ by
    have := hcl.owned a hin
    omega
  have ha₂ := Heap.lt_bound_of_read hread₂
  have hkeeps_all : h₀.Keeps h₂ ∅ :=
    (hs.keeps.trans hcl.keeps (by simp)).trans hkeeps₂ fun x hx ↦ Or.inr (hs.owned x hx)
  have hnodup₂ : (a :: (done ++ [c']).flatMap Tree.addrs).Nodup := by
    simp only [List.flatMap_append, List.flatMap_singleton, List.nodup_cons, List.nodup_append,
      List.mem_append, not_or]
    refine ⟨⟨hnd_a, ha_c'⟩, hnd, hcl.nodup, ?_⟩
    rintro x hx y hy rfl
    exact hdisjoint x hx hy
  have hread₃ (x : ℕ) := Heap.read_set ha₂
    (some (.inner ks ((done ++ [c']).map Tree.addr) : Node Key Value)) x
  refine ⟨h₂, hlink, hread₂, hlive₂, ?_, ?_, ?_, ?_, hnodup₂, ?_⟩
  · intro x hx
    rcases List.mem_append.mp hx with hx | hx
    · exact hs.formed x hx
    · rw [List.mem_singleton.mp hx]
      exact hcl.formed _ hc
  · exact hkeeps_all.trans (Heap.keeps_set ha₂ _ (Set.mem_singleton a))
      fun x hx ↦ Or.inr (hx ▸ ha)
  · rw [hread₃, if_pos rfl]
  · refine hchain₂.imp fun z hz nz hrepz ↦ hrepz.congr fun w hw ↦ ?_
    have hmem : w ∈ (done ++ [c']).flatMap Tree.addrs := List.mem_flatMap.mpr ⟨z, hz, hw⟩
    have hwa : w ≠ a := fun heq ↦ (List.nodup_cons.mp hnodup₂).1 (heq ▸ hmem)
    rw [hread₃, if_neg hwa]
  · intro x hx
    simp only [List.flatMap_append, List.flatMap_singleton, List.mem_append] at hx
    rcases hx with hx | hx
    · exact hs.owned x hx
    · exact hs.keeps.bound_le.trans (hcl.owned x hx)

/-- The loop over the children. -/
theorem cloneChildren_spec {clone : Memory Key Value → ℕ →
      Option (Memory Key Value × ℕ × Option ℕ × Option ℕ)} {h₀ : Memory Key Value} {a : ℕ}
    {ks : List Key} (hclone : ∀ h : Memory Key Value, ∀ c : Tree Key Value d, ∀ nx,
      Represents h c nx → WellFormed (kMinDegree - 1) c → ∃ h' c',
        clone h c.addr = some (h', c'.addr, c'.leaves.head?, c'.leaves.getLast?) ∧
          Cloned h h' c c' ∧ h.Accounts h' ∅ {x | x ∈ c'.addrs})
    (ha : h₀.bound ≤ a) {cs done : List (Tree Key Value d)} {h : Memory Key Value}
    (hcs : ∀ c ∈ cs, WellFormed (kMinDegree - 1) c ∧ ∃ nx, Represents h₀ c nx)
    (hs : ClonedSoFar h₀ a ks done h) :
    ∃ h' cs', cloneChildren clone a (cs.map Tree.addr) h (done.flatMap Tree.leaves).head?
        (done.flatMap Tree.leaves).getLast? =
        some (h', ((done ++ cs').flatMap Tree.leaves).head?,
          ((done ++ cs').flatMap Tree.leaves).getLast?) ∧
      ClonedSoFar h₀ a ks (done ++ cs') h' ∧ cs'.map Tree.entries = cs.map Tree.entries ∧
      h.Accounts h' ∅ {x | x ∈ cs'.flatMap Tree.addrs} := by
  induction cs generalizing done h with
  | nil => exact ⟨h, [], by simp [cloneChildren], by simpa using hs, rfl, by simp [Heap.Accounts]⟩
  | cons c cs ih =>
    obtain ⟨⟨hc, nx, hrep⟩, hrest⟩ := List.forall_mem_cons.mp hcs
    obtain ⟨h₁, c', hrun, hcl, hacc₁⟩ := hclone h c nx (hrep.keep hs.keeps (by simp)) hc
    obtain ⟨h₂, hlink, hread₂, hlive₂, hs₂⟩ := hs.concat ha hc hcl
    obtain ⟨h', cs', hrun', hs', hentries, hacc⟩ := ih hrest hs₂
    have hassoc : done ++ [c'] ++ cs' = done ++ c' :: cs' := by simp
    rw [hassoc] at hrun' hs'
    refine ⟨h', c' :: cs', ?_, hs', by simp [hcl.entries_eq, hentries], fun x ↦ ?_⟩
    swap
    · rw [hacc x, Heap.live_set_some hread₂, hlive₂, hacc₁ x]
      simp only [List.flatMap_cons, List.mem_append, Set.mem_ofPred_eq]
      tauto
    have hfirst : (if (done.flatMap Tree.leaves).head?.isNone then c'.leaves.head?
        else (done.flatMap Tree.leaves).head?) =
          ((done ++ [c']).flatMap Tree.leaves).head? := by
      cases hd : (done.flatMap Tree.leaves).head? <;> simp [hd]
    have hlast : (if c'.leaves.getLast?.isSome then c'.leaves.getLast?
        else (done.flatMap Tree.leaves).getLast?) =
          ((done ++ [c']).flatMap Tree.leaves).getLast? := by
      cases hd : c'.leaves.getLast? <;> simp [hd, List.getLast?_append]
    rw [← hrun']
    simp only [List.map_cons, cloneChildren, hrun, Option.bind_eq_bind, Option.bind_some, hlink,
      hfirst, hlast, hread₂, Heap.write_eq hread₂]
    simp

/-- Cloning a represented tree succeeds with a disjoint copy of it. -/
theorem cloneInternal_spec {h : Memory Key Value} {t : Tree Key Value d} {next : Option ℕ}
    (ht : Represents h t next) (hwf : WellFormed least t) {fuel : ℕ} (hfuel : d < fuel) :
    ∃ h' t', cloneInternal fuel h t.addr =
        some (h', t'.addr, t'.leaves.head?, t'.leaves.getLast?) ∧ Cloned h h' t t' ∧
      h.Accounts h' ∅ {a | a ∈ t'.addrs} := by
  induction d generalizing h next least fuel with
  | zero =>
    obtain ⟨fuel, rfl⟩ := Nat.exists_eq_add_one_of_ne_zero (by omega : fuel ≠ 0)
    obtain ⟨a, l, rfl⟩ := t.eq_leaf
    rw [represents_leaf] at ht
    refine ⟨(h.alloc (.leaf (keysOf l) (l.map Prod.snd) none)).2, Tree.leaf h.bound l,
      by simp [cloneInternal, ht], ⟨?_, Heap.keeps_alloc _ _ _,
      by simp, by simp, rfl, fun _ hform ↦ hform⟩, fun x ↦ by simp [Heap.mem_live_alloc]⟩
    rw [represents_leaf, Heap.read_alloc_self]
  | succ d ih =>
    obtain ⟨fuel, rfl⟩ := Nat.exists_eq_add_one_of_ne_zero (by omega : fuel ≠ 0)
    obtain ⟨a, ks, cs, rfl⟩ := t.eq_inner
    have hwf' := (wellFormed_inner _ _ _).mp hwf
    rw [represents_inner] at ht
    have hnone : ClonedSoFar h h.bound ks ([] : List (Tree Key Value d))
        (h.alloc (.inner ks [])).2 :=
      ⟨by simp, Heap.keeps_alloc _ _ _, by simp, trivial, by simp, by simp⟩
    obtain ⟨h', cs', hrun, hs, hentries, hacc⟩ :=
      cloneChildren_spec (fun h₁ c nx hrep hform ↦ ih hrep hform (Nat.lt_of_succ_lt_succ hfuel))
        le_rfl (fun c hc ↦ ⟨hwf'.children_formed c hc, ht.2.exists_of_mem hc⟩) hnone
    rw [List.nil_append] at hrun hs
    refine ⟨h', Tree.inner h.bound ks cs', ?_,
      ⟨⟨hs.read, hs.chain⟩, hs.keeps, ?_, hs.nodup, ?_, ?_⟩, fun x ↦ ?_⟩
    · simp only [List.flatMap_nil, List.head?_nil, List.getLast?_nil] at hrun
      simp [cloneInternal, ht.1, hrun]
    · intro x hx
      rcases List.mem_cons.mp hx with rfl | hx
      · exact le_rfl
      · exact hs.owned x hx
    · simp only [Tree.entries_inner, List.flatMap_def, hentries]
    · intro least' hform
      rw [wellFormed_inner] at hform ⊢
      have hmin : cs'.map Tree.minKey = cs.map Tree.minKey := by
        have hheads :=
          congrArg (List.map fun l : List (Key × Value) ↦ l.head?.map Prod.fst) hentries
        rwa [List.map_map, List.map_map] at hheads
      have hlen : cs'.length = cs.length := by simpa using congrArg List.length hentries
      refine ⟨hform.least_le, hform.le_most, hlen.trans hform.arity, ?_, hs.formed⟩
      rw [hform.separators, List.map_tail, List.map_tail, hmin]
    · rw [hacc x, Heap.mem_live_alloc]
      simp only [Tree.addrs_inner, List.mem_cons, Set.mem_ofPred_eq]
      tauto

/-! ### Destruction -/

/-- Destruction releases the nodes of the tree and nothing else. -/
theorem destroyNode_spec {h : Memory Key Value} {t : Tree Key Value d} {next : Option ℕ}
    (ht : Represents h t next) (hnodup : t.addrs.Nodup) {fuel : ℕ} (hfuel : d < fuel) :
    ∃ h', destroyNode fuel h t.addr = some h' ∧ h.Keeps h' {a | a ∈ t.addrs} ∧
      h.Accounts h' {a | a ∈ t.addrs} ∅ := by
  induction d generalizing h next fuel with
  | zero =>
    obtain ⟨fuel, rfl⟩ := Nat.exists_eq_add_one_of_ne_zero (by omega : fuel ≠ 0)
    obtain ⟨a, l, rfl⟩ := t.eq_leaf
    rw [represents_leaf] at ht
    exact ⟨h.set a none, by simp [destroyNode, ht, Heap.free_eq ht],
      Heap.keeps_set (Heap.lt_bound_of_read ht) _ (by simp),
      fun x ↦ by simp [Heap.mem_live_set_none ht]⟩
  | succ d ih =>
    obtain ⟨fuel, rfl⟩ := Nat.exists_eq_add_one_of_ne_zero (by omega : fuel ≠ 0)
    obtain ⟨a, ks, cs, rfl⟩ := t.eq_inner
    rw [represents_inner] at ht
    obtain ⟨ha, hnd⟩ := List.nodup_cons.mp hnodup
    have hloop : ∀ (cs : List (Tree Key Value d)) (h₁ : Memory Key Value),
        (∀ c ∈ cs, ∃ nx, Represents h₁ c nx) → (cs.flatMap Tree.addrs).Nodup →
        ∃ h₂, (cs.map Tree.addr).foldlM (destroyNode fuel) h₁ = some h₂ ∧
          h₁.Keeps h₂ {x | x ∈ cs.flatMap Tree.addrs} ∧
          h₁.Accounts h₂ {x | x ∈ cs.flatMap Tree.addrs} ∅ := by
      intro cs
      induction cs with
      | nil => exact fun h₁ _ _ ↦ ⟨h₁, rfl, Heap.Keeps.refl _ _, by simp [Heap.Accounts]⟩
      | cons c cs ihcs =>
        intro h₁ hreps hnd₁
        simp only [List.flatMap_cons, List.nodup_append] at hnd₁
        obtain ⟨nx, hrep⟩ := hreps c List.mem_cons_self
        obtain ⟨h₂, hrun, hkeeps, hacc⟩ := ih hrep hnd₁.1 (Nat.lt_of_succ_lt_succ hfuel)
        obtain ⟨h₃, hrun', hkeeps', hacc'⟩ := ihcs h₂ (fun c' hc' ↦ by
          obtain ⟨nx', hrep'⟩ := hreps c' (List.mem_cons_of_mem _ hc')
          refine ⟨nx', hrep'.keep hkeeps fun x hx hin ↦ ?_⟩
          exact hnd₁.2.2 x hin x (List.mem_flatMap.mpr ⟨c', hc', hx⟩) rfl) hnd₁.2.1
        refine ⟨h₃, by simp [hrun, hrun'], ?_, fun x ↦ ?_⟩
        · exact (hkeeps.mono fun x hx ↦ by simp_all).trans hkeeps'
            fun x hx ↦ Or.inl (by simp_all)
        · rw [hacc' x, hacc x]
          simp only [List.flatMap_cons, List.mem_append, Set.mem_ofPred_eq,
            Set.mem_empty_iff_false]
          tauto
    obtain ⟨h₁, hrun, hkeeps, hacc⟩ := hloop cs h (fun c hc ↦ ht.2.exists_of_mem hc) hnd
    have hread : h₁.read a = some (.inner ks (cs.map Tree.addr)) := by
      rw [hkeeps.read_eq a (Heap.lt_bound_of_read ht.1) ha, ht.1]
    refine ⟨h₁.set a none, by simp [destroyNode, ht.1, hrun, Heap.free_eq hread], ?_, fun x ↦ ?_⟩
    · refine (hkeeps.mono fun x hx ↦ List.mem_cons_of_mem _ hx).trans
        (Heap.keeps_set (Heap.lt_bound_of_read hread) none (Set.mem_singleton a)) ?_
      rintro x rfl
      exact Or.inl List.mem_cons_self
    · rw [Heap.mem_live_set_none hread, hacc x]
      simp only [Tree.addrs_inner, List.mem_cons, Set.mem_ofPred_eq, Set.mem_empty_iff_false]
      tauto

end WsServer.FBPTree
