import WsServer.Convergecast.Build
import WsServer.Foundations.Arborescence

/-!
# The tree that `build` leaves behind

The finished search is an arborescence on the ids of the nodes (`Grown.tree`). `Standing` ties an
object to such a tree through the members that no later call changes, so it survives every run on
the tree. `build_spans` is the contract of `build` in terms of the graph alone.
-/

set_option autoImplicit false
set_option relaxedAutoImplicit false

namespace WsServer.Convergecast

open Foundations

variable {Inbox : Type}

section Tree

variable {inbox : Inbox} {n r : ℕ} {joined : ℕ → ℕ → Prop} {s : Search Inbox}

/-- The tree behind a finished search. -/
def Grown.tree (hs : Grown inbox n r joined s) : Arborescence ℕ where
  verts := s.nodes.ids.toFinset
  root := r
  parent v := (s.nodes.find v).bind Node.parent
  children v := ((s.nodes.find v).map Node.children).getD []
  rank := s.nodes.ids.idxOf
  root_mem := List.mem_toFinset.mpr (List.mem_of_mem_head? hs.head)
  rank_lt v hv := by
    rw [List.toFinset_card_of_nodup hs.nodup]
    exact List.idxOf_lt_length_of_mem (List.mem_toFinset.mp hv)
  parent_eq_none v hv := by
    obtain ⟨node, hnode⟩ :=
      Option.isSome_iff_exists.mp ((hs.present v).mpr (List.mem_toFinset.mp hv))
    rw [hnode]
    exact hs.root_null v node hnode
  parent_mem c p hp := by
    obtain ⟨node, hnode, hparent⟩ := Option.bind_eq_some_iff.mp hp
    obtain ⟨-, hmem, hlt⟩ := hs.parent c node p hnode hparent
    exact ⟨List.mem_toFinset.mpr ((hs.present c).mp (by simp [hnode])),
      List.mem_toFinset.mpr hmem, hlt⟩
  mem_children p c := by
    rw [Option.bind_eq_some_iff]
    cases hp : s.nodes.find p with
    | none =>
      simp only [Option.map_none, Option.getD_none, List.not_mem_nil, false_iff, not_exists,
        not_and]
      intro child hchild hparent
      have hmem := (hs.present p).mpr (hs.parent c child p hchild hparent).2.1
      simp [hp] at hmem
    | some node => exact hs.mem_children p node hp c
  children_nodup p := by
    cases hp : s.nodes.find p with
    | none => exact List.nodup_nil
    | some node => exact hs.children_nodup p node hp

end Tree

/-! ### The built tree -/

/-- The members of a node that `build` sets and nothing changes afterwards. -/
def Node.static (node : Node Inbox) : ℕ × ℤ × Option ℕ × List ℕ :=
  (node.id, node.localValue, node.parent, node.children)

open Classical in
/-- The nodes are those of the tree `T`, whatever their counters and inboxes hold. -/
structure Shaped (nodes : NodeMap Inbox) (T : Arborescence ℕ) : Prop where
  nodup : nodes.ids.Nodup
  mem_ids : ∀ v, v ∈ nodes.ids ↔ v ∈ T.verts
  static_eq : ∀ v, (nodes.find v).map Node.static =
    if v ∈ T.verts then some (v, (v : ℤ) * 10, T.parent v, T.children v) else none

structure Standing (t : SpanningTree Inbox) (T : Arborescence ℕ) : Prop where
  root_eq : t.root = some T.root
  shaped : Shaped t.nodes T

section Shaped

variable {nodes : NodeMap Inbox} {T : Arborescence ℕ}

theorem Shaped.length_ids (hn : Shaped nodes T) : nodes.ids.length = T.verts.card := by
  have hset : nodes.ids.toFinset = T.verts := by
    ext v
    rw [List.mem_toFinset, hn.mem_ids]
  rw [← hset, List.toFinset_card_of_nodup hn.nodup]

theorem Shaped.isSome (hn : Shaped nodes T) (v : ℕ) : (nodes.find v).isSome ↔ v ∈ T.verts := by
  have hstatic := congrArg Option.isSome (hn.static_eq v)
  rw [Option.isSome_map] at hstatic
  rw [hstatic]
  by_cases hv : v ∈ T.verts <;> simp [hv]

theorem Shaped.exists_node (hn : Shaped nodes T) {v : ℕ} (hv : v ∈ T.verts) :
    ∃ node, nodes.find v = some node :=
  Option.isSome_iff_exists.mp ((hn.isSome v).mpr hv)

theorem Shaped.fields (hn : Shaped nodes T) {v : ℕ} {node : Node Inbox}
    (hv : nodes.find v = some node) : v ∈ T.verts ∧ node.id = v ∧ node.localValue = v * 10 ∧
      node.parent = T.parent v ∧ node.children = T.children v := by
  have hmem : v ∈ T.verts := (hn.isSome v).mp (by simp [hv])
  have hstatic := hn.static_eq v
  rw [hv, if_pos hmem, Option.map_some, Option.some_inj] at hstatic
  simp only [Node.static, Prod.mk.injEq] at hstatic
  exact ⟨hmem, hstatic⟩

/-- Changing counters and inboxes keeps the shape. -/
theorem Shaped.congr (hn : Shaped nodes T) {nodes' : NodeMap Inbox} (hids : nodes'.ids = nodes.ids)
    (hstatic : ∀ v, (nodes'.find v).map Node.static = (nodes.find v).map Node.static) :
    Shaped nodes' T :=
  ⟨hids ▸ hn.nodup, hids ▸ hn.mem_ids, fun v ↦ (hstatic v).trans (hn.static_eq v)⟩

theorem Shaped.store (hn : Shaped nodes T) {v : ℕ} {node node' : Node Inbox}
    (hv : nodes.find v = some node) (hstatic : node'.static = node.static) :
    Shaped (nodes.store v node') T := by
  refine hn.congr rfl fun w ↦ ?_
  by_cases hw : w = v
  · subst hw
    simp [NodeMap.store, hv, hstatic]
  · simp [NodeMap.store, hw]

end Shaped

/-- The number of nodes is enough fuel from the root on. -/
theorem Standing.card_le {t : SpanningTree Inbox} {T : Arborescence ℕ} (ht : Standing t T) :
    T.verts.card ≤ t.nodes.ids.length + T.rank T.root := by
  rw [ht.shaped.length_ids]
  exact Nat.le_add_right _ _

/-- `build` on a valid root: a tree along the added edges that holds the component of the root and
has empty inboxes. -/
theorem build_spec {n : ℕ} {edges : List (ℤ × ℤ)} {g : Graph} (hg : BuiltFrom g n edges) {r : ℕ}
    (hr : r < n) (inbox : Inbox) (old : SpanningTree Inbox) :
    ∃ t T, SpanningTree.build inbox old g r = .ok t ∧ Standing t T ∧ T.root = r ∧
      (∀ v, v ∈ T.verts ↔ Relation.ReflTransGen (Joined edges) r v) ∧
      (∀ c p, T.parent c = some p → Joined edges p c) ∧
      ∀ v node, t.getNode v = some node → node.inbox = inbox := by
  have hinitial : Grown inbox n r (Joined edges) (initial inbox n r) := grown_initial hr
  obtain ⟨s, hrun, hs, hclosed⟩ := visitQueue_spec hg hinitial (show [r] = [] ++ [r] from rfl)
    (by simp) (show n ≤ n + ([] : List ℕ).length from le_rfl)
  refine ⟨{ nodes := s.nodes, root := some r }, hs.tree, ?_, ?_, rfl, fun v ↦ ?_, ?_, ?_⟩
  · rw [build_eq hg.size_eq hr, hrun]
    rfl
  · refine ⟨rfl, hs.nodup, fun v ↦ List.mem_toFinset.symm, fun v ↦ ?_⟩
    cases hv : s.nodes.find v with
    | none =>
      have hout : v ∉ s.nodes.ids := fun hin ↦ by simpa [hv] using (hs.present v).mpr hin
      simp [Grown.tree, hout]
    | some node =>
      have hin : v ∈ s.nodes.ids := (hs.present v).mp (by simp [hv])
      obtain ⟨hid, hlocal, -⟩ := hs.fields v node hv
      simp [Grown.tree, hin, hv, Node.static, hid, hlocal]
  · constructor
    · intro hv
      refine hs.tree.parent_induction Relation.ReflTransGen.refl (fun p c hp ih ↦ ?_) hv
      obtain ⟨node, hnode, hparent⟩ := Option.bind_eq_some_iff.mp hp
      exact ih.tail (hs.parent c node p hnode hparent).1
    · intro hreach
      refine List.mem_toFinset.mpr ?_
      induction hreach with
      | refl => exact List.mem_of_mem_head? hs.head
      | tail _ hstep ih => exact hclosed _ ih _ hstep
  · intro c p hp
    obtain ⟨node, hnode, hparent⟩ := Option.bind_eq_some_iff.mp hp
    exact (hs.parent c node p hnode hparent).1
  · exact fun v node hv ↦ (hs.fields v node hv).2.2

/-- `build` throws or leaves a standing tree. -/
theorem build_cases {n : ℕ} {edges : List (ℤ × ℤ)} {g : Graph} (hg : BuiltFrom g n edges)
    (rootId : ℤ) (inbox : Inbox) (old : SpanningTree Inbox) :
    SpanningTree.build inbox old g rootId = .error (.outOfRange "Invalid root ID") ∨
      ∃ t T, SpanningTree.build inbox old g rootId = .ok t ∧ Standing t T := by
  by_cases hroot : rootId < 0 ∨ (g.size : ℤ) ≤ rootId
  · exact Or.inl (if_pos hroot)
  · rw [not_or, not_lt, not_le, hg.size_eq] at hroot
    obtain ⟨r, rfl⟩ := Int.eq_ofNat_of_zero_le hroot.1
    obtain ⟨t, T, hrun, ht, -⟩ := build_spec hg (by omega : r < n) inbox old
    exact Or.inr ⟨t, T, hrun, ht⟩

/-- What `build` returns stands. -/
theorem standing_of_build {n : ℕ} {edges : List (ℤ × ℤ)} {g : Graph} (hg : BuiltFrom g n edges)
    {rootId : ℤ} {inbox : Inbox} {old t : SpanningTree Inbox}
    (hrun : SpanningTree.build inbox old g rootId = .ok t) : ∃ T, Standing t T := by
  rcases build_cases hg rootId inbox old with herror | ⟨t', T, hok, ht⟩
  · rw [hrun] at herror
    cases herror
  · obtain rfl := Except.ok.inj (hrun.symm.trans hok)
    exact ⟨T, ht⟩

/-- The pointer reached from `v` over `k` parent links. -/
def ancestor (t : SpanningTree Inbox) (v : ℕ) : ℕ → Option ℕ
  | 0 => some v
  | k + 1 => (ancestor t v k).bind fun u ↦ (t.getNode u).bind Node.parent

/-- The children of a node, in order. -/
def childrenOf (t : SpanningTree Inbox) (v : ℕ) : List ℕ :=
  ((t.getNode v).map Node.children).getD []

/-- `w` is in the subtree of `v`. -/
def InSubtree (t : SpanningTree Inbox) (v w : ℕ) : Prop := ∃ k, ancestor t w k = some v

section Ancestors

variable {t : SpanningTree Inbox} {T : Arborescence ℕ}

theorem Standing.parent_eq (ht : Standing t T) {v : ℕ} (hv : v ∈ T.verts) :
    (t.getNode v).bind Node.parent = T.parent v := by
  obtain ⟨node, hnode⟩ := ht.shaped.exists_node hv
  rw [SpanningTree.getNode, hnode]
  exact (ht.shaped.fields hnode).2.2.2.1

theorem Standing.childrenOf_eq (ht : Standing t T) : childrenOf t = T.children := by
  funext v
  by_cases hv : v ∈ T.verts
  · obtain ⟨node, hnode⟩ := ht.shaped.exists_node hv
    rw [childrenOf, SpanningTree.getNode, hnode]
    exact (ht.shaped.fields hnode).2.2.2.2
  · have hnone : t.nodes.find v = none := by
      have hiff := ht.shaped.isSome v
      simpa [hv] using hiff
    rw [childrenOf, SpanningTree.getNode, hnone, T.children_eq_nil hv]
    rfl

/-- Climbing first one link and then `k` links. -/
theorem ancestor_succ (v k : ℕ) :
    ancestor t v (k + 1) = ((t.getNode v).bind Node.parent).bind fun p ↦ ancestor t p k := by
  induction k with
  | zero => simp [ancestor]
  | succ k ih =>
    rw [ancestor, ih, Option.bind_assoc]
    rfl

theorem ancestor_of_parent {v p : ℕ} (hp : (t.getNode v).bind Node.parent = some p) (k : ℕ) :
    ancestor t v (k + 1) = ancestor t p k := by
  rw [ancestor_succ, hp, Option.bind_some]

/-- The links lead to the root and the rank falls on the way. -/
theorem Standing.climb (ht : Standing t T) {v : ℕ} (hv : v ∈ T.verts) :
    ∃ depth, ancestor t v depth = some T.root ∧
      ∀ i ≤ depth, ∃ u ∈ T.verts, ancestor t v i = some u ∧ T.rank u + i ≤ T.rank v := by
  refine T.parent_induction
    (P := fun v ↦ ∃ depth, ancestor t v depth = some T.root ∧
      ∀ i ≤ depth, ∃ u ∈ T.verts, ancestor t v i = some u ∧ T.rank u + i ≤ T.rank v)
    ?_ (fun p c hp ih ↦ ?_) hv
  · refine ⟨0, rfl, fun i hi ↦ ⟨T.root, T.root_mem, ?_, ?_⟩⟩
    · rw [Nat.le_zero.mp hi]
      rfl
    · omega
  · obtain ⟨depth, hroot, hall⟩ := ih
    obtain ⟨hc, -, hlt⟩ := T.parent_mem c p hp
    have hlink : (t.getNode c).bind Node.parent = some p := (ht.parent_eq hc).trans hp
    refine ⟨depth + 1, (ancestor_of_parent hlink depth).trans hroot, fun i hi ↦ ?_⟩
    cases i with
    | zero => exact ⟨c, hc, rfl, le_rfl⟩
    | succ i =>
      obtain ⟨u, hu, hanc, hrank⟩ := hall i (by omega)
      exact ⟨u, hu, (ancestor_of_parent hlink i).trans hanc, by omega⟩

/-- Higher ancestors have a smaller rank. -/
theorem Standing.ancestor_rank (ht : Standing t T) {v u : ℕ} {i : ℕ} (hu : u ∈ T.verts)
    (hi : ancestor t v i = some u) {m w : ℕ} (hw : ancestor t v (i + m) = some w) :
    w ∈ T.verts ∧ T.rank w + m ≤ T.rank u := by
  induction m generalizing w with
  | zero =>
    obtain rfl := Option.some.inj (hi.symm.trans hw)
    exact ⟨hu, le_rfl⟩
  | succ m ih =>
    obtain ⟨x, hx, hxw⟩ := Option.bind_eq_some_iff.mp hw
    obtain ⟨hxmem, hrank⟩ := ih hx
    rw [ht.parent_eq hxmem] at hxw
    obtain ⟨-, hwmem, hlt⟩ := T.parent_mem x w hxw
    exact ⟨hwmem, by omega⟩

/-- The vertices on the way to the root are distinct. -/
theorem Standing.acyclic (ht : Standing t T) {v : ℕ} (hv : v ∈ T.verts) :
    ∃ depth, ancestor t v depth = some T.root ∧
      ∀ i j, i < j → j ≤ depth → ancestor t v i ≠ ancestor t v j := by
  obtain ⟨depth, hroot, hall⟩ := ht.climb hv
  refine ⟨depth, hroot, fun i j hij hj heq ↦ ?_⟩
  obtain ⟨u, hu, hi, -⟩ := hall i (by omega)
  obtain ⟨m, rfl⟩ := Nat.exists_eq_add_of_lt hij
  have hrank := (ht.ancestor_rank hu hi (m := m + 1) (heq ▸ hi)).2
  omega

theorem Standing.inSubtree_iff (ht : Standing t T) {v w : ℕ} (hw : w ∈ T.verts) :
    InSubtree t v w ↔ T.Below v w := by
  constructor
  · rintro ⟨k, hk⟩
    induction k generalizing w with
    | zero =>
      obtain rfl := Option.some.inj hk
      exact Arborescence.Below.refl w
    | succ k ih =>
      cases hp : T.parent w with
      | none =>
        rw [ancestor_succ, ht.parent_eq hw, hp] at hk
        simp at hk
      | some p =>
        rw [ancestor_of_parent ((ht.parent_eq hw).trans hp)] at hk
        exact (ih (T.parent_mem w p hp).2.1 hk).tail hp
  · intro hbelow
    unfold Arborescence.Below at hbelow
    induction hbelow with
    | refl => exact ⟨0, rfl⟩
    | tail _ hp ih =>
      obtain ⟨hc, hpmem, -⟩ := T.parent_mem _ _ hp
      obtain ⟨k, hk⟩ := ih hpmem
      exact ⟨k + 1, (ancestor_of_parent ((ht.parent_eq hc).trans hp) k).trans hk⟩

/-! ### Sums over a tree -/

variable (t) in
def localValue (v : ℕ) : ℤ := ((t.getNode v).map Node.localValue).getD 0

variable (t) in
open Classical in
/-- The sum of `localValue` over the subtree of `v`. -/
noncomputable def subtreeSum (v : ℕ) : ℤ :=
  ∑ w ∈ t.nodes.ids.toFinset.filter (InSubtree t v), localValue t w

variable (t) in
/-- The sum of `localValue` over all nodes. -/
def treeSum : ℤ := ∑ w ∈ t.nodes.ids.toFinset, localValue t w

variable (T) in
/-- The weight of a subtree when node `w` weighs `10 * w`. -/
noncomputable def weight (v : ℕ) : ℤ := ∑ w ∈ T.subtree v, (w : ℤ) * 10

theorem weight_eq {v : ℕ} (hv : v ∈ T.verts) :
    weight T v = v * 10 + ((T.children v).map (weight T)).sum :=
  Arborescence.sum_subtree (fun w : ℕ ↦ (w : ℤ) * 10) hv

theorem Standing.localValue_eq (ht : Standing t T) {v : ℕ} (hv : v ∈ T.verts) :
    localValue t v = v * 10 := by
  obtain ⟨node, hnode⟩ := ht.shaped.exists_node hv
  rw [localValue, SpanningTree.getNode, hnode]
  exact (ht.shaped.fields hnode).2.2.1

theorem Standing.toFinset_ids (ht : Standing t T) : t.nodes.ids.toFinset = T.verts := by
  ext v
  rw [List.mem_toFinset, ht.shaped.mem_ids]

theorem Standing.subtreeSum_eq (ht : Standing t T) (v : ℕ) : subtreeSum t v = weight T v := by
  classical
  unfold subtreeSum weight
  refine Finset.sum_congr ?_ fun w hw ↦ ?_
  · ext w
    rw [Finset.mem_filter, ht.toFinset_ids, Arborescence.mem_subtree]
    exact and_congr_right ht.inSubtree_iff
  · exact ht.localValue_eq (Arborescence.mem_subtree.mp hw).1

theorem Standing.treeSum_eq (ht : Standing t T) : treeSum t = weight T T.root := by
  unfold treeSum weight
  rw [ht.toFinset_ids, Arborescence.subtree_root]
  exact Finset.sum_congr rfl fun w hw ↦ ht.localValue_eq hw

end Ancestors

/-- `build` yields a spanning tree of the component of the root. Assumes: the calls of `addEdge` on
a new graph of `n` vertices were all accepted, and the root is a vertex. Then `build` returns, on
any previous tree, with nodes exactly for the vertices connected to the root; the root alone has no
parent, every other node hangs from its parent by an added edge and is listed there exactly once and
nowhere else; and the parent links lead to the root without a cycle. -/
theorem build_spans (n : ℕ) (edges : List (ℤ × ℤ)) (g : Graph)
    (hg : (Graph.new n).addEdges edges = .ok g) (rootId : ℤ) (hpos : 0 ≤ rootId)
    (hlt : rootId < n) (inbox : Inbox) (old : SpanningTree Inbox) :
    ∃ (t : SpanningTree Inbox) (r : ℕ), SpanningTree.build inbox old g rootId = .ok t ∧
      rootId = r ∧ t.root = some r ∧
      (∀ v, (t.getNode v).isSome ↔ Relation.ReflTransGen (Joined edges) r v) ∧
      (∀ q parent c, t.getNode q = some parent → c ∈ parent.children → (t.getNode c).isSome) ∧
      ∀ v node, t.getNode v = some node → node.id = v ∧ (node.parent = none ↔ v = r) ∧
        (∀ p, node.parent = some p → Joined edges p v ∧
          ∃ parent, t.getNode p = some parent ∧ parent.children.count v = 1) ∧
        (∀ q other, t.getNode q = some other → v ∈ other.children → node.parent = some q) ∧
        ∃ depth, ancestor t v depth = some r ∧
          ∀ i j, i < j → j ≤ depth → ancestor t v i ≠ ancestor t v j := by
  obtain ⟨r, rfl⟩ := Int.eq_ofNat_of_zero_le hpos
  obtain ⟨t, T, hrun, ht, hroot, hreach, hjoined, -⟩ :=
    build_spec (builtFrom_addEdges hg) (by omega : r < n) inbox old
  have hlisted : ∀ q other c, t.getNode q = some other → c ∈ other.children →
      T.parent c = some q := fun q other c hq hc ↦ by
    rw [(ht.shaped.fields hq).2.2.2.2] at hc
    exact (T.mem_children q c).mp hc
  refine ⟨t, r, hrun, rfl, by rw [ht.root_eq, hroot],
    fun v ↦ (ht.shaped.isSome v).trans (hreach v), fun q parent c hq hc ↦ ?_, fun v node hv ↦ ?_⟩
  · exact (ht.shaped.isSome c).mpr (T.parent_mem c q (hlisted q parent c hq hc)).1
  · obtain ⟨hmem, hid, -, hparent, -⟩ := ht.shaped.fields hv
    refine ⟨hid, ?_, fun p hp ↦ ?_, fun q other hq hc ↦ ?_, ?_⟩
    · rw [hparent, T.parent_eq_none v hmem, hroot]
    · rw [hparent] at hp
      obtain ⟨-, hpmem, -⟩ := T.parent_mem v p hp
      obtain ⟨parent, hnode⟩ := ht.shaped.exists_node hpmem
      refine ⟨hjoined v p hp, parent, hnode, ?_⟩
      rw [(ht.shaped.fields hnode).2.2.2.2]
      exact List.count_eq_one_of_mem (T.children_nodup p) ((T.mem_children p v).mpr hp)
    · rw [hparent]
      exact hlisted q other v hq hc
    · rw [← hroot]
      exact ht.acyclic hmem

/-- Four vertices with a double edge, a self-loop and an isolated vertex. -/
theorem build_spans_example :
    ∃ (t : SpanningTree Unit) (r : ℕ), SpanningTree.build () .unbuilt
        { numVertices := 4, adj := [[1, 1], [0, 1, 1, 0], [], []] } 0 = .ok t ∧
      (0 : ℤ) = r ∧ t.root = some r ∧
      ∀ v, (t.getNode v).isSome ↔ Relation.ReflTransGen (Joined [(0, 1), (1, 1), (1, 0)]) r v := by
  obtain ⟨t, r, hrun, hr, hroot, hreach, -⟩ := build_spans 4 [(0, 1), (1, 1), (1, 0)]
    { numVertices := 4, adj := [[1, 1], [0, 1, 1, 0], [], []] } rfl 0 (by decide) (by decide) ()
    .unbuilt
  exact ⟨t, r, hrun, hr, hroot, hreach⟩

end WsServer.Convergecast
