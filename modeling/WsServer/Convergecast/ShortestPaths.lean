import WsServer.Convergecast.Standing
import WsServer.Foundations.BreadthFirst

/-!
# `build` finds shortest paths

The queue of `build` is the queue of a breadth-first search: `Levelled` extends the invariant of the
search by the frontier of the processed vertices and by the distances along the parent links. One
round of the loop keeps it (`Levelled.step`), so in the finished tree the number of parent links
from a vertex to the root is the distance in the undirected graph (`build_shortest`).
-/

set_option autoImplicit false
set_option relaxedAutoImplicit false

namespace WsServer.Convergecast

open Foundations

variable {Inbox : Type}

/-- The undirected graph of the added edges. An edge from a vertex to itself is on no shortest
path and is left out. -/
def undirected (edges : List (ℤ × ℤ)) : SimpleGraph ℕ := SimpleGraph.fromRel (Joined edges)

theorem undirected_adj {edges : List (ℤ × ℤ)} {u v : ℕ} :
    (undirected edges).Adj u v ↔ u ≠ v ∧ Joined edges u v := by
  have hcomm : Joined edges v u ↔ Joined edges u v := or_comm
  rw [undirected, SimpleGraph.fromRel_adj, hcomm, or_self]

/-- The search after the vertices `done` were processed. -/
structure Levelled (inbox : Inbox) (n r : ℕ) (edges : List (ℤ × ℤ)) (done : List ℕ)
    (s : Search Inbox) : Prop where
  grown : Grown inbox n r (Joined edges) s
  ids_eq : s.nodes.ids = done ++ s.queue
  frontier : Frontier (undirected edges) r done s.queue
  level : ∀ v node p, s.nodes.find v = some node → node.parent = some p →
    (undirected edges).dist r v = (undirected edges).dist r p + 1

section Levelled

variable {inbox : Inbox} {n r : ℕ} {edges : List (ℤ × ℤ)} {done : List ℕ} {s : Search Inbox}
  {g : Graph}

theorem levelled_initial (hr : r < n) : Levelled inbox n r edges [] (initial inbox n r) where
  grown := grown_initial hr
  ids_eq := rfl
  frontier := frontier_initial _ r
  level v node p hv hp := by
    have hgrown : Grown inbox n r (Joined edges) (initial inbox n r) := grown_initial hr
    have hids : (initial inbox n r).nodes.ids = [r] := rfl
    obtain ⟨-, hmem, hlt⟩ := hgrown.parent v node p hv hp
    have hmemv : v ∈ (initial inbox n r).nodes.ids := (hgrown.present v).mp (by simp [hv])
    rw [hids, List.mem_singleton] at hmem hmemv
    simp [hmem, hmemv] at hlt

/-- One round of the loop `while (!q.empty())`. -/
theorem Levelled.step (hs : Levelled inbox n r edges done s) (hg : BuiltFrom g n edges) {u : ℕ}
    {queue : List ℕ} (hqueue : s.queue = u :: queue) :
    ∃ vs s₁, g.neighbors u = .ok vs ∧ (∀ v, v ∈ vs ↔ Joined edges u v) ∧
      SpanningTree.visitNeighbors inbox u vs { s with queue := queue } = .ok s₁ ∧
      Levelled inbox n r edges (done ++ [u]) s₁ ∧ s.nodes.ids ⊆ s₁.nodes.ids ∧
      ∀ v ∈ vs, v ∈ s₁.nodes.ids := by
  have hids : s.nodes.ids = done ++ u :: queue := hqueue ▸ hs.ids_eq
  have hfrontier : Frontier (undirected edges) r done (u :: queue) := hqueue ▸ hs.frontier
  have hu : u ∈ s.nodes.ids := by simp [hids]
  have hlt : u < g.adj.length := by
    rw [hg.length_eq]
    exact hs.grown.lt u hu
  have hvs := hg.mem_adj u _ (List.getElem?_eq_getElem hlt)
  have hpopped : Grown inbox n r (Joined edges) { s with queue := queue } := { hs.grown with }
  obtain ⟨s₁, found, hrun, hs₁, hids₁, hqueue₁, hall, hparent⟩ := visitNeighbors_spec hpopped hu
    fun v hv ↦ ⟨(hg.lt u v ((hvs v).mp hv)).2, (hvs v).mp hv⟩
  have hfound : ∀ v ∈ found, (undirected edges).Adj u v ∧ v ∉ done ++ u :: queue := by
    intro v hv
    have hnew : v ∉ s.nodes.ids := by
      have hnodup := hs₁.nodup
      rw [hids₁, List.nodup_append] at hnodup
      exact fun hold ↦ hnodup.2.2 v hold v hv rfl
    obtain ⟨child, hchild, hp⟩ := (hparent v u).mpr (Or.inl ⟨hv, rfl⟩)
    refine ⟨undirected_adj.mpr ⟨?_, (hs₁.parent v child u hchild hp).1⟩, hids ▸ hnew⟩
    rintro rfl
    exact hnew hu
  refine ⟨_, s₁, by rw [Graph.neighbors, List.getElem?_eq_getElem hlt], hvs, hrun,
    ⟨hs₁, ?_, ?_, fun v node p hv hp ↦ ?_⟩, ?_, hall⟩
  · simp [hids₁, hids, hqueue₁]
  · rw [hqueue₁]
    refine hfrontier.explore hfound fun v hadj ↦ ?_
    rw [← hids, ← hids₁]
    exact hall v ((hvs v).mpr (undirected_adj.mp hadj).2)
  · rcases (hparent v p).mp ⟨node, hv, hp⟩ with ⟨hmem, rfl⟩ | ⟨old, hold, hpold⟩
    · exact (hfrontier.dist_found (hfound v hmem).1 (hfound v hmem).2).2
    · exact hs.level v old p hold hpold
  · rw [hids₁]
    exact List.subset_append_left _ _

/-- The whole loop. -/
theorem Levelled.run (hs : Levelled inbox n r edges done s) (hg : BuiltFrom g n edges) {fuel : ℕ}
    {s' : Search Inbox} (hrun : SpanningTree.visitQueue inbox g fuel s = .ok s') :
    ∃ done', Levelled inbox n r edges done' s' := by
  induction fuel generalizing s done with
  | zero =>
    unfold SpanningTree.visitQueue at hrun
    cases hqueue : s.queue with
    | nil =>
      rw [hqueue] at hrun
      obtain rfl := Except.ok.inj hrun
      exact ⟨done, hs⟩
    | cons u queue =>
      rw [hqueue] at hrun
      cases hrun
  | succ fuel ih =>
    unfold SpanningTree.visitQueue at hrun
    cases hqueue : s.queue with
    | nil =>
      rw [hqueue] at hrun
      obtain rfl := Except.ok.inj hrun
      exact ⟨done, hs⟩
    | cons u queue =>
      obtain ⟨vs, s₁, hneighbors, -, hvisit, hs₁, -⟩ := hs.step hg hqueue
      simp only [hqueue, hneighbors, hvisit, bind, Except.bind] at hrun
      exact ih hs₁ hrun

end Levelled

/-- The built tree, with the search that found it. -/
theorem build_levelled {n r : ℕ} {edges : List (ℤ × ℤ)} {g : Graph} (hg : BuiltFrom g n edges)
    (hr : r < n) (inbox : Inbox) (old : SpanningTree Inbox) :
    ∃ t T s done, SpanningTree.build inbox old g r = .ok t ∧ Standing t T ∧ T.root = r ∧
      t.nodes = s.nodes ∧ Levelled inbox n r edges done s := by
  obtain ⟨t, T, hrun, ht, hroot, -⟩ := build_spec hg hr inbox old
  have hloop := hrun
  rw [build_eq hg.size_eq hr] at hloop
  cases hsearch : SpanningTree.visitQueue inbox g n (initial inbox n r) with
  | error e => simp [hsearch, Except.map] at hloop
  | ok s =>
    rw [hsearch] at hloop
    obtain ⟨done, hs⟩ := (levelled_initial hr).run hg hsearch
    exact ⟨t, T, s, done, hrun, ht, hroot, by rw [← Except.ok.inj hloop], hs⟩

/-- Climbing a parent link takes one edge off the distance. -/
theorem Levelled.dist_ancestor {inbox : Inbox} {n r : ℕ} {edges : List (ℤ × ℤ)} {done : List ℕ}
    {s : Search Inbox} (hs : Levelled inbox n r edges done s) {t : SpanningTree Inbox}
    (ht : t.nodes = s.nodes) {v k w : ℕ} (hw : ancestor t v k = some w) :
    (undirected edges).dist r v = (undirected edges).dist r w + k := by
  induction k generalizing w with
  | zero =>
    obtain rfl := Option.some.inj hw
    rfl
  | succ k ih =>
    obtain ⟨x, hx, hxw⟩ := Option.bind_eq_some_iff.mp hw
    obtain ⟨node, hnode, hparent⟩ := Option.bind_eq_some_iff.mp hxw
    rw [SpanningTree.getNode, ht] at hnode
    have hlevel := hs.level x node w hnode hparent
    rw [ih hx, hlevel]
    omega

/-- The parent links from a vertex of the tree to the root are as many as the edges of a shortest
path between them. -/
theorem build_shortest (n : ℕ) (edges : List (ℤ × ℤ)) (g : Graph)
    (hg : (Graph.new n).addEdges edges = .ok g) (rootId : ℤ) (hpos : 0 ≤ rootId)
    (hlt : rootId < n) (inbox : Inbox) (old : SpanningTree Inbox) :
    ∃ (t : SpanningTree Inbox) (r : ℕ), SpanningTree.build inbox old g rootId = .ok t ∧
      rootId = r ∧ t.root = some r ∧
      ∀ v, (t.getNode v).isSome → (undirected edges).Reachable r v ∧
        ∀ links, ancestor t v links = some r ↔ links = (undirected edges).dist r v := by
  obtain ⟨r, rfl⟩ := Int.eq_ofNat_of_zero_le hpos
  obtain ⟨t, T, s, done, hrun, ht, hroot, hnodes, hs⟩ :=
    build_levelled (builtFrom_addEdges hg) (by omega : r < n) inbox old
  refine ⟨t, r, hrun, rfl, by rw [ht.root_eq, hroot], fun v hv ↦ ?_⟩
  have hmem : v ∈ s.nodes.ids := (hs.grown.present v).mp (by rwa [← hnodes])
  have hcount : ∀ links, ancestor t v links = some r → links = (undirected edges).dist r v := by
    intro links hlinks
    have hdist := hs.dist_ancestor hnodes hlinks
    rw [SimpleGraph.dist_self] at hdist
    omega
  obtain ⟨depth, hdepth, -⟩ := ht.climb ((ht.shaped.isSome v).mp hv)
  rw [hroot] at hdepth
  refine ⟨hs.frontier.reachable v (hs.ids_eq ▸ hmem), fun links ↦ ⟨hcount links, ?_⟩⟩
  rintro rfl
  rwa [← hcount depth hdepth]

theorem build_shortest_example :
    ∃ (t : SpanningTree Unit) (r : ℕ), SpanningTree.build () .unbuilt
        { numVertices := 4, adj := [[1, 2], [0, 2], [1, 0, 3], [2]] } 0 = .ok t ∧
      (0 : ℤ) = r ∧ t.root = some r ∧
      ∀ v, (t.getNode v).isSome →
        (undirected [(0, 1), (1, 2), (2, 0), (2, 3)]).Reachable r v ∧
        ∀ links, ancestor t v links = some r ↔
          links = (undirected [(0, 1), (1, 2), (2, 0), (2, 3)]).dist r v :=
  build_shortest 4 [(0, 1), (1, 2), (2, 0), (2, 3)]
    { numVertices := 4, adj := [[1, 2], [0, 2], [1, 0, 3], [2]] } rfl 0 (by decide) (by decide) ()
    .unbuilt

end WsServer.Convergecast
