import WsServer.Convergecast.ShortestPaths

/-!
# Edges that leave the tree unchanged

`addEdge` appends at the end of two adjacency lists, so a round of `build` on the larger graph
visits the old neighbours first and then at most one new one, twice for an edge from a vertex to
itself. When the ends of the edge are equally far from the root, the frontier contains the new
neighbour by then (`Levelled.mem_of_redundant`), so both runs of the loop do the same round by round
(`Levelled.visitQueue_eq`).
-/

set_option autoImplicit false
set_option relaxedAutoImplicit false

namespace WsServer.Convergecast

open Foundations SpanningTree

variable {Inbox : Type}

/-! ### One more edge -/

/-- What `addEdge(a, b)` appends to the neighbours of `u`. -/
def appended (a b u : ℕ) : List ℕ := (if u = a then [b] else []) ++ if u = b then [a] else []

theorem mem_appended {a b u v : ℕ} (hv : v ∈ appended a b u) :
    (u = a ∧ v = b) ∨ (u = b ∧ v = a) := by
  rcases List.mem_append.mp hv with hv | hv
  · split_ifs at hv with hu
    · exact Or.inl ⟨hu, List.mem_singleton.mp hv⟩
    · exact absurd hv List.not_mem_nil
  · split_ifs at hv with hu
    · exact Or.inr ⟨hu, List.mem_singleton.mp hv⟩
    · exact absurd hv List.not_mem_nil

theorem adj_addEdge {g g' : Graph} {a b : ℕ} (hadd : g.addEdge a b = .ok g') :
    g'.adj = (g.adj.modify a (· ++ [b])).modify b (· ++ [a]) := by
  unfold Graph.addEdge Graph.pushBack at hadd
  simp only [Int.toNat_natCast, bind] at hadd
  split_ifs at hadd with hrange ha
  · simp only [Except.bind] at hadd
    split_ifs at hadd
    rw [← Except.ok.inj hadd]
  · cases hadd

theorem neighbors_addEdge {g g' : Graph} {a b : ℕ} (hadd : g.addEdge a b = .ok g') {u : ℕ}
    {vs : List ℕ} (hvs : g.neighbors u = .ok vs) : g'.neighbors u = .ok (vs ++ appended a b u) := by
  have hu : g.adj[u]? = some vs := by
    unfold Graph.neighbors at hvs
    split at hvs
    · rename_i vs' hvs'
      rw [hvs', Except.ok.inj hvs]
    · cases hvs
  simp only [Graph.neighbors, adj_addEdge hadd, List.getElem?_modify, hu, Option.map_eq_map,
    Option.map_some, appended]
  by_cases hua : a = u <;> by_cases hub : b = u <;> simp [hua, hub, Ne.symm]

section Visits

variable {inbox : Inbox} {u : ℕ}

theorem visitNeighbors_append (vs ws : List ℕ) (s : Search Inbox) :
    visitNeighbors inbox u (vs ++ ws) s =
      (visitNeighbors inbox u vs s).bind (visitNeighbors inbox u ws) := by
  induction vs generalizing s with
  | nil => rfl
  | cons v vs ih =>
    rw [List.cons_append, visitNeighbors, visitNeighbors]
    cases hv : s.visited[v]? with
    | none => rfl
    | some known =>
      cases known with
      | true => exact ih s
      | false =>
        simp only [bind]
        cases (s.nodes.assign v (Node.new inbox v (s.nodes.get u))).deref u with
        | error e => rfl
        | ok parent => exact ih _

/-- Neighbours that were found before change nothing. -/
theorem visitNeighbors_of_visited {vs : List ℕ} {s : Search Inbox}
    (hvs : ∀ v ∈ vs, s.visited[v]? = some true) : visitNeighbors inbox u vs s = .ok s := by
  induction vs with
  | nil => rfl
  | cons v vs ih =>
    obtain ⟨hv, hvs⟩ := List.forall_mem_cons.mp hvs
    rw [visitNeighbors, hv]
    exact ih hvs

end Visits

/-! ### Redundant edges -/

/-- The ends of the edge are at the same distance from the root, or both unreachable from it, or
already adjacent. -/
def Redundant (edges : List (ℤ × ℤ)) (r u v : ℕ) : Prop :=
  ((undirected edges).Reachable r u ∧ (undirected edges).Reachable r v ∧
      (undirected edges).dist r u = (undirected edges).dist r v) ∨
    (¬(undirected edges).Reachable r u ∧ ¬(undirected edges).Reachable r v) ∨ Joined edges u v

theorem Redundant.symm {edges : List (ℤ × ℤ)} {r u v : ℕ} (h : Redundant edges r u v) :
    Redundant edges r v u := by
  rcases h with ⟨hu, hv, hdist⟩ | ⟨hu, hv⟩ | hjoined
  · exact Or.inl ⟨hv, hu, hdist.symm⟩
  · exact Or.inr (Or.inl ⟨hv, hu⟩)
  · exact Or.inr (Or.inr hjoined.symm)

section Runs

variable {inbox : Inbox} {n r : ℕ} {edges : List (ℤ × ℤ)} {done : List ℕ} {s : Search Inbox}
  {g g' : Graph}

/-- When the loop has processed one end of a redundant edge, it has found the other. -/
theorem Levelled.mem_of_redundant (hs : Levelled inbox n r edges done s) {u v : ℕ} {queue : List ℕ}
    (hqueue : s.queue = u :: queue) {s₁ : Search Inbox} (hkept : s.nodes.ids ⊆ s₁.nodes.ids)
    (hall : ∀ w, Joined edges u w → w ∈ s₁.nodes.ids) (h : Redundant edges r u v) :
    v ∈ s₁.nodes.ids := by
  have hids : s.nodes.ids = done ++ u :: queue := hqueue ▸ hs.ids_eq
  have hfrontier : Frontier (undirected edges) r done (u :: queue) := hqueue ▸ hs.frontier
  rcases h with ⟨-, hv, hdist⟩ | ⟨hu, -⟩ | hjoined
  · apply hkept
    rw [hids]
    exact hfrontier.mem_of_dist_le hv hdist.ge
  · exact absurd (hfrontier.reachable u (by simp)) hu
  · exact hall v hjoined

/-- A redundant edge changes no round of the loop. -/
theorem Levelled.visitQueue_eq (hs : Levelled inbox n r edges done s) (hg : BuiltFrom g n edges)
    {a b : ℕ} (hadd : g.addEdge a b = .ok g') (hredundant : Redundant edges r a b) (fuel : ℕ) :
    visitQueue inbox g' fuel s = visitQueue inbox g fuel s := by
  induction fuel generalizing s done with
  | zero => simp only [visitQueue]
  | succ fuel ih =>
    unfold visitQueue
    cases hqueue : s.queue with
    | nil => rfl
    | cons u queue =>
      obtain ⟨vs, s₁, hneighbors, hvs, hvisit, hs₁, hkept, hall⟩ := hs.step hg hqueue
      have hfound : ∀ v ∈ appended a b u, v ∈ s₁.nodes.ids := by
        intro v hv
        refine hs.mem_of_redundant hqueue hkept (fun w hw ↦ hall w ((hvs w).mpr hw)) ?_
        rcases mem_appended hv with ⟨rfl, rfl⟩ | ⟨rfl, rfl⟩
        · exact hredundant
        · exact hredundant.symm
      have hvisited : ∀ v ∈ appended a b u, s₁.visited[v]? = some true := by
        intro v hv
        rw [hs₁.grown.visited v (hs₁.grown.lt v (hfound v hv)), decide_eq_true (hfound v hv)]
      have hround : visitNeighbors inbox u (vs ++ appended a b u) { s with queue := queue } =
          .ok s₁ := by
        rw [visitNeighbors_append, hvisit]
        exact visitNeighbors_of_visited hvisited
      simp only [neighbors_addEdge hadd hneighbors, hneighbors, hround, hvisit, bind, Except.bind]
      exact ih hs₁

end Runs

/-- One more edge between vertices at the same distance from the root, unreachable or adjacent ones:
`build` gives the same nodes, parents and lists of children. -/
theorem build_of_redundant (n : ℕ) (edges : List (ℤ × ℤ)) (g : Graph)
    (hg : (Graph.new n).addEdges edges = .ok g) (r : ℕ) (hr : r < n) (u v : ℕ) (g' : Graph)
    (hadd : g.addEdge u v = .ok g') (hredundant : Redundant edges r u v) (inbox : Inbox)
    (old old' : SpanningTree Inbox) :
    ∃ t, build inbox old g r = .ok t ∧ build inbox old' g' r = .ok t := by
  have hbuilt : BuiltFrom g n edges := builtFrom_addEdges hg
  have hsize' : g'.size = n := by
    rcases hbuilt.addEdge ((u : ℤ), (v : ℤ)) with herror | ⟨g'', hok, hg''⟩
    · rw [hadd] at herror
      cases herror
    · obtain rfl := Except.ok.inj (hadd.symm.trans hok)
      exact hg''.size_eq
  obtain ⟨t, -, -, -, hrun, -⟩ := build_levelled hbuilt hr inbox old
  refine ⟨t, hrun, ?_⟩
  rw [build_eq hsize' hr, (levelled_initial hr).visitQueue_eq hbuilt hadd hredundant,
    ← build_eq hbuilt.size_eq hr old, hrun]

/-- The root is adjacent to two vertices, and the new edge joins these. -/
theorem build_of_redundant_example :
    ∃ t : SpanningTree Unit, build () .unbuilt
        { numVertices := 3, adj := [[1, 2], [0], [0]] } 0 = .ok t ∧
      build () .unbuilt { numVertices := 3, adj := [[1, 2], [0, 2], [0, 1]] } 0 = .ok t := by
  have hadj : ∀ v, v = 1 ∨ v = 2 → (undirected [(0, 1), (0, 2)]).Adj 0 v := by
    rintro v (rfl | rfl) <;> exact undirected_adj.mpr ⟨by decide, by simp [Joined]⟩
  have h₁ := hadj 1 (Or.inl rfl)
  have h₂ := hadj 2 (Or.inr rfl)
  refine build_of_redundant 3 [(0, 1), (0, 2)] { numVertices := 3, adj := [[1, 2], [0], [0]] } rfl
    0 (by decide) 1 2 { numVertices := 3, adj := [[1, 2], [0, 2], [0, 1]] } rfl
    (Or.inl ⟨h₁.reachable, h₂.reachable, ?_⟩) () .unbuilt .unbuilt
  rw [SimpleGraph.dist_eq_one_iff_adj.mpr h₁, SimpleGraph.dist_eq_one_iff_adj.mpr h₂]

end WsServer.Convergecast
