import Mathlib.Combinatorics.SimpleGraph.Metric

/-!
# Breadth-first search in an undirected graph

A breadth-first search has processed some vertices (`done`) and holds others in its queue.
`Frontier` says that both lists together are ordered by the distance to the root, that the queue
spans at most two consecutive distances, and that the neighbours of every processed vertex were
found. Then all vertices up to the distance of the first queue entry are found
(`Frontier.mem_of_dist_le`), so a vertex first found from that entry is exactly one edge further
away (`Frontier.dist_found`), and processing the entry keeps the invariant (`Frontier.explore`).
-/

set_option autoImplicit false
set_option relaxedAutoImplicit false

namespace WsServer.Foundations

variable {V : Type} {G : SimpleGraph V} {r : V}

/-- The last edge of a shortest walk. -/
theorem exists_adj_of_dist_succ {v : V} (hreach : G.Reachable r v) (hne : v ≠ r) :
    ∃ p, G.Adj p v ∧ G.Reachable r p ∧ G.dist r v = G.dist r p + 1 := by
  obtain ⟨walk, hlength⟩ := hreach.exists_walk_length_eq_dist
  have hnil : ¬walk.Nil := fun hnil ↦ hne hnil.eq.symm
  have hadj : G.Adj walk.penultimate v := walk.adj_penultimate hnil
  have hle : G.dist r walk.penultimate ≤ walk.dropLast.length := SimpleGraph.dist_le _
  have hdrop : walk.dropLast.length + 1 = walk.length := walk.length_dropLast_add_one hnil
  have hstep : G.dist r v ≤ G.dist r walk.penultimate + G.dist walk.penultimate v :=
    hadj.reachable.dist_triangle_right r
  rw [SimpleGraph.dist_eq_one_iff_adj.mpr hadj] at hstep
  exact ⟨walk.penultimate, hadj, walk.dropLast.reachable, by omega⟩

/-- The state of a search from `r`: `done` was processed, `queue` was found and waits. -/
structure Frontier (G : SimpleGraph V) (r : V) (done queue : List V) : Prop where
  root_mem : r ∈ done ++ queue
  reachable : ∀ v ∈ done ++ queue, G.Reachable r v
  sorted : (done ++ queue).Pairwise (G.dist r · ≤ G.dist r ·)
  near : ∀ u ∈ queue.head?, ∀ v ∈ queue, G.dist r v ≤ G.dist r u + 1
  closed : ∀ u ∈ done, ∀ v, G.Adj u v → v ∈ done ++ queue

theorem frontier_initial (G : SimpleGraph V) (r : V) : Frontier G r [] [r] where
  root_mem := List.mem_singleton_self r
  reachable v hv := by rw [List.mem_singleton.mp hv]
  sorted := List.pairwise_singleton _ r
  near u hu v hv := by
    obtain rfl := Option.some.inj hu
    rw [List.mem_singleton.mp hv]
    exact Nat.le_succ _
  closed u hu := absurd hu List.not_mem_nil

namespace Frontier

variable {done queue : List V} {u : V}

/-- Whatever is not further away than the first entry of the queue is found. -/
theorem mem_of_dist_le (hF : Frontier G r done (u :: queue)) {v : V} (hreach : G.Reachable r v)
    (hle : G.dist r v ≤ G.dist r u) : v ∈ done ++ u :: queue := by
  -- along a shortest walk: the vertex before `v` is nearer than `u`, hence processed
  induction hd : G.dist r v generalizing v with
  | zero =>
    rw [← hreach.dist_eq_zero_iff.mp hd]
    exact hF.root_mem
  | succ d ih =>
    have hne : v ≠ r := by
      rintro rfl
      simp at hd
    obtain ⟨p, hadj, hreachp, hdist⟩ := exists_adj_of_dist_succ hreach hne
    have hp : p ∈ done ++ u :: queue := ih hreachp (by omega) (by omega)
    rcases List.mem_append.mp hp with hp | hp
    · exact hF.closed p hp v hadj
    · have hsorted := (List.pairwise_append.mp hF.sorted).2.1
      have hup : G.dist r u ≤ G.dist r p := by
        rcases List.mem_cons.mp hp with rfl | hp
        · exact le_rfl
        · exact (List.pairwise_cons.mp hsorted).1 p hp
      omega

/-- A vertex found from the first entry of the queue is one edge further away. -/
theorem dist_found (hF : Frontier G r done (u :: queue)) {v : V} (hadj : G.Adj u v)
    (hv : v ∉ done ++ u :: queue) : G.Reachable r v ∧ G.dist r v = G.dist r u + 1 := by
  have hu : G.Reachable r u := hF.reachable u (by simp)
  have hreach : G.Reachable r v := hu.trans hadj.reachable
  have hlt : G.dist r u < G.dist r v := not_le.mp fun hle ↦ hv (hF.mem_of_dist_le hreach hle)
  have hle : G.dist r v ≤ G.dist r u + G.dist u v := hadj.reachable.dist_triangle_right r
  rw [SimpleGraph.dist_eq_one_iff_adj.mpr hadj] at hle
  exact ⟨hreach, by omega⟩

/-- Processing the first entry of the queue. -/
theorem explore (hF : Frontier G r done (u :: queue)) {found : List V}
    (hfound : ∀ v ∈ found, G.Adj u v ∧ v ∉ done ++ u :: queue)
    (hall : ∀ v, G.Adj u v → v ∈ done ++ u :: queue ++ found) :
    Frontier G r (done ++ [u]) (queue ++ found) := by
  have hlist : done ++ [u] ++ (queue ++ found) = done ++ u :: queue ++ found := by simp
  have hlevel : ∀ v ∈ found, G.Reachable r v ∧ G.dist r v = G.dist r u + 1 := fun v hv ↦
    hF.dist_found (hfound v hv).1 (hfound v hv).2
  have hsorted := List.pairwise_append.mp hF.sorted
  have hmax : ∀ x ∈ done ++ u :: queue, G.dist r x ≤ G.dist r u + 1 := by
    intro x hx
    rcases List.mem_append.mp hx with hx | hx
    · exact (hsorted.2.2 x hx u List.mem_cons_self).trans (Nat.le_succ _)
    · exact hF.near u rfl x hx
  refine ⟨?_, ?_, ?_, ?_, ?_⟩
  · rw [hlist]
    exact List.mem_append_left _ hF.root_mem
  · rw [hlist]
    intro v hv
    rcases List.mem_append.mp hv with hv | hv
    · exact hF.reachable v hv
    · exact (hlevel v hv).1
  · rw [hlist, List.pairwise_append]
    refine ⟨hF.sorted, List.pairwise_of_forall_mem_list fun x hx y hy ↦ ?_, fun x hx y hy ↦ ?_⟩
    · rw [(hlevel x hx).2, (hlevel y hy).2]
    · rw [(hlevel y hy).2]
      exact hmax x hx
  · -- the new head of the queue is at least as far away as `u`
    intro w hw v hv
    have hwmem : w ∈ queue ++ found := List.mem_of_mem_head? hw
    have huw : G.dist r u ≤ G.dist r w := by
      rcases List.mem_append.mp hwmem with hwq | hwf
      · exact (List.pairwise_cons.mp hsorted.2.1).1 w hwq
      · rw [(hlevel w hwf).2]
        exact Nat.le_succ _
    have hv' : G.dist r v ≤ G.dist r u + 1 := by
      rcases List.mem_append.mp hv with hvq | hvf
      · exact hmax v (List.mem_append_right _ (List.mem_cons_of_mem _ hvq))
      · exact (hlevel v hvf).2.le
    omega
  · rw [hlist]
    intro x hx v hadj
    rcases List.mem_append.mp hx with hx | hx
    · exact List.mem_append_left _ (hF.closed x hx v hadj)
    · rw [List.mem_singleton.mp hx] at hadj
      exact hall v hadj

end Frontier

end WsServer.Foundations
