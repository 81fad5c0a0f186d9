import WsServer.Convergecast.Model

/-!
# The breadth-first search of `build`

The search keeps an invariant over the node map, the visited marks and the queue at once (`Grown`):
the map holds exactly the marked vertices, each with a parent that was inserted earlier along an
added edge, and child lists agree with parent links. When the queue is empty the map is closed under
edges (`visitQueue_spec`).
-/

set_option autoImplicit false
set_option relaxedAutoImplicit false

namespace WsServer.Convergecast

variable {Inbox : Type}

/-! ### Graphs built by `addEdge` -/

/-- `(u, v)` was added as an edge, in one of the two orders. -/
def Joined (edges : List (ℤ × ℤ)) (u v : ℕ) : Prop :=
  ((u : ℤ), (v : ℤ)) ∈ edges ∨ ((v : ℤ), (u : ℤ)) ∈ edges

/-- The adjacency lists of a graph hold exactly the added edges, all of them in range. -/
structure BuiltFrom (g : Graph) (n : ℕ) (edges : List (ℤ × ℤ)) : Prop where
  size_eq : g.size = n
  length_eq : g.adj.length = n
  mem_adj : ∀ u vs, g.adj[u]? = some vs → ∀ v, v ∈ vs ↔ Joined edges u v
  lt : ∀ u v, Joined edges u v → u < n ∧ v < n

theorem builtFrom_new (n : ℕ) : BuiltFrom (Graph.new n) n [] := by
  refine ⟨rfl, by simp [Graph.new], fun u vs hvs v ↦ ?_, by simp [Joined]⟩
  have hnil : vs = [] := by
    have hmem := List.mem_of_getElem? hvs
    exact List.eq_of_mem_replicate hmem
  simp [hnil, Joined]

theorem joined_append {edges : List (ℤ × ℤ)} {a b u v : ℕ} :
    Joined (edges ++ [((a : ℤ), (b : ℤ))]) u v ↔
      Joined edges u v ∨ (u = a ∧ v = b) ∨ (u = b ∧ v = a) := by
  simp only [Joined, List.mem_append, List.mem_singleton, Prod.mk.injEq, Nat.cast_inj]
  tauto

theorem pushBack_eq {adj : List (List ℕ)} {u : ℕ} (hu : u < adj.length) (v : ℕ) :
    Graph.pushBack adj u v = .ok (adj.modify u (· ++ [v])) := if_pos hu

theorem mem_of_pushBack {adj : List (List ℕ)} {a b u v : ℕ} {vs : List ℕ}
    (hvs : (adj.modify a (· ++ [b]))[u]? = some vs) :
    ∃ vs₀, adj[u]? = some vs₀ ∧ (v ∈ vs ↔ v ∈ vs₀ ∨ (u = a ∧ v = b)) := by
  rw [List.getElem?_modify, Option.map_eq_map, Option.map_eq_some_iff] at hvs
  obtain ⟨vs₀, hvs₀, rfl⟩ := hvs
  refine ⟨vs₀, hvs₀, ?_⟩
  by_cases hua : a = u
  · simp [hua]
  · simp [hua, Ne.symm hua]

/-- A call of `addEdge` throws, or its vertices are in range and get joined. -/
theorem BuiltFrom.addEdge {g : Graph} {n : ℕ} {edges : List (ℤ × ℤ)} (hg : BuiltFrom g n edges)
    (e : ℤ × ℤ) :
    g.addEdge e.1 e.2 = .error (.outOfRange "Invalid vertex index") ∨
      ∃ g', g.addEdge e.1 e.2 = .ok g' ∧ BuiltFrom g' n (edges ++ [e]) := by
  obtain ⟨u, v⟩ := e
  unfold Graph.addEdge
  split_ifs with hrange
  · exact Or.inl rfl
  · have hsize : (g.numVertices : ℤ) = n := congrArg Nat.cast hg.size_eq
    simp only [not_or, not_lt, not_le, hsize] at hrange
    obtain ⟨hu, hv, hun, hvn⟩ := hrange
    obtain ⟨a, rfl⟩ := Int.eq_ofNat_of_zero_le hu
    obtain ⟨b, rfl⟩ := Int.eq_ofNat_of_zero_le hv
    have ha : a < g.adj.length := by rw [hg.length_eq]; omega
    have hb : b < (g.adj.modify a (· ++ [b])).length := by
      rw [List.length_modify, hg.length_eq]
      omega
    simp only [Int.toNat_natCast, pushBack_eq ha, pushBack_eq hb, bind, Except.bind]
    refine Or.inr ⟨_, rfl, hg.size_eq, by simp [hg.length_eq], fun x vs hvs y ↦ ?_,
      fun x y hxy ↦ ?_⟩
    · obtain ⟨vs₁, hvs₁, hmem₁⟩ := mem_of_pushBack (v := y) hvs
      obtain ⟨vs₀, hvs₀, hmem₀⟩ := mem_of_pushBack (v := y) hvs₁
      rw [hmem₁, hmem₀, hg.mem_adj x vs₀ hvs₀, joined_append]
      tauto
    · rcases joined_append.mp hxy with hxy | ⟨rfl, rfl⟩ | ⟨rfl, rfl⟩
      · exact hg.lt x y hxy
      · exact ⟨by omega, by omega⟩
      · exact ⟨by omega, by omega⟩

theorem BuiltFrom.addEdges {g : Graph} {n : ℕ} {edges : List (ℤ × ℤ)} (hg : BuiltFrom g n edges)
    (edges' : List (ℤ × ℤ)) :
    g.addEdges edges' = .error (.outOfRange "Invalid vertex index") ∨
      ∃ g', g.addEdges edges' = .ok g' ∧ BuiltFrom g' n (edges ++ edges') := by
  induction edges' generalizing g edges with
  | nil => exact Or.inr ⟨g, rfl, by simpa using hg⟩
  | cons e edges' ih =>
    rcases hg.addEdge e with hstep | ⟨g₁, hstep, hg₁⟩
    · exact Or.inl (by simp [Graph.addEdges, hstep, bind, Except.bind])
    · have hrest : g.addEdges (e :: edges') = g₁.addEdges edges' := by
        simp [Graph.addEdges, hstep, bind, Except.bind]
      rw [hrest]
      simpa using ih hg₁

theorem builtFrom_addEdges {g : Graph} {n : ℕ} {edges : List (ℤ × ℤ)}
    (hadd : (Graph.new n).addEdges edges = .ok g) : BuiltFrom g n edges := by
  rcases (builtFrom_new n).addEdges edges with herror | ⟨g', hok, hg'⟩
  · rw [hadd] at herror
    cases herror
  · obtain rfl := Except.ok.inj (hadd.symm.trans hok)
    exact hg'

/-! ### The search -/

/-- The state of the search for a graph of `n` vertices with edges `joined` and root `r`. -/
structure Grown (inbox : Inbox) (n r : ℕ) (joined : ℕ → ℕ → Prop) (s : Search Inbox) : Prop where
  head : s.nodes.ids.head? = some r
  nodup : s.nodes.ids.Nodup
  lt : ∀ v ∈ s.nodes.ids, v < n
  visited_length : s.visited.length = n
  visited : ∀ v < n, s.visited[v]? = some (decide (v ∈ s.nodes.ids))
  present : ∀ v, (s.nodes.find v).isSome ↔ v ∈ s.nodes.ids
  fields : ∀ v node, s.nodes.find v = some node →
    node.id = v ∧ node.localValue = v * 10 ∧ node.inbox = inbox
  root_null : ∀ v node, s.nodes.find v = some node → (node.parent = none ↔ v = r)
  parent : ∀ v node p, s.nodes.find v = some node → node.parent = some p →
    joined p v ∧ p ∈ s.nodes.ids ∧ s.nodes.ids.idxOf p < s.nodes.ids.idxOf v
  children_nodup : ∀ p node, s.nodes.find p = some node → node.children.Nodup
  mem_children : ∀ p node, s.nodes.find p = some node →
    ∀ c, c ∈ node.children ↔ ∃ child, s.nodes.find c = some child ∧ child.parent = some p

section Search

variable {inbox : Inbox} {n r : ℕ} {joined : ℕ → ℕ → Prop} {s : Search Inbox}

/-- The search after `v` was found from the node `u`. -/
def adopt (inbox : Inbox) (s : Search Inbox) (u v : ℕ) (node : Node Inbox) : Search Inbox where
  nodes := (s.nodes.assign v (Node.new inbox v (some u))).store u
    { node with children := node.children ++ [v] }
  visited := s.visited.set v true
  queue := s.queue ++ [v]

theorem find_adopt (u v : ℕ) (node : Node Inbox) (x : ℕ) :
    (adopt inbox s u v node).nodes.find x =
      if x = u then some { node with children := node.children ++ [v] }
      else if x = v then some (Node.new inbox v (some u)) else s.nodes.find x := by
  simp only [adopt, NodeMap.store, NodeMap.assign, Function.update_apply]

theorem Grown.ids_adopt (hs : Grown inbox n r joined s) {v : ℕ} (hv : v ∉ s.nodes.ids) (u : ℕ)
    (node : Node Inbox) : (adopt inbox s u v node).nodes.ids = s.nodes.ids ++ [v] := by
  have hnone : (s.nodes.find v).isSome = false := by
    rw [← hs.present v] at hv
    simpa using hv
  simp [adopt, NodeMap.store, NodeMap.assign, hnone]

/-- The nodes after `v` was found from `u`: `u` has one more child, `v` is new, the rest is kept. -/
theorem find_adopt_cases {u v w : ℕ} {node node' : Node Inbox}
    (hw : (adopt inbox s u v node).nodes.find w = some node') :
    (w = u ∧ node' = { node with children := node.children ++ [v] }) ∨
      (w = v ∧ node' = Node.new inbox v (some u)) ∨
      (w ≠ u ∧ w ≠ v ∧ s.nodes.find w = some node') := by
  rw [find_adopt] at hw
  split_ifs at hw with hwu hwv
  · exact Or.inl ⟨hwu, (Option.some.inj hw).symm⟩
  · exact Or.inr (Or.inl ⟨hwv, (Option.some.inj hw).symm⟩)
  · exact Or.inr (Or.inr ⟨hwu, hwv, hw⟩)

/-- The only new parent link is the one of `v`. -/
theorem Grown.parent_adopt (hs : Grown inbox n r joined s) {u v : ℕ} {node : Node Inbox}
    (hnode : s.nodes.find u = some node) (hv : v ∉ s.nodes.ids) (c p : ℕ) :
    (∃ child, (Convergecast.adopt inbox s u v node).nodes.find c = some child ∧
        child.parent = some p) ↔
      (c = v ∧ p = u) ∨ ∃ child, s.nodes.find c = some child ∧ child.parent = some p := by
  have huv : u ≠ v := fun heq ↦ hv (heq ▸ (hs.present u).mp (by simp [hnode]))
  have hnone : s.nodes.find v = none := by
    rw [← hs.present v] at hv
    simpa using hv
  constructor
  · rintro ⟨child, hchild, hp⟩
    rcases find_adopt_cases hchild with ⟨rfl, rfl⟩ | ⟨rfl, rfl⟩ | ⟨-, -, hold⟩
    · exact Or.inr ⟨node, hnode, hp⟩
    · exact Or.inl ⟨rfl, (Option.some.inj hp).symm⟩
    · exact Or.inr ⟨child, hold, hp⟩
  · rintro (⟨rfl, rfl⟩ | ⟨child, hchild, hp⟩)
    · exact ⟨Node.new inbox c (some p), by simp [find_adopt, huv.symm], rfl⟩
    · by_cases hcu : c = u
      · subst hcu
        rw [hnode] at hchild
        obtain rfl := Option.some.inj hchild
        exact ⟨{ node with children := node.children ++ [v] }, by rw [find_adopt, if_pos rfl], hp⟩
      · have hcv : c ≠ v := by
          rintro rfl
          simp [hnone] at hchild
        exact ⟨child, by rw [find_adopt, if_neg hcu, if_neg hcv, hchild], hp⟩

/-- Finding a new vertex over an edge keeps the invariant. -/
theorem Grown.adopt (hs : Grown inbox n r joined s) {u v : ℕ} {node : Node Inbox}
    (hnode : s.nodes.find u = some node) (hv : v ∉ s.nodes.ids) (hvn : v < n)
    (hjoined : joined u v) : Grown inbox n r joined (adopt inbox s u v node) := by
  have hu : u ∈ s.nodes.ids := (hs.present u).mp (by simp [hnode])
  have hids := hs.ids_adopt hv u node
  have hparent := hs.parent_adopt hnode hv
  have hkept : ∀ w ∈ s.nodes.ids, (s.nodes.ids ++ [v]).idxOf w = s.nodes.ids.idxOf w :=
    fun w hw ↦ List.idxOf_append_of_mem hw
  have hlast : (s.nodes.ids ++ [v]).idxOf v = s.nodes.ids.length := by
    rw [List.idxOf_append_of_notMem hv]
    simp
  have hmem : ∀ c : ℕ, c ∈ node.children → c ∈ s.nodes.ids := fun c hc ↦ by
    obtain ⟨child, hchild, -⟩ := (hs.mem_children u node hnode c).mp hc
    exact (hs.present c).mp (by simp [hchild])
  have hvr : v ≠ r := by
    rintro rfl
    exact hv (List.mem_of_mem_head? hs.head)
  constructor
  case head =>
    rw [hids, List.head?_append, hs.head]
    rfl
  case nodup =>
    rw [hids, ← List.concat_eq_append]
    exact hs.nodup.concat hv
  case lt =>
    rw [hids]
    intro w hw
    rcases List.mem_append.mp hw with hw | hw
    · exact hs.lt w hw
    · rwa [List.mem_singleton.mp hw]
  case visited_length =>
    simp [Convergecast.adopt, hs.visited_length]
  case visited =>
    intro w hw
    rw [hids]
    have hlen : v < s.visited.length := by rwa [hs.visited_length]
    by_cases hvw : v = w
    · subst hvw
      simp [Convergecast.adopt, hlen]
    · simp [Convergecast.adopt, List.getElem?_set_ne hvw, hs.visited w hw, Ne.symm hvw]
  case present =>
    intro w
    rw [hids, find_adopt, List.mem_append, List.mem_singleton, ← hs.present w]
    split_ifs with hwu hwv
    · simp [hwu, hnode]
    · simp [hwv]
    · simp [hwv]
  case fields =>
    intro w node' hw
    rcases find_adopt_cases hw with ⟨rfl, rfl⟩ | ⟨rfl, rfl⟩ | ⟨-, -, hold⟩
    · exact hs.fields w node hnode
    · exact ⟨rfl, rfl, rfl⟩
    · exact hs.fields w node' hold
  case root_null =>
    intro w node' hw
    rcases find_adopt_cases hw with ⟨rfl, rfl⟩ | ⟨rfl, rfl⟩ | ⟨-, -, hold⟩
    · exact hs.root_null w node hnode
    · simp [Node.new, hvr]
    · exact hs.root_null w node' hold
  case parent =>
    intro w node' p hw hp
    rw [hids]
    rcases (hparent w p).mp ⟨node', hw, hp⟩ with ⟨rfl, rfl⟩ | ⟨child, hold, hpold⟩
    · refine ⟨hjoined, List.mem_append_left _ hu, ?_⟩
      rw [hlast, hkept p hu]
      exact List.idxOf_lt_length_of_mem hu
    · obtain ⟨hj, hpmem, hlt⟩ := hs.parent w child p hold hpold
      have hwmem : w ∈ s.nodes.ids := (hs.present w).mp (by simp [hold])
      refine ⟨hj, List.mem_append_left _ hpmem, ?_⟩
      rwa [hkept p hpmem, hkept w hwmem]
  case children_nodup =>
    intro p node' hp
    rcases find_adopt_cases hp with ⟨rfl, rfl⟩ | ⟨rfl, rfl⟩ | ⟨-, -, hold⟩
    · have hnew : v ∉ node.children := fun hin ↦ hv (hmem v hin)
      rw [← List.concat_eq_append]
      exact (hs.children_nodup p node hnode).concat hnew
    · exact List.nodup_nil
    · exact hs.children_nodup p node' hold
  case mem_children =>
    intro p node' hp c
    rw [hparent c p]
    rcases find_adopt_cases hp with ⟨rfl, rfl⟩ | ⟨rfl, rfl⟩ | ⟨hpu, -, hold⟩
    · rw [List.mem_append, List.mem_singleton, hs.mem_children p node hnode, or_comm]
      simp
    · simp only [Node.new, List.not_mem_nil, false_iff, not_or, not_and, not_exists]
      refine ⟨fun hcp hpu ↦ hv (hpu ▸ hu), fun child hchild hcp ↦ hv ?_⟩
      exact (hs.parent c child p hchild hcp).2.1
    · rw [hs.mem_children p node' hold]
      simp [hpu]

/-- The loop over the neighbours of a node adds those not found before, as its children. -/
theorem visitNeighbors_spec (hs : Grown inbox n r joined s) {u : ℕ} (hu : u ∈ s.nodes.ids)
    {vs : List ℕ} (hvs : ∀ v ∈ vs, v < n ∧ joined u v) :
    ∃ s' found, SpanningTree.visitNeighbors inbox u vs s = .ok s' ∧ Grown inbox n r joined s' ∧
      s'.nodes.ids = s.nodes.ids ++ found ∧ s'.queue = s.queue ++ found ∧
      (∀ v ∈ vs, v ∈ s'.nodes.ids) ∧
      ∀ c p, (∃ child, s'.nodes.find c = some child ∧ child.parent = some p) ↔
        (c ∈ found ∧ p = u) ∨ ∃ child, s.nodes.find c = some child ∧ child.parent = some p := by
  induction vs generalizing s with
  | nil => exact ⟨s, [], rfl, hs, by simp, by simp, by simp, by simp⟩
  | cons v vs ih =>
    obtain ⟨⟨hvn, hjoined⟩, hvs⟩ := List.forall_mem_cons.mp hvs
    unfold SpanningTree.visitNeighbors
    rw [hs.visited v hvn]
    by_cases hv : v ∈ s.nodes.ids
    · obtain ⟨s', found, hrun, hs', hids, hqueue, hall, hparent⟩ := ih hs hu hvs
      refine ⟨s', found, by simp [hv, hrun], hs', hids, hqueue,
        List.forall_mem_cons.mpr ⟨?_, hall⟩, hparent⟩
      rw [hids]
      exact List.mem_append_left _ hv
    · obtain ⟨node, hnode⟩ := Option.isSome_iff_exists.mp ((hs.present u).mpr hu)
      have huv : u ≠ v := fun heq ↦ hv (heq ▸ hu)
      have hids₁ := hs.ids_adopt hv u node
      obtain ⟨s', found, hrun, hs', hids, hqueue, hall, hparent⟩ :=
        ih (hs.adopt hnode hv hvn hjoined) (by rw [hids₁]; exact List.mem_append_left _ hu) hvs
      refine ⟨s', v :: found, ?_, hs', by simp [hids, hids₁], by simp [hqueue, adopt],
        List.forall_mem_cons.mpr ⟨?_, hall⟩, fun c p ↦ ?_⟩
      · have hderef : (s.nodes.assign v (Node.new inbox v (s.nodes.get u))).deref u = .ok node := by
          simp [NodeMap.deref, NodeMap.assign, huv, hnode]
        have hget : s.nodes.get u = some u := by simp [NodeMap.get, hnode]
        rw [hget] at hderef
        simp only [hv, decide_false, hget, hderef, bind, Except.bind]
        exact hrun
      · rw [hids, hids₁]
        simp
      · rw [hparent c p, hs.parent_adopt hnode hv c p, List.mem_cons]
        tauto

/-- The loop of the search ends with a map that is closed under edges. `done` are the nodes whose
neighbours were visited. -/
theorem visitQueue_spec {g : Graph} {edges : List (ℤ × ℤ)} (hg : BuiltFrom g n edges)
    (hs : Grown inbox n r (Joined edges) s) {done : List ℕ} (hids : s.nodes.ids = done ++ s.queue)
    (hdone : ∀ u ∈ done, ∀ v, Joined edges u v → v ∈ s.nodes.ids) {fuel : ℕ}
    (hfuel : n ≤ fuel + done.length) :
    ∃ s', SpanningTree.visitQueue inbox g fuel s = .ok s' ∧ Grown inbox n r (Joined edges) s' ∧
      ∀ u ∈ s'.nodes.ids, ∀ v, Joined edges u v → v ∈ s'.nodes.ids := by
  induction fuel generalizing s done with
  | zero =>
    have hempty : s.queue = [] := by
      have hlen : s.nodes.ids.length ≤ n := by
        have hsub : s.nodes.ids ⊆ List.range n := fun v hv ↦ List.mem_range.mpr (hs.lt v hv)
        simpa using hs.nodup.length_le_of_subset hsub
      rw [hids, List.length_append] at hlen
      exact List.eq_nil_of_length_eq_zero (by omega)
    rw [hempty, List.append_nil] at hids
    refine ⟨s, by simp [SpanningTree.visitQueue, hempty], hs, ?_⟩
    rwa [← hids] at hdone
  | succ fuel ih =>
    unfold SpanningTree.visitQueue
    cases hqueue : s.queue with
    | nil =>
      rw [hqueue, List.append_nil] at hids
      refine ⟨s, rfl, hs, ?_⟩
      rwa [← hids] at hdone
    | cons u queue =>
      have hu : u ∈ s.nodes.ids := by simp [hids, hqueue]
      have hlt : u < g.adj.length := by
        rw [hg.length_eq]
        exact hs.lt u hu
      have hadj := hg.mem_adj u _ (List.getElem?_eq_getElem hlt)
      have hpopped : Grown inbox n r (Joined edges) { s with queue := queue } := { hs with }
      obtain ⟨s₁, found, hrun₁, hs₁, hids₁, hqueue₁, hall, -⟩ := visitNeighbors_spec hpopped hu
        fun v hv ↦ ⟨(hg.lt u v ((hadj v).mp hv)).2, (hadj v).mp hv⟩
      have hdone₁ : ∀ x ∈ done ++ [u], ∀ v, Joined edges x v → v ∈ s₁.nodes.ids := by
        intro x hx v hv
        rcases List.mem_append.mp hx with hx | hx
        · rw [hids₁]
          exact List.mem_append_left _ (hdone x hx v hv)
        · rw [List.mem_singleton.mp hx] at hv
          exact hall v ((hadj v).mpr hv)
      obtain ⟨s', hrun, hs', hclosed⟩ := ih hs₁ (by simp [hids₁, hids, hqueue, hqueue₁]) hdone₁
        (by simp; omega)
      refine ⟨s', ?_, hs', hclosed⟩
      simp only [Graph.neighbors, List.getElem?_eq_getElem hlt, bind, Except.bind, hrun₁, hrun]

/-- The search before the loop. -/
def initial (inbox : Inbox) (n r : ℕ) : Search Inbox where
  nodes := NodeMap.clear.assign r (Node.new inbox r none)
  visited := (List.replicate n false).set r true
  queue := [r]

theorem grown_initial (hr : r < n) : Grown inbox n r joined (initial inbox n r) := by
  have hfind : ∀ v node, (initial inbox n r).nodes.find v = some node →
      v = r ∧ node = Node.new inbox r none := by
    intro v node hv
    by_cases hvr : v = r
    · subst hvr
      change Function.update NodeMap.clear.find v (some (Node.new inbox v none)) v = some node at hv
      rw [Function.update_self] at hv
      exact ⟨rfl, (Option.some.inj hv).symm⟩
    · simp [initial, NodeMap.assign, NodeMap.clear, hvr] at hv
  have hids : (initial inbox n r).nodes.ids = [r] := rfl
  refine ⟨by rw [hids]; rfl, by simp [hids], by simp [hids, hr], by simp [initial], fun v hv ↦ ?_,
    fun v ↦ ?_, fun v node hv ↦ ?_, fun v node hv ↦ ?_, fun v node p hv hp ↦ ?_,
    fun v node hv ↦ ?_, fun v node hv c ↦ ?_⟩
  · rw [hids, initial]
    by_cases hrv : r = v
    · subst hrv
      simp [hv]
    · rw [List.getElem?_set_ne hrv, List.getElem?_replicate, if_pos hv]
      simp [Ne.symm hrv]
  · rw [hids]
    by_cases hvr : v = r <;> simp [initial, NodeMap.assign, NodeMap.clear, hvr]
  · obtain ⟨rfl, rfl⟩ := hfind v node hv
    exact ⟨rfl, rfl, rfl⟩
  · obtain ⟨rfl, rfl⟩ := hfind v node hv
    simp [Node.new]
  · obtain ⟨rfl, rfl⟩ := hfind v node hv
    simp [Node.new] at hp
  · obtain ⟨rfl, rfl⟩ := hfind v node hv
    exact List.nodup_nil
  · obtain ⟨rfl, rfl⟩ := hfind v node hv
    simp only [Node.new, List.not_mem_nil, false_iff, not_exists, not_and]
    intro child hc hp
    obtain ⟨rfl, rfl⟩ := hfind c child hc
    simp [Node.new] at hp

/-- On a valid root, `build` returns what the loop finds. -/
theorem build_eq {g : Graph} (hsize : g.size = n) (hr : r < n) (old : SpanningTree Inbox) :
    SpanningTree.build inbox old g r =
      (SpanningTree.visitQueue inbox g n (initial inbox n r)).map fun s ↦
        { nodes := s.nodes, root := some r } := by
  have hrange : ¬((r : ℤ) < 0 ∨ (g.size : ℤ) ≤ r) := by
    rw [hsize]
    omega
  have hroot : (NodeMap.clear.assign r (Node.new inbox r none)).get r = some r := by
    simp [NodeMap.get, NodeMap.assign]
  unfold SpanningTree.build
  rw [if_neg hrange]
  simp only [Int.toNat_natCast, hsize, List.length_replicate, if_pos hr, hroot]
  rfl

end Search

end WsServer.Convergecast
