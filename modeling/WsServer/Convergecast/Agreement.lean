import WsServer.Convergecast.IntRange

/-!
# The two convergecasts agree

`build` is the same text in both implementations and builds the same tree, but for the inboxes
(`build_withInbox`). A run of `start` goes through the tree in preorder, a run of `startAsync` under
any schedule; both show the same events, each as often, and the total last (`async_agrees`).
-/

set_option autoImplicit false
set_option relaxedAutoImplicit false

namespace WsServer.Convergecast

open Foundations

/-! ### One tree with different inboxes -/

section Inboxes

variable {Inbox Inbox' : Type} (inbox : Inbox')

def Node.withInbox (node : Node Inbox) : Node Inbox' :=
  { id := node.id
    localValue := node.localValue
    parent := node.parent
    children := node.children
    pendingChildren := node.pendingChildren
    accumulated := node.accumulated
    inbox := inbox }

def NodeMap.withInbox (nodes : NodeMap Inbox) : NodeMap Inbox' where
  find v := (nodes.find v).map (·.withInbox inbox)
  ids := nodes.ids

def SpanningTree.withInbox (t : SpanningTree Inbox) : SpanningTree Inbox' where
  nodes := t.nodes.withInbox inbox
  root := t.root

def Search.withInbox (s : Search Inbox) : Search Inbox' where
  nodes := s.nodes.withInbox inbox
  visited := s.visited
  queue := s.queue

variable {inbox}

theorem get_withInbox (nodes : NodeMap Inbox) (id : ℕ) :
    (nodes.withInbox inbox).get id = nodes.get id := by
  simp only [NodeMap.get, NodeMap.withInbox, Option.map_map]
  rfl

theorem assign_new_withInbox (inbox₀ : Inbox) (nodes : NodeMap Inbox) (id : ℕ) (parent : Option ℕ) :
    (nodes.withInbox inbox).assign id (Node.new inbox id parent) =
      (nodes.assign id (Node.new inbox₀ id parent)).withInbox inbox := by
  ext v
  · by_cases hv : v = id <;> simp [NodeMap.assign, NodeMap.withInbox, Node.withInbox, Node.new, hv]
  · simp [NodeMap.assign, NodeMap.withInbox]

theorem store_withInbox (nodes : NodeMap Inbox) (p : ℕ) (node : Node Inbox) :
    (nodes.withInbox inbox).store p (node.withInbox inbox) =
      (nodes.store p node).withInbox inbox := by
  ext v
  · by_cases hv : v = p <;> simp [NodeMap.store, NodeMap.withInbox, hv]
  · simp [NodeMap.store, NodeMap.withInbox]

theorem deref_withInbox (nodes : NodeMap Inbox) (p : ℕ) :
    (nodes.withInbox inbox).deref p = (nodes.deref p).map (·.withInbox inbox) := by
  unfold NodeMap.deref NodeMap.withInbox
  cases hp : nodes.find p <;> simp only [hp, Option.map_none, Option.map_some] <;> rfl

/-- The inboxes play no part in the search. -/
theorem visitNeighbors_withInbox (inbox₀ : Inbox) (u : ℕ) (vs : List ℕ) (nodes : NodeMap Inbox)
    (visited : List Bool) (queue : List ℕ) :
    SpanningTree.visitNeighbors inbox u vs ⟨nodes.withInbox inbox, visited, queue⟩ =
      (SpanningTree.visitNeighbors inbox₀ u vs ⟨nodes, visited, queue⟩).map
        (·.withInbox inbox) := by
  induction vs generalizing nodes visited queue with
  | nil => rfl
  | cons v vs ih =>
    unfold SpanningTree.visitNeighbors
    rcases hv : visited[v]? with _ | _ | _
    · rfl
    · simp only [get_withInbox, assign_new_withInbox inbox₀, deref_withInbox, bind]
      cases (nodes.assign v (Node.new inbox₀ v (nodes.get u))).deref u with
      | error e => rfl
      | ok parent =>
        have hstore : ((nodes.assign v (Node.new inbox₀ v (nodes.get u))).withInbox inbox).store u
            { parent.withInbox inbox with children := (parent.withInbox inbox).children ++ [v] } =
            ((nodes.assign v (Node.new inbox₀ v (nodes.get u))).store u
              { parent with children := parent.children ++ [v] }).withInbox inbox :=
          store_withInbox _ u { parent with children := parent.children ++ [v] }
        show SpanningTree.visitNeighbors inbox u vs ⟨_, _, _⟩ = _
        rw [hstore]
        exact ih _ _ _
    · exact ih nodes visited queue

variable (inbox) in
theorem visitQueue_withInbox (inbox₀ : Inbox) (g : Graph) (fuel : ℕ) (s : Search Inbox) :
    SpanningTree.visitQueue inbox g fuel (s.withInbox inbox) =
      (SpanningTree.visitQueue inbox₀ g fuel s).map (·.withInbox inbox) := by
  induction fuel generalizing s with
  | zero =>
    obtain ⟨nodes, visited, queue⟩ := s
    cases queue <;> rfl
  | succ fuel ih =>
    obtain ⟨nodes, visited, queue⟩ := s
    cases queue with
    | nil => rfl
    | cons u queue =>
      unfold SpanningTree.visitQueue
      simp only [Search.withInbox, bind]
      cases g.neighbors u with
      | error e => rfl
      | ok vs =>
        simp only [Except.bind, visitNeighbors_withInbox inbox₀]
        cases SpanningTree.visitNeighbors inbox₀ u vs ⟨nodes, visited, queue⟩ with
        | error e => rfl
        | ok s => exact ih s

variable (inbox) in
theorem build_withInbox (inbox₀ : Inbox) (old : SpanningTree Inbox) (old' : SpanningTree Inbox')
    (g : Graph) (rootId : ℤ) : SpanningTree.build inbox old' g rootId =
      (SpanningTree.build inbox₀ old g rootId).map (·.withInbox inbox) := by
  unfold SpanningTree.build
  by_cases hrange : rootId < 0 ∨ g.size ≤ rootId
  · simp only [if_pos hrange]
    rfl
  · have hnodes : NodeMap.clear.assign rootId.toNat (Node.new inbox rootId.toNat none) =
        (NodeMap.clear.assign rootId.toNat (Node.new inbox₀ rootId.toNat none)).withInbox inbox :=
      assign_new_withInbox inbox₀ .clear _ none
    simp only [if_neg hrange, hnodes, get_withInbox, bind]
    by_cases hroot : rootId.toNat < (List.replicate g.size false).length
    · simp only [if_pos hroot]
      have hqueue := visitQueue_withInbox inbox inbox₀ g g.size
        ⟨NodeMap.clear.assign rootId.toNat (Node.new inbox₀ rootId.toNat none),
          (List.replicate g.size false).set rootId.toNat true, [rootId.toNat]⟩
      simp only [Search.withInbox] at hqueue
      rw [hqueue]
      cases SpanningTree.visitQueue inbox₀ g g.size _ <;> rfl
    · simp only [if_neg hroot]
      rfl

theorem Standing.withInbox {t : SpanningTree Inbox} {T : Arborescence ℕ} (ht : Standing t T) :
    Standing (t.withInbox inbox) T := by
  refine ⟨ht.root_eq, ht.shaped.nodup, ht.shaped.mem_ids, fun v ↦ ?_⟩
  rw [← ht.shaped.static_eq v]
  simp only [SpanningTree.withInbox, NodeMap.withInbox, Option.map_map]
  rfl

end Inboxes

/-! ### The events of a run -/

section Events

variable {T : Arborescence ℕ} {msg : String} {log log' : List Event} {w : Wave ℕ}

/-- The lines about received messages, and the rest. -/
theorem perm_received_append (log : List Event) : log.Perm
    ((log.filterMap Event.received?).map (fun x ↦ Event.received x.1 x.2) ++
      log.filter fun e ↦ e.received?.isNone) := by
  induction log with
  | nil => rfl
  | cons e log ih =>
    cases e with
    | received v m => exact ih.cons _
    | back c p value => exact (ih.cons _).trans List.perm_middle.symm
    | result v total => exact (ih.cons _).trans List.perm_middle.symm

/-- Runs that show as many messages and as many reports show the same. -/
theorem perm_of_received (hreceived : (log'.filterMap Event.received?).Perm
      (log.filterMap Event.received?))
    (hreports : (log'.filter fun e ↦ e.received?.isNone).Perm
      (log.filter fun e ↦ e.received?.isNone)) : log'.Perm log :=
  (perm_received_append log').trans
    (((hreceived.map _).append hreports).trans (perm_received_append log).symm)

variable (msg) in
/-- The reports below a node and its own are those of the nodes in its subtree. -/
theorem reports_trace {fuel v : ℕ} (hv : v ∈ T.verts) (hfuel : T.verts.card ≤ fuel + T.rank v) :
    ((trace T msg fuel v).filter (fun e ↦ e.received?.isNone) ++ [reportEvent T v]).Perm
      ((Arborescence.preorder T.children fuel v).map (reportEvent T)) := by
  induction fuel generalizing v with
  | zero =>
    have hlt := T.rank_lt v hv
    omega
  | succ fuel ih =>
    have hbelow : (((T.children v).flatMap fun c ↦
        trace T msg fuel c ++ [.back c v (weight T c)]).filter fun e ↦ e.received?.isNone).Perm
        (((T.children v).flatMap (Arborescence.preorder T.children fuel)).map (reportEvent T)) := by
      rw [List.filter_flatMap, List.map_flatMap]
      refine List.Perm.flatMap_left _ fun c hc ↦ ?_
      obtain ⟨hcv, hcfuel⟩ := Arborescence.fuel_child hc hfuel
      have hreport : reportEvent T c = .back c v (weight T c) := by
        rw [reportEvent, (T.mem_children v c).mp hc]
      have hown : [reportEvent T c].filter (fun e ↦ e.received?.isNone) = [reportEvent T c] := by
        simp [received?_reportEvent]
      rw [← hreport, List.filter_append, hown]
      exact ih hcv hcfuel
    rw [trace, Arborescence.preorder, List.map_cons]
    exact List.perm_append_singleton _ _ |>.trans (hbelow.cons _)

/-- A finished wave shows what the walk through the tree shows. -/
theorem Logged.perm_trace (h : Logged T msg w log) (hw : Wave.Sound T w) (hquiet : Wave.Quiet w)
    {fuel : ℕ} (hfuel : T.verts.card ≤ fuel + T.rank T.root) :
    log.Perm (trace T msg fuel T.root ++ [.result T.root (weight T T.root)]) := by
  have hnodup := Arborescence.nodup_preorder T.root_mem hfuel
  have hmem : ∀ v, v ∈ Arborescence.preorder T.children fuel T.root ↔ v ∈ T.verts := fun v ↦
    (Arborescence.mem_preorder T.root_mem hfuel).trans
      ⟨fun h ↦ h.mem T.root_mem, Arborescence.below_root⟩
  have hsent : w.sent.Perm (Arborescence.preorder T.children fuel T.root) :=
    (List.perm_ext_iff_of_nodup hw.sent_nodup hnodup).mpr fun v ↦
      ⟨fun hv ↦ (hmem v).mpr (hw.woken_mem v ((hw.sent_iff v).mp hv).1),
        fun hv ↦ hw.sent_of_quiet hquiet ((hmem v).mp hv)⟩
  have hwoken : w.woken.Perm (Arborescence.preorder T.children fuel T.root) :=
    (List.perm_ext_iff_of_nodup hw.woken_nodup hnodup).mpr fun v ↦
      ⟨fun hv ↦ (hmem v).mpr (hw.woken_mem v hv),
        fun hv ↦ ((hw.sent_iff v).mp (hw.sent_of_quiet hquiet ((hmem v).mp hv))).1⟩
  refine perm_of_received ?_ ?_
  · have hresult : [Event.result T.root (weight T T.root)].filterMap Event.received? = [] := rfl
    rw [h.received, List.filterMap_append, received_trace, hresult, List.append_nil]
    exact hwoken.map _
  · have hreports := reports_trace msg T.root_mem hfuel
    rw [h.reports, List.filter_append]
    rw [reportEvent_root] at hreports
    exact (hsent.map _).trans hreports.symm

end Events

/-! ### Agreement -/

/-- Both implementations build the same tree of a graph and show the same on it. A run of `start`,
whatever the counters hold, and a run of `startAsync`, after any number of earlier ones and under
any schedule that handles all messages, show the same events, each as often, and last the sum over
the component of the root. Assumes: the calls of `addEdge` on a new graph of `n` vertices were all
accepted, and the root is a vertex. -/
theorem async_agrees (n : ℕ) (edges : List (ℤ × ℤ)) (g : Graph)
    (hg : (Graph.new n).addEdges edges = .ok g) (r : ℕ) (hr : r < n) (old : SpanningTree Unit)
    (old' : SpanningTree (List Message)) :
    ∃ t, SpanningTree.build () old g r = .ok t ∧
      SpanningTree.build [] old' g r = .ok (t.withInbox []) ∧
      ∀ (pending accumulated : ℕ → ℤ) (msg : String), ∃ t' log,
        (t.withCounters pending accumulated).start msg = .ok (t', log) ∧
        log.getLast? = some (.result r (componentSum n edges r)) ∧
        ∀ t₀, After (t.withInbox []) t₀ → ∃ t₁, t₀.launch msg = .ok t₁ ∧
          (∀ picks t₂ log', Schedule t₁ picks t₂ log' → Idle t₂ →
            log'.Perm log ∧ log'.getLast? = log.getLast?) ∧
          ∀ order, order.Perm t₀.nodes.ids → ∃ picks t₂ log',
            t₀.startAsync order msg = .ok (t₂, log') ∧ Schedule t₁ picks t₂ log' ∧
            log'.Perm log ∧ log'.getLast? = log.getLast? := by
  have hbuilt := builtFrom_addEdges hg
  obtain ⟨t, T, hrun, ht, rfl, hreach, -⟩ := build_spec hbuilt hr () old
  obtain ⟨built, -, hrun', -, -, -, -, hinbox⟩ := build_spec hbuilt hr ([] : List Message) old'
  have hsame := build_withInbox ([] : List Message) () old old' g T.root
  rw [hrun, hrun'] at hsame
  obtain rfl : built = t.withInbox [] := Except.ok.inj hsame
  refine ⟨t, hrun, hrun', fun pending accumulated msg ↦
    ⟨_, _, (ht.withCounters pending accumulated).start_eq msg, ?_, fun t₀ hafter ↦ ?_⟩⟩
  · rw [List.getLast?_concat, componentSum_eq hbuilt hr rfl hreach]
  obtain ⟨ht₀, hidle⟩ := hafter.standing ht.withInbox hinbox
  obtain ⟨t₁, hlaunch, h₁⟩ := ht₀.launch hidle msg
  have hall : ∀ picks t₂ log', Schedule t₁ picks t₂ log' → Idle t₂ →
      log'.Perm (trace T msg t.nodes.ids.length T.root ++ [.result T.root (weight T T.root)]) ∧
        log'.getLast? = (trace T msg t.nodes.ids.length T.root ++
          [Event.result T.root (weight T T.root)]).getLast? := by
    intro picks t₂ log' hschedule hdone
    obtain ⟨w, h₂, -⟩ := h₁.schedule hschedule
    have hquiet := h₂.idle_iff.mp hdone
    exact ⟨h₂.logged.perm_trace h₂.sound hquiet ht.card_le,
      (h₂.logged.last (h₂.sound.sent_of_quiet hquiet T.root_mem)).trans List.getLast?_concat.symm⟩
  refine ⟨t₁, hlaunch, hall, fun order horder ↦ ?_⟩
  obtain ⟨picks, t₂, log', hasync, hschedule, hdone⟩ := ht₀.startAsync hidle hlaunch horder
  exact ⟨picks, t₂, log', hasync, hschedule, hall picks t₂ log' hschedule hdone⟩

/-- A triangle with a tail. -/
theorem async_agrees_example :
    ∃ t, SpanningTree.build () .unbuilt
        { numVertices := 4, adj := [[1, 2], [0, 2], [1, 0, 3], [2]] } 0 = .ok t ∧
      ∀ msg, ∃ t' log, (t.withCounters 0 0).start msg = .ok (t', log) ∧
        ∀ t₀, After (t.withInbox []) t₀ → ∃ t₁, t₀.launch msg = .ok t₁ ∧
          (∀ picks t₂ log', Schedule t₁ picks t₂ log' → Idle t₂ →
            log'.Perm log ∧ log'.getLast? = log.getLast?) ∧
          ∀ order, order.Perm t₀.nodes.ids → ∃ t₂ log',
            t₀.startAsync order msg = .ok (t₂, log') ∧ log'.Perm log ∧
              log'.getLast? = log.getLast? := by
  obtain ⟨t, hrun, -, hall⟩ := async_agrees 4 [(0, 1), (1, 2), (0, 2), (2, 3)]
    { numVertices := 4, adj := [[1, 2], [0, 2], [1, 0, 3], [2]] } rfl 0 (by decide) .unbuilt
    .unbuilt
  refine ⟨t, hrun, fun msg ↦ ?_⟩
  obtain ⟨t', log, hstart, -, hasync⟩ := hall 0 0 msg
  refine ⟨t', log, hstart, fun t₀ hafter ↦ ?_⟩
  obtain ⟨t₁, hlaunch, hschedules, hstarts⟩ := hasync t₀ hafter
  refine ⟨t₁, hlaunch, hschedules, fun order horder ↦ ?_⟩
  obtain ⟨picks, t₂, log', hrun', -, hsame⟩ := hstarts order horder
  exact ⟨t₂, log', hrun', hsame⟩

end WsServer.Convergecast
