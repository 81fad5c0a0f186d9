import WsServer.Convergecast.Sync
import WsServer.Foundations.Echo

/-!
# The asynchronous convergecast of `async/spanning_tree.hpp`

The nodes exchange `GO` and `BACK` messages through inboxes, and the scheduler handles the front
message of any node whose inbox is not empty. Handling a message is a step of the echo protocol on
the tree: `Carries` reads the protocol state off the inboxes and counters, and `processMessage_spec`
is the simulation step.
-/

set_option autoImplicit false
set_option relaxedAutoImplicit false

namespace WsServer.Convergecast

open Foundations

/-! ### The source -/

/-- `Message::Type`. -/
inductive MessageType
  | go
  | back
  deriving DecidableEq

structure Message where
  type : MessageType
  value : ℤ
  payload : String
  deriving DecidableEq

/-- `Node::enqueue`. -/
def NodeMap.enqueue (nodes : NodeMap (List Message)) (p : ℕ) (m : Message) :
    Except Fault (NodeMap (List Message)) := do
  let node ← nodes.deref p
  .ok (nodes.store p { node with inbox := node.inbox ++ [m] })

/-- `printResult`, which prints the id of the root. -/
def SpanningTree.printResult (t : SpanningTree (List Message)) (total : ℤ) :
    Except Fault (List Event) := do
  match t.root with
  | none => .error .undefined
  | some root =>
    let node ← t.nodes.deref root
    .ok [.result node.id total]

/-- The end of a convergecast at `node`: the root prints, any other node answers its parent. -/
def SpanningTree.report (t : SpanningTree (List Message)) (node : Node (List Message))
    (total : ℤ) : Except Fault (SpanningTree (List Message) × List Event) :=
  match node.parent with
  | none => do
    let events ← t.printResult total
    .ok (t, events)
  | some parent => do
    let nodes ← t.nodes.enqueue parent { type := .back, value := total, payload := "" }
    .ok ({ t with nodes := nodes }, [.back node.id parent total])

def SpanningTree.processMessage (t : SpanningTree (List Message)) (v : ℕ) :
    Except Fault (SpanningTree (List Message) × List Event) := do
  let node ← t.nodes.deref v
  match node.inbox with
  | [] => .error .undefined
  | m :: inbox =>
    let node := { node with inbox := inbox }
    let t := { t with nodes := t.nodes.store v node }
    match m.type with
    | .go =>
      let received := Event.received node.id m.payload
      if node.isLeaf then do
        let (t, events) ← t.report node node.localValue
        .ok (t, received :: events)
      else do
        let nodes ← node.children.foldlM
          (fun nodes c ↦ nodes.enqueue c { type := .go, value := 0, payload := m.payload }) t.nodes
        .ok ({ t with nodes := nodes }, [received])
    | .back =>
      let node := { node with
        accumulated := node.accumulated + m.value, pendingChildren := node.pendingChildren - 1 }
      let t := { t with nodes := t.nodes.store v node }
      if node.pendingChildren = 0 then
        t.report node (node.accumulated + node.localValue)
      else
        .ok (t, [])

/-- The first part of `startAsync`: all nodes are reset and the root gets a `GO`. -/
def SpanningTree.launch (t : SpanningTree (List Message)) (msg : String) :
    Except Fault (SpanningTree (List Message)) :=
  match t.root with
  | none => .error (.runtimeError "Tree not built")
  | some root => do
    let nodes := { t.nodes with find := fun v ↦ (t.nodes.find v).map Node.resetState }
    let nodes ← nodes.enqueue root { type := .go, value := 0, payload := msg }
    .ok { t with nodes := nodes }

/-- One pass of `runScheduler` over the nodes in the order of the hash map, with `progress`. -/
def SpanningTree.pass : List ℕ → SpanningTree (List Message) →
    Except Fault (SpanningTree (List Message) × List Event × Bool)
  | [], t => .ok (t, [], false)
  | v :: order, t => do
    let node ← t.nodes.deref v
    if node.inbox.isEmpty then
      pass order t
    else do
      let (t, events) ← t.processMessage v
      let (t, more, _) ← pass order t
      .ok (t, events ++ more, true)

/-- `runScheduler`, in at most `fuel` passes. -/
def SpanningTree.runScheduler (order : List ℕ) : ℕ → SpanningTree (List Message) →
    Except Fault (SpanningTree (List Message) × List Event)
  | 0, _ => .error .diverges
  | fuel + 1, t => do
    let (t, events, progress) ← t.pass order
    if progress then do
      let (t, more) ← runScheduler order fuel t
      .ok (t, events ++ more)
    else
      .ok (t, events)

/-- `startAsync`. Every pass but the last handles a message, and there are fewer than twice as many
messages as nodes. -/
def SpanningTree.startAsync (order : List ℕ) (t : SpanningTree (List Message)) (msg : String) :
    Except Fault (SpanningTree (List Message) × List Event) := do
  let t ← t.launch msg
  t.runScheduler order (2 * t.nodes.ids.length)

/-! ### Simulation of the echo protocol -/

section Simulation

variable (T : Arborescence ℕ) (msg : String)

/-- The message behind an entry of a queue of the protocol. -/
noncomputable def message : Option ℕ → Message
  | none => { type := .go, value := 0, payload := msg }
  | some c => { type := .back, value := weight T c, payload := "" }

/-- Inboxes hold the waiting messages, counters the reports heard so far. -/
structure Carries (nodes : NodeMap (List Message)) (queue : ℕ → List (Option ℕ))
    (heard : ℕ → List ℕ) : Prop where
  shaped : Shaped nodes T
  inbox : ∀ v node, nodes.find v = some node → node.inbox = (queue v).map (message T msg)
  accumulated : ∀ v node, nodes.find v = some node →
    node.accumulated = ((heard v).map (weight T)).sum
  pending : ∀ v node, nodes.find v = some node →
    node.pendingChildren = (T.children v).length - (heard v).length

/-- What `v` shows when it has heard all its children. -/
noncomputable def reportEvent (v : ℕ) : Event :=
  match T.parent v with
  | none => .result v (weight T v)
  | some p => .back v p (weight T v)

/-- What handling the next message of `v` shows. -/
noncomputable def emitted (w : Wave ℕ) (v : ℕ) : List Event :=
  match w.queue v with
  | [] => []
  | none :: _ => .received v msg :: if T.children v = [] then [reportEvent T v] else []
  | some c :: rest => if Wave.complete T (w.hear v c rest) v then [reportEvent T v] else []

variable {T msg} {nodes : NodeMap (List Message)} {queue : ℕ → List (Option ℕ)}
  {heard : ℕ → List ℕ}

/-- Replacing the inbox and the counters of one node. -/
theorem Carries.store (hc : Carries T msg nodes queue heard) {v : ℕ} {node : Node (List Message)}
    (node' : Node (List Message)) (hv : nodes.find v = some node)
    (hstatic : node'.static = node.static) {q : List (Option ℕ)} {l : List ℕ}
    (hinbox : node'.inbox = q.map (message T msg))
    (haccumulated : node'.accumulated = (l.map (weight T)).sum)
    (hpending : node'.pendingChildren = (T.children v).length - l.length) :
    Carries T msg (nodes.store v node') (fun u ↦ if u = v then q else queue u)
      (fun u ↦ if u = v then l else heard u) := by
  have hcases : ∀ u nd, (nodes.store v node').find u = some nd →
      (u = v ∧ nd = node') ∨ (u ≠ v ∧ nodes.find u = some nd) := fun u nd hu ↦ by
    simp only [NodeMap.store, Function.update_apply] at hu
    split_ifs at hu with huv
    · exact Or.inl ⟨huv, (Option.some.inj hu).symm⟩
    · exact Or.inr ⟨huv, hu⟩
  refine ⟨hc.shaped.store hv hstatic, fun u nd hu ↦ ?_, fun u nd hu ↦ ?_, fun u nd hu ↦ ?_⟩
  · rcases hcases u nd hu with ⟨rfl, rfl⟩ | ⟨huv, hold⟩
    · simpa using hinbox
    · simpa [huv] using hc.inbox u nd hold
  · rcases hcases u nd hu with ⟨rfl, rfl⟩ | ⟨huv, hold⟩
    · simpa using haccumulated
    · simpa [huv] using hc.accumulated u nd hold
  · rcases hcases u nd hu with ⟨rfl, rfl⟩ | ⟨huv, hold⟩
    · simpa using hpending
    · simpa [huv] using hc.pending u nd hold

theorem ite_self_apply {α : Type} (f : ℕ → α) (v : ℕ) :
    (fun u ↦ if u = v then f v else f u) = f := by
  funext u
  by_cases huv : u = v
  · rw [if_pos huv, huv]
  · rw [if_neg huv]

/-- Enqueueing a message of the protocol. -/
theorem Carries.enqueue (hc : Carries T msg nodes queue heard) {p : ℕ} (hp : p ∈ T.verts)
    (x : Option ℕ) :
    ∃ nodes', nodes.enqueue p (message T msg x) = .ok nodes' ∧
      Carries T msg nodes' (fun u ↦ if u = p then queue p ++ [x] else queue u) heard := by
  obtain ⟨node, hnode⟩ := hc.shaped.exists_node hp
  have hstored := hc.store { node with inbox := node.inbox ++ [message T msg x] } hnode rfl
    (q := queue p ++ [x]) (l := heard p) (by simp [hc.inbox p node hnode])
    (hc.accumulated p node hnode) (hc.pending p node hnode)
  rw [ite_self_apply heard p] at hstored
  exact ⟨_, by simp [NodeMap.enqueue, NodeMap.deref, hnode, bind, Except.bind], hstored⟩

/-- Calling the children one after the other. -/
theorem Carries.enqueueAll (hc : Carries T msg nodes queue heard) {cs : List ℕ} (hcs : cs.Nodup)
    (hmem : ∀ c ∈ cs, c ∈ T.verts) :
    ∃ nodes', cs.foldlM (fun nodes c ↦ nodes.enqueue c (message T msg none)) nodes =
        .ok nodes' ∧
      Carries T msg nodes' (fun u ↦ if u ∈ cs then queue u ++ [none] else queue u) heard := by
  induction cs generalizing nodes queue with
  | nil => exact ⟨nodes, rfl, by simpa using hc⟩
  | cons c cs ih =>
    obtain ⟨hnot, hcs⟩ := List.nodup_cons.mp hcs
    obtain ⟨hcmem, hmem⟩ := List.forall_mem_cons.mp hmem
    obtain ⟨nodes₁, hrun₁, hc₁⟩ := hc.enqueue hcmem none
    obtain ⟨nodes', hrun, hc'⟩ := ih hc₁ hcs hmem
    refine ⟨nodes', by simp [hrun₁, hrun, bind, Except.bind], ?_⟩
    have hqueue : (fun u ↦ if u ∈ cs then (if u = c then queue c ++ [none] else queue u) ++ [none]
        else if u = c then queue c ++ [none] else queue u) =
        fun u ↦ if u ∈ c :: cs then queue u ++ [none] else queue u := by
      funext u
      by_cases huc : u = c
      · subst huc
        simp [hnot]
      · simp [huc]
    rwa [hqueue] at hc'

variable {t : SpanningTree (List Message)}

/-- The report of `v`: to the parent, or at the root to the console. -/
theorem Carries.report (hc : Carries T msg t.nodes queue heard) (hroot : t.root = some T.root)
    {v : ℕ} (hv : v ∈ T.verts) (node : Node (List Message)) (hid : node.id = v)
    (hparent : node.parent = T.parent v) :
    ∃ t', t.report node (weight T v) = .ok (t', [reportEvent T v]) ∧ t'.root = some T.root ∧
      Carries T msg t'.nodes
        (fun u ↦ if T.parent v = some u then queue u ++ [some v] else queue u) heard := by
  unfold SpanningTree.report reportEvent
  rw [hparent]
  cases hp : T.parent v with
  | none =>
    obtain ⟨root, hnode⟩ := hc.shaped.exists_node T.root_mem
    have hvr : v = T.root := (T.parent_eq_none v hv).mp hp
    refine ⟨t, ?_, hroot, by simpa using hc⟩
    simp [SpanningTree.printResult, hroot, NodeMap.deref, hnode, (hc.shaped.fields hnode).2.1, hvr,
      bind, Except.bind]
  | some p =>
    obtain ⟨nodes', hrun, hc'⟩ := hc.enqueue (T.parent_mem v p hp).2.1 (some v)
    rw [message] at hrun
    refine ⟨{ t with nodes := nodes' }, ?_, hroot, ?_⟩
    · simp [hrun, hid, bind, Except.bind]
    · have hqueue : (fun u ↦ if u = p then queue p ++ [some v] else queue u) =
          fun u ↦ if some p = some u then queue u ++ [some v] else queue u := by
        funext u
        by_cases hup : u = p
        · simp [hup]
        · simp [hup, Ne.symm hup]
      rwa [hqueue] at hc'

variable {w : Wave ℕ}

/-- Where the messages wait after `v` was woken. -/
theorem queue_wake (v : ℕ) (rest : List (Option ℕ)) :
    (w.wake T v rest).queue = fun u ↦
      if u ∈ T.children v then (if u = v then rest else w.queue u) ++ [none]
      else if u = v then rest else w.queue u := by
  funext u
  have hself : v ∉ T.children v := fun hv ↦
    lt_irrefl _ (T.parent_mem v v ((T.mem_children v v).mp hv)).2.2
  by_cases huv : u = v
  · subst huv
    simp [Wave.wake, hself]
  · simp [Wave.wake, huv, T.mem_children v u]

/-- The accumulated reports of a complete node and its own value give the weight of its subtree. -/
theorem sum_heard {due : Option ℕ} (hw : Wave.SoundUpTo T w due) {v : ℕ} (hv : v ∈ T.verts)
    (hfull : Wave.complete T w v) : ((w.heard v).map (weight T)).sum + v * 10 = weight T v := by
  rw [weight_eq hv, ((hw.heard_perm hfull).map (weight T)).sum_eq, add_comm]

/-- A wake-up call is handled as in the protocol. -/
theorem processMessage_call (hroot : t.root = some T.root)
    (hc : Carries T msg t.nodes w.queue w.heard) (hw : Wave.Sound T w) {v : ℕ}
    {rest : List (Option ℕ)} (hq : w.queue v = none :: rest) :
    ∃ t', t.processMessage v = .ok (t', emitted T msg w v) ∧ t'.root = some T.root ∧
      Carries T msg t'.nodes (w.handle T v).queue (w.handle T v).heard := by
  obtain ⟨hmem, -⟩ := hw.called hq
  obtain ⟨node, hnode⟩ := hc.shaped.exists_node hmem
  obtain ⟨-, hid, hlocal, hparent, hchildren⟩ := hc.shaped.fields hnode
  have hinbox : node.inbox = message T msg none :: rest.map (message T msg) := by
    rw [hc.inbox v node hnode, hq, List.map_cons]
  have htaken := hc.store { node with inbox := rest.map (message T msg) } hnode rfl
    (q := rest) (l := w.heard v) rfl (hc.accumulated v node hnode) (hc.pending v node hnode)
  rw [ite_self_apply] at htaken
  have hisLeaf : ∀ inbox : List Message,
      Node.isLeaf { node with inbox := inbox } = true ↔ T.children v = [] := fun inbox ↦ by
    simp [Node.isLeaf, hchildren]
  unfold SpanningTree.processMessage
  simp only [NodeMap.deref, hnode, hinbox, bind, Except.bind, hisLeaf, message, emitted,
    Wave.handle, hq]
  by_cases hleaf : T.children v = []
  · have hweight : node.localValue = weight T v := by
      rw [hlocal, weight_eq hmem, hleaf]
      simp
    obtain ⟨t', hrun, hroot', hc'⟩ := Carries.report
      (t := { t with nodes := t.nodes.store v { node with inbox := rest.map (message T msg) } })
      htaken hroot hmem { node with inbox := rest.map (message T msg) } hid hparent
    rw [← hweight] at hrun
    refine ⟨t', ?_, hroot', ?_⟩
    · simp only [if_pos hleaf, hrun]
      rw [hid]
    · simp only [if_true, Wave.report, queue_wake, hleaf, List.not_mem_nil, if_false]
      exact hc'
  · obtain ⟨nodes', hrun, hc'⟩ := htaken.enqueueAll (T.children_nodup v) fun c hcmem ↦
      (T.parent_mem c v ((T.mem_children v c).mp hcmem)).1
    rw [← hchildren, message] at hrun
    refine ⟨{ t with nodes := nodes' }, ?_, hroot, ?_⟩
    · simp only [if_neg hleaf, hrun]
      rw [hid]
    · rw [if_neg hleaf, queue_wake]
      exact hc'

/-- A report is handled as in the protocol. -/
theorem processMessage_report (hroot : t.root = some T.root)
    (hc : Carries T msg t.nodes w.queue w.heard) (hw : Wave.Sound T w) {v c : ℕ}
    {rest : List (Option ℕ)} (hq : w.queue v = some c :: rest) :
    ∃ t', t.processMessage v = .ok (t', emitted T msg w v) ∧ t'.root = some T.root ∧
      Carries T msg t'.nodes (w.handle T v).queue (w.handle T v).heard := by
  have hmem : v ∈ T.verts := (T.parent_mem c v (hw.reported hq).1).2.1
  obtain ⟨node, hnode⟩ := hc.shaped.exists_node hmem
  obtain ⟨-, hid, hlocal, hparent, -⟩ := hc.shaped.fields hnode
  have hinbox : node.inbox = message T msg (some c) :: rest.map (message T msg) := by
    rw [hc.inbox v node hnode, hq, List.map_cons]
  have haccumulated : node.accumulated + weight T c = ((w.heard v ++ [c]).map (weight T)).sum := by
    simp [hc.accumulated v node hnode]
  have hpending : node.pendingChildren - 1 = (T.children v).length - (w.heard v ++ [c]).length := by
    rw [hc.pending v node hnode, List.length_append, List.length_singleton, Nat.cast_add,
      Nat.cast_one, sub_sub]
  have htaken := hc.store { node with
      inbox := rest.map (message T msg), accumulated := node.accumulated + weight T c,
      pendingChildren := node.pendingChildren - 1 } hnode rfl
    (q := rest) (l := w.heard v ++ [c]) rfl haccumulated hpending
  have hstore : ∀ a b : Node (List Message), (t.nodes.store v a).store v b = t.nodes.store v b :=
    fun a b ↦ by simp [NodeMap.store]
  have hcomplete : node.pendingChildren - 1 = 0 ↔ Wave.complete T (w.hear v c rest) v := by
    rw [hpending]
    simp only [Wave.complete, Wave.hear, if_true]
    omega
  unfold SpanningTree.processMessage
  simp only [NodeMap.deref, hnode, hinbox, bind, Except.bind, message, emitted, Wave.handle, hq,
    hstore, hcomplete]
  by_cases hfull : Wave.complete T (w.hear v c rest) v
  · have htotal : node.accumulated + weight T c + node.localValue = weight T v := by
      have hsum := sum_heard (hw.hear hq) hmem hfull
      simp only [Wave.hear, if_true] at hsum
      rw [haccumulated, hlocal, hsum]
    obtain ⟨t', hrun, hroot', hc'⟩ := Carries.report
      (t := { t with nodes := t.nodes.store v { node with
        inbox := rest.map (message T msg), accumulated := node.accumulated + weight T c,
        pendingChildren := node.pendingChildren - 1 } })
      htaken hroot hmem { node with
        inbox := rest.map (message T msg), accumulated := node.accumulated + weight T c,
        pendingChildren := node.pendingChildren - 1 } hid hparent
    refine ⟨t', ?_, hroot', ?_⟩
    · simp only [if_pos hfull, htotal, hrun]
    · rw [if_pos hfull]
      exact hc'
  · refine ⟨{ t with nodes := t.nodes.store v _ }, by rw [if_neg hfull, if_neg hfull], hroot, ?_⟩
    rw [if_neg hfull]
    exact htaken

/-- Handling a message simulates a step of the protocol. -/
theorem processMessage_spec (hroot : t.root = some T.root)
    (hc : Carries T msg t.nodes w.queue w.heard) (hw : Wave.Sound T w) {v : ℕ}
    (hq : w.queue v ≠ []) :
    ∃ t', t.processMessage v = .ok (t', emitted T msg w v) ∧ t'.root = some T.root ∧
      Carries T msg t'.nodes (w.handle T v).queue (w.handle T v).heard := by
  rcases hcons : w.queue v with _ | ⟨_ | c, rest⟩
  · exact absurd hcons hq
  · exact processMessage_call hroot hc hw hcons
  · exact processMessage_report hroot hc hw hcons

end Simulation

end WsServer.Convergecast
