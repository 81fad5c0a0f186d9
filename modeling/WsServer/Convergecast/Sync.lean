import WsServer.Convergecast.Standing

/-!
# The synchronous convergecast of `node.hpp`

`start` walks down the tree and `back` climbs from a node whose last child has answered, while the
walk is still going on above it. The state of a node in between is `progress`: some of its children
are settled, and its two counters say how many are left and what the others have sent. `start` on a
node settles its subtree and ends with the delivery of the weight of the subtree to the parent
(`start_eq`).
-/

set_option autoImplicit false
set_option relaxedAutoImplicit false

namespace WsServer.Convergecast

open Foundations

/-- What a run shows: the lines it prints and the calls of `back`. -/
inductive Event
  | received (id : ℕ) (msg : String)
  | back (child parent : ℕ) (value : ℤ)
  | result (id : ℕ) (total : ℤ)
  deriving DecidableEq

namespace Event

def received? : Event → Option (ℕ × String)
  | received id msg => some (id, msg)
  | _ => none

/-- The receiver and the value, when the event is a call of `back` by `child`. -/
def backFrom? (child : ℕ) : Event → Option (ℕ × ℤ)
  | back c parent value => if c = child then some (parent, value) else none
  | _ => none

def result? : Event → Option (ℕ × ℤ)
  | result id total => some (id, total)
  | _ => none

end Event

/-! ### The calls -/

/-- `Node::back` on the node `v`; the climb meets at most `fuel` nodes. -/
def back : ℕ → ℕ → ℤ → NodeMap Unit → Except Fault (NodeMap Unit × List Event)
  | 0, _, _, _ => .error .diverges
  | fuel + 1, v, value, nodes => do
    let node ← nodes.deref v
    let node := { node with
      accumulated := node.accumulated + value, pendingChildren := node.pendingChildren - 1 }
    let nodes := nodes.store v node
    if node.pendingChildren = 0 then
      let total := node.accumulated + node.localValue
      match node.parent with
      | none => .ok (nodes, [.result node.id total])
      | some parent => do
        let (nodes, events) ← back fuel parent total nodes
        .ok (nodes, .back node.id parent total :: events)
    else
      .ok (nodes, [])

/-- `Node::start` on the node `v`. `depth` counts the enclosing calls of `start`: a climb from here
passes at most that many nodes. -/
def start (msg : String) : ℕ → ℕ → ℕ → NodeMap Unit → Except Fault (NodeMap Unit × List Event)
  | 0, _, _, _ => .error .diverges
  | fuel + 1, depth, v, nodes => do
    let node ← nodes.deref v
    let node := node.resetState
    let nodes := nodes.store v node
    if node.isLeaf then
      match node.parent with
      | some parent => do
        let (nodes, events) ← back depth parent node.localValue nodes
        .ok (nodes, .received node.id msg :: .back node.id parent node.localValue :: events)
      | none => .ok (nodes, [.received node.id msg, .result node.id node.localValue])
    else do
      let (nodes, events) ← node.children.foldlM (fun r c ↦ do
        let (nodes, events) ← start msg fuel (depth + 1) c r.1
        .ok (nodes, r.2 ++ events)) (nodes, [])
      .ok (nodes, .received node.id msg :: events)

/-- `SpanningTree::start`. -/
def SpanningTree.start (t : SpanningTree Unit) (msg : String) :
    Except Fault (SpanningTree Unit × List Event) :=
  match t.root with
  | none => .error (.runtimeError "Tree not built")
  | some root => do
    let (nodes, events) ← Convergecast.start msg t.nodes.ids.length 0 root t.nodes
    .ok ({ t with nodes := nodes }, events)

/-! ### The state between two calls -/

/-- The node with other values of its two counters. -/
def Node.withCounters {Inbox : Type} (node : Node Inbox) (pending accumulated : ℤ) : Node Inbox :=
  { node with pendingChildren := pending, accumulated := accumulated }

section States

variable (T : Arborescence ℕ)

open Classical in
/-- The nodes while `v` waits: the children `done` are settled, the others untouched. -/
noncomputable def progress (v : ℕ) (done : List ℕ) (nodes : NodeMap Unit) : NodeMap Unit where
  find w :=
    if w = v then
      (nodes.find w).map
        (·.withCounters ((T.children v).length - done.length) (done.map (weight T)).sum)
    else if ∃ c ∈ done, T.Below c w then
      (nodes.find w).map (·.withCounters 0 ((T.children w).map (weight T)).sum)
    else nodes.find w
  ids := nodes.ids

/-- All children of `v` have answered. -/
noncomputable def settle (v : ℕ) (nodes : NodeMap Unit) : NodeMap Unit :=
  progress T v (T.children v) nodes

/-- Delivery of the sum of a subtree: to the parent, or at the root to the console. -/
def finish (depth v : ℕ) (value : ℤ) (nodes : NodeMap Unit) :
    Except Fault (NodeMap Unit × List Event) :=
  match T.parent v with
  | none => .ok (nodes, [.result v value])
  | some parent => do
    let (nodes, events) ← back depth parent value nodes
    .ok (nodes, .back v parent value :: events)

/-- The events below `v` before its own delivery. -/
noncomputable def trace (msg : String) : ℕ → ℕ → List Event
  | 0, _ => []
  | fuel + 1, v => .received v msg ::
      (T.children v).flatMap fun c ↦ trace msg fuel c ++ [.back c v (weight T c)]

end States

section Start

variable {T : Arborescence ℕ} {nodes : NodeMap Unit}

open Classical in
theorem find_progress_of_ne {v w : ℕ} (hw : w ≠ v) (done : List ℕ) :
    (progress T v done nodes).find w =
      if ∃ c ∈ done, T.Below c w then
        (nodes.find w).map (·.withCounters 0 ((T.children w).map (weight T)).sum)
      else nodes.find w := by
  simp only [progress, if_neg hw]

open Classical in
theorem find_settle (v : ℕ) (w : ℕ) :
    (settle T v nodes).find w =
      if T.Below v w then
        (nodes.find w).map (·.withCounters 0 ((T.children w).map (weight T)).sum)
      else nodes.find w := by
  simp only [settle, progress, sub_self]
  by_cases hw : w = v
  · subst hw
    rw [if_pos rfl, if_pos (Arborescence.Below.refl w)]
  · rw [if_neg hw, Arborescence.below_iff]
    simp only [hw, false_or]

theorem Shaped.progress (hn : Shaped nodes T) (v : ℕ) (done : List ℕ) :
    Shaped (progress T v done nodes) T := by
  refine hn.congr rfl fun w ↦ ?_
  simp only [Convergecast.progress]
  split_ifs <;> first | rfl | (rw [Option.map_map]; rfl)

theorem Shaped.settle (hn : Shaped nodes T) (v : ℕ) : Shaped (settle T v nodes) T :=
  hn.progress v (T.children v)

theorem finish_of_parent {c v : ℕ} (hparent : T.parent c = some v) (depth : ℕ) (value : ℤ)
    (nodes : NodeMap Unit) :
    finish T depth c value nodes = (back depth v value nodes).map fun r ↦
      (r.1, .back c v value :: r.2) := by
  simp only [finish, hparent]
  cases back depth v value nodes <;> rfl

/-- Before the first child, `resetState` has set the counters. -/
theorem progress_nil {v : ℕ} {node : Node Unit} (hv : nodes.find v = some node)
    (hchildren : node.children = T.children v) :
    nodes.store v node.resetState = progress T v [] nodes := by
  simp only [NodeMap.store, progress, NodeMap.mk.injEq, and_true]
  funext w
  by_cases hw : w = v
  · subst hw
    simp [hv, Node.resetState, Node.withCounters, hchildren]
  · simp [hw]

/-- The answer of the next child. -/
theorem progress_append {v c : ℕ} {done rest : List ℕ} {node : Node Unit}
    (hv : nodes.find v = some node) (hchildren : T.children v = done ++ c :: rest) :
    (settle T c (progress T v done nodes)).store v
        (node.withCounters rest.length ((done.map (weight T)).sum + weight T c)) =
      progress T v (done ++ [c]) nodes := by
  have hlength : (rest.length : ℤ) = (T.children v).length - (done ++ [c]).length := by
    rw [hchildren]
    simp
  have hids : ((settle T c (progress T v done nodes)).store v
      (node.withCounters rest.length ((done.map (weight T)).sum + weight T c))).ids =
      nodes.ids := rfl
  refine NodeMap.ext (funext fun w ↦ ?_) hids
  by_cases hw : w = v
  · subst hw
    simp only [NodeMap.store, progress, Function.update_self, hv, Option.map_some, if_true,
      hlength, List.map_append, List.map_singleton, List.sum_append, List.sum_singleton]
  · have hiff : (∃ d ∈ done ++ [c], T.Below d w) ↔ (∃ d ∈ done, T.Below d w) ∨ T.Below c w := by
      simp [or_and_right, exists_or]
    simp only [NodeMap.store, Function.update_of_ne hw, find_settle]
    by_cases hc : T.Below c w
    · rw [if_pos hc, find_progress_of_ne hw, find_progress_of_ne hw, if_pos (hiff.mpr (Or.inr hc))]
      split_ifs
      · rw [Option.map_map]
        rfl
      · rfl
    · rw [if_neg hc, find_progress_of_ne hw, find_progress_of_ne hw]
      by_cases hdone : ∃ d ∈ done, T.Below d w
      · rw [if_pos hdone, if_pos (hiff.mpr (Or.inl hdone))]
      · rw [if_neg hdone, if_neg (fun h ↦ (hiff.mp h).elim hdone hc)]

/-- One call of `back`: the last answer is passed on, any other only counted. -/
theorem back_eq (hn : Shaped nodes T) {v : ℕ} {node : Node Unit} {pending accumulated : ℤ}
    (hv : nodes.find v = some (node.withCounters pending accumulated)) (depth : ℕ) (value : ℤ) :
    back (depth + 1) v value nodes =
      if pending - 1 = 0 then
        finish T depth v (accumulated + value + v * 10)
          (nodes.store v (node.withCounters (pending - 1) (accumulated + value)))
      else
        .ok (nodes.store v (node.withCounters (pending - 1) (accumulated + value)), []) := by
  obtain ⟨-, hid, hlocal, hparent, -⟩ := hn.fields hv
  simp only [Node.withCounters] at hv hid hlocal hparent ⊢
  simp only [back, NodeMap.deref, hv, bind, Except.bind, finish, hid, hlocal, hparent]

/-- What `v` holds when its next child is settled. -/
theorem find_answered (hn : Shaped nodes T) {v c : ℕ} (hmem : v ∈ T.verts) {done rest : List ℕ}
    (hchildren : T.children v = done ++ c :: rest) :
    ∃ node, nodes.find v = some node ∧
      (settle T c (progress T v done nodes)).find v =
        some (node.withCounters (rest.length + 1) (done.map (weight T)).sum) := by
  obtain ⟨node, hv⟩ := hn.exists_node hmem
  have hparent : T.parent c = some v := (T.mem_children v c).mp (by simp [hchildren])
  have hlength : ((T.children v).length : ℤ) - done.length = rest.length + 1 := by
    rw [hchildren]
    simp
  refine ⟨node, hv, ?_⟩
  rw [find_settle, if_neg (Arborescence.not_below_parent hparent)]
  simp [progress, hv, hlength]

/-- The last answer completes the sum of `v`. -/
theorem sum_last {v c : ℕ} (hmem : v ∈ T.verts) {done : List ℕ}
    (hchildren : T.children v = done ++ [c]) :
    (done.map (weight T)).sum + weight T c + v * 10 = weight T v := by
  rw [weight_eq hmem, hchildren]
  simp
  ring

/-- The answer of the next child. The last one makes the climb go on. -/
theorem back_answered (hn : Shaped nodes T) {v c : ℕ} (hmem : v ∈ T.verts) {done rest : List ℕ}
    (hchildren : T.children v = done ++ c :: rest) (depth : ℕ) :
    back (depth + 1) v (weight T c) (settle T c (progress T v done nodes)) =
      if rest = [] then finish T depth v (weight T v) (settle T v nodes)
      else .ok (progress T v (done ++ [c]) nodes, []) := by
  obtain ⟨node, hv, hat⟩ := find_answered hn hmem hchildren
  rw [back_eq ((hn.progress v done).settle c) hat, add_sub_cancel_right,
    progress_append hv hchildren]
  cases rest with
  | nil =>
    have hsettle : progress T v (done ++ [c]) nodes = settle T v nodes := by
      rw [settle, hchildren]
    rw [if_pos (by simp), if_pos rfl, sum_last hmem hchildren, hsettle]
  | cons c' rest => rw [if_neg (by simp; omega), if_neg (List.cons_ne_nil _ _)]

/-- The loop over the children of `v`: the last of them delivers the sum of `v`. -/
theorem startChildren_eq {msg : String} {fuel : ℕ} (hn : Shaped nodes T) {v : ℕ}
    (hmem : v ∈ T.verts)
    (hstart : ∀ c ∈ T.children v, ∀ (depth : ℕ) (nodes : NodeMap Unit), Shaped nodes T →
      start msg fuel depth c nodes = (finish T depth c (weight T c) (settle T c nodes)).map
        fun r ↦ (r.1, trace T msg fuel c ++ r.2))
    (depth : ℕ) {done rest : List ℕ} (hchildren : T.children v = done ++ rest) (hrest : rest ≠ [])
    (events : List Event) :
    rest.foldlM (fun r c ↦ do
        let (nodes, events) ← start msg fuel (depth + 1) c r.1
        .ok (nodes, r.2 ++ events)) (progress T v done nodes, events) =
      (finish T depth v (weight T v) (settle T v nodes)).map fun r ↦
        (r.1, events ++ (rest.flatMap fun c ↦
          trace T msg fuel c ++ [.back c v (weight T c)]) ++ r.2) := by
  induction rest generalizing done events with
  | nil => exact absurd rfl hrest
  | cons c rest ih =>
    have hc : c ∈ T.children v := by simp [hchildren]
    rw [List.foldlM_cons, hstart c hc (depth + 1) _ (hn.progress v done),
      finish_of_parent ((T.mem_children v c).mp hc), back_answered hn hmem hchildren]
    cases rest with
    | nil =>
      rw [if_pos rfl]
      cases finish T depth v (weight T v) (settle T v nodes) with
      | error f => rfl
      | ok r => simp [bind, Except.bind, Except.map, pure, Except.pure]
    | cons c' rest =>
      rw [if_neg (List.cons_ne_nil _ _)]
      have hchildren' : T.children v = (done ++ [c]) ++ c' :: rest := by simp [hchildren]
      have hnext := ih hchildren' (List.cons_ne_nil _ _)
        (events ++ (trace T msg fuel c ++ [.back c v (weight T c)]))
      simp only [bind, Except.bind, Except.map] at hnext ⊢
      rw [hnext]
      simp

/-- `start` on a node settles its subtree and delivers the sum of the subtree. -/
theorem start_eq {msg : String} {fuel : ℕ} {v : ℕ} (hmem : v ∈ T.verts)
    (hfuel : T.verts.card ≤ fuel + T.rank v) (depth : ℕ) {nodes : NodeMap Unit}
    (hn : Shaped nodes T) :
    start msg fuel depth v nodes =
      (finish T depth v (weight T v) (settle T v nodes)).map fun r ↦
        (r.1, trace T msg fuel v ++ r.2) := by
  induction fuel generalizing v depth nodes with
  | zero =>
    have hlt := T.rank_lt v hmem
    omega
  | succ fuel ih =>
    obtain ⟨node, hv⟩ := hn.exists_node hmem
    obtain ⟨-, hid, hlocal, hparent, hchildren⟩ := hn.fields hv
    have hreset := progress_nil hv hchildren
    simp only [start, NodeMap.deref, hv, bind, Except.bind, hreset]
    by_cases hleaf : T.children v = []
    · have hweight : weight T v = v * 10 := by
        rw [weight_eq hmem, hleaf]
        simp
      have hsettle : progress T v [] nodes = settle T v nodes := by rw [settle, hleaf]
      simp only [Node.isLeaf, Node.resetState, hchildren, hleaf, List.isEmpty_nil, if_true, hid,
        hlocal, hparent, finish, hweight, hsettle, trace, List.flatMap_nil]
      cases T.parent v with
      | none => rfl
      | some p =>
        simp only [Except.map, bind, Except.bind]
        cases back depth p (v * 10) (settle T v nodes) <;> rfl
    · have hfalse : (T.children v).isEmpty = false := by simpa using hleaf
      have hstart : ∀ c ∈ T.children v, ∀ (depth : ℕ) (nodes : NodeMap Unit), Shaped nodes T →
          start msg fuel depth c nodes = (finish T depth c (weight T c) (settle T c nodes)).map
            fun r ↦ (r.1, trace T msg fuel c ++ r.2) := fun c hc depth nodes hn ↦ by
        obtain ⟨hcv, hcfuel⟩ := Arborescence.fuel_child hc hfuel
        exact ih hcv hcfuel depth hn
      have hloop := startChildren_eq hn hmem hstart depth (List.nil_append _).symm hleaf []
      simp only [bind, Except.bind] at hloop
      simp only [Node.isLeaf, Node.resetState, hchildren, hfalse, hid, hloop]
      cases finish T depth v (weight T v) (settle T v nodes) <;> simp [Except.map, trace]

end Start

end WsServer.Convergecast
