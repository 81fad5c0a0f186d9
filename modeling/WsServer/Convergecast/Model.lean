import Mathlib.Logic.Function.Basic
import Mathlib.Tactic

/-!
# Graphs and spanning trees of `graph.hpp`, `node.hpp` and `spanning_tree.hpp`

The synchronous and the asynchronous variant build their trees by the same code; their nodes differ
in the inbox only, so everything up to `build` is generic in the type of the inbox. A node is named
by its id, and a pointer to a node is the id, or `none` for the null pointer. Integers are exact.
-/

set_option autoImplicit false
set_option relaxedAutoImplicit false

namespace WsServer.Convergecast

/-- How a call ends when it does not return: the exceptions of the source with their texts, an
access through a null pointer or out of range, or a loop that exceeds its fuel. -/
inductive Fault
  | outOfRange (what : String)
  | runtimeError (what : String)
  | undefined
  | diverges
  deriving DecidableEq

/-! ### Graphs -/

structure Graph where
  numVertices : ℕ
  adj : List (List ℕ)
  deriving DecidableEq

namespace Graph

/-- The constructor. -/
def new (n : ℕ) : Graph := { numVertices := n, adj := List.replicate n [] }

/-- `adj[u].push_back(v)`. -/
def pushBack (adj : List (List ℕ)) (u v : ℕ) : Except Fault (List (List ℕ)) :=
  if u < adj.length then .ok (adj.modify u (· ++ [v])) else .error .undefined

def addEdge (g : Graph) (u v : ℤ) : Except Fault Graph :=
  if u < 0 ∨ v < 0 ∨ g.numVertices ≤ u ∨ g.numVertices ≤ v then
    .error (.outOfRange "Invalid vertex index")
  else do
    let adj ← pushBack g.adj u.toNat v.toNat
    let adj ← pushBack adj v.toNat u.toNat
    .ok { g with adj := adj }

/-- `adj.at(u)`, whose exception carries a text of the standard library. -/
def neighbors (g : Graph) (u : ℕ) : Except Fault (List ℕ) :=
  match g.adj[u]? with
  | some vs => .ok vs
  | none => .error (.outOfRange "vector::at")

def size (g : Graph) : ℕ := g.numVertices

/-- A sequence of calls of `addEdge`, none of which throws. -/
def addEdges (g : Graph) (edges : List (ℤ × ℤ)) : Except Fault Graph :=
  edges.foldlM (fun g e ↦ g.addEdge e.1 e.2) g

end Graph

/-! ### Nodes -/

structure Node (Inbox : Type) where
  id : ℕ
  localValue : ℤ
  parent : Option ℕ
  children : List ℕ
  pendingChildren : ℤ
  accumulated : ℤ
  inbox : Inbox
  deriving DecidableEq

namespace Node

variable {Inbox : Type}

/-- The constructor `Node(id, parent)`. -/
def new (inbox : Inbox) (id : ℕ) (parent : Option ℕ) : Node Inbox where
  id := id
  localValue := id * 10
  parent := parent
  children := []
  pendingChildren := 0
  accumulated := 0
  inbox := inbox

def isLeaf (node : Node Inbox) : Bool := node.children.isEmpty

def resetState (node : Node Inbox) : Node Inbox :=
  { node with accumulated := 0, pendingChildren := node.children.length }

end Node

/-! ### Spanning trees -/

/-- The map that owns the nodes; `ids` are its keys in the order of insertion. -/
@[ext]
structure NodeMap (Inbox : Type) where
  find : ℕ → Option (Node Inbox)
  ids : List ℕ

namespace NodeMap

variable {Inbox : Type}

def clear : NodeMap Inbox := { find := fun _ ↦ none, ids := [] }

/-- `nodes[id].get()` for reading: the null pointer when the key is new. -/
def get (nodes : NodeMap Inbox) (id : ℕ) : Option ℕ := (nodes.find id).map fun _ ↦ id

/-- `nodes[id] = std::make_unique<Node>(…)`. -/
def assign (nodes : NodeMap Inbox) (id : ℕ) (node : Node Inbox) : NodeMap Inbox where
  find := Function.update nodes.find id (some node)
  ids := if (nodes.find id).isSome then nodes.ids else nodes.ids ++ [id]

/-- Dereferencing a pointer. -/
def deref (nodes : NodeMap Inbox) (p : ℕ) : Except Fault (Node Inbox) :=
  match nodes.find p with
  | some node => .ok node
  | none => .error .undefined

/-- Changing the members of an existing node. -/
def store (nodes : NodeMap Inbox) (p : ℕ) (node : Node Inbox) : NodeMap Inbox :=
  { nodes with find := Function.update nodes.find p (some node) }

end NodeMap

structure SpanningTree (Inbox : Type) where
  nodes : NodeMap Inbox
  root : Option ℕ

/-- The local variables of `build` together with the map it fills. -/
structure Search (Inbox : Type) where
  nodes : NodeMap Inbox
  visited : List Bool
  queue : List ℕ

namespace SpanningTree

variable {Inbox : Type}

/-- An object on which `build` was never called. -/
def unbuilt : SpanningTree Inbox := { nodes := .clear, root := none }

def getNode (t : SpanningTree Inbox) (id : ℕ) : Option (Node Inbox) := t.nodes.find id

/-- The loop over the neighbours of `u`. -/
def visitNeighbors (inbox : Inbox) (u : ℕ) : List ℕ → Search Inbox → Except Fault (Search Inbox)
  | [], s => .ok s
  | v :: rest, s =>
    match s.visited[v]? with
    | none => .error .undefined
    | some true => visitNeighbors inbox u rest s
    | some false => do
      let visited := s.visited.set v true
      let nodes := s.nodes.assign v (Node.new inbox v (s.nodes.get u))
      let parent ← nodes.deref u
      let nodes := nodes.store u { parent with children := parent.children ++ [v] }
      visitNeighbors inbox u rest { nodes := nodes, visited := visited, queue := s.queue ++ [v] }

/-- The loop `while (!q.empty())`. -/
def visitQueue (inbox : Inbox) (g : Graph) : ℕ → Search Inbox → Except Fault (Search Inbox)
  | fuel, s =>
    match s.queue with
    | [] => .ok s
    | u :: queue =>
      match fuel with
      | 0 => .error .diverges
      | fuel + 1 => do
        let neighbors ← g.neighbors u
        let s ← visitNeighbors inbox u neighbors { s with queue := queue }
        visitQueue inbox g fuel s

/-- `build`. The fuel of the loop is the number of vertices. -/
def build (inbox : Inbox) (t : SpanningTree Inbox) (g : Graph) (rootId : ℤ) :
    Except Fault (SpanningTree Inbox) :=
  if rootId < 0 ∨ g.size ≤ rootId then
    .error (.outOfRange "Invalid root ID")
  else do
    let t := { t with nodes := .clear, root := none }
    let visited := List.replicate g.size false
    let root := rootId.toNat
    let nodes := t.nodes.assign root (Node.new inbox root none)
    let t := { t with root := nodes.get root }
    if root < visited.length then
      let s ← visitQueue inbox g g.size
        { nodes := nodes, visited := visited.set root true, queue := [root] }
      .ok { t with nodes := s.nodes }
    else
      .error .undefined

end SpanningTree

end WsServer.Convergecast
