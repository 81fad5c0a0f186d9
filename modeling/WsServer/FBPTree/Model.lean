import WsServer.Foundations.Heap
import WsServer.Foundations.OrderedEntries

/-!
# The B+ tree of `fbptree.hpp` and `fbptree.cpp`

Nodes live in a heap and refer to each other by address, as in the source: `children` are the
owning pointers of an inner node, `next` is the raw pointer that chains a leaf to its right
neighbour. Every dereference and every vector access is checked, so `none` stands for undefined
behaviour (a dangling pointer, an index or an iterator out of range) or for a traversal that does
not end. The source fixes `Key` to 64-bit integers and `Value` to strings; the code only compares
keys and copies values, and the model is generic over both. The arguments of `insert` are the
caller's own: `split_child` may move the key or the value that a reference into the tree stands for
before `insert_non_full` copies it, as in `t.insert(k, (*it).second)`. Such calls are left out.

`children` holds plain addresses: a null child exists only inside `split_child`, between moving the
upper half out and shrinking the vector. The fuel of the recursive traversals is the number of
addresses ever handed out, which no path through distinct nodes can exceed.
-/

set_option autoImplicit false
set_option relaxedAutoImplicit false

namespace WsServer.FBPTree

open Foundations

/-! ### Checked vector operations -/

section Vectors

variable {α : Type*}

/-- The elements of `[begin() + i, end())`. -/
def suffix? (v : List α) (i : ℕ) : Option (List α) :=
  if i ≤ v.length then some (v.drop i) else none

/-- `v.insert(v.begin() + i, x)`. -/
def insertAt? (v : List α) (i : ℕ) (x : α) : Option (List α) :=
  if i ≤ v.length then some (v.take i ++ x :: v.drop i) else none

/-- `v[i] = x`. -/
def setAt? (v : List α) (i : ℕ) (x : α) : Option (List α) :=
  if i < v.length then some (v.set i x) else none

end Vectors

/-! ### Data model -/

/-- A `Node` object: a `LeafNode`, or an inner node. -/
inductive Node (Key Value : Type)
  | leaf (keys : List Key) (values : List Value) (next : Option ℕ)
  | inner (keys : List Key) (children : List ℕ)
  deriving DecidableEq

namespace Node

variable {Key Value : Type}

/-- The flag `is_leaf`. -/
def isLeaf : Node Key Value → Bool
  | leaf _ _ _ => true
  | inner _ _ => false

def keys : Node Key Value → List Key
  | leaf keys _ _ => keys
  | inner keys _ => keys

end Node

abbrev Memory (Key Value : Type) := Heap (Node Key Value)

/-- The members `root_` and `size_` of a tree object. -/
structure FBPlusTree where
  root : Option ℕ := none
  size : ℕ := 0
  deriving DecidableEq

def kMinDegree : ℕ := 32

def maxKeys : ℕ := 2 * kMinDegree - 1

variable {Key Value : Type} [LinearOrder Key]

/-- `std::lower_bound` index, used for leaf key search. -/
def lb (v : List Key) (x : Key) : ℕ := lowerBound v x

/-- `std::upper_bound` index, used for inner node child selection. -/
def ub (v : List Key) (x : Key) : ℕ := upperBound v x

/-! ### Cloning -/

/-- `if (last && cl) last->next = cl;` -/
def linkLeaf (h : Memory Key Value) (last cl : Option ℕ) : Option (Memory Key Value) :=
  match last, cl with
  | some l, some r => do
    let .leaf keys values _ ← h.read l | none
    h.write l (.leaf keys values (some r))
  | _, _ => some h

/-- The loop of `clone_internal` over the children of the source node. `d` is the clone under
construction; `first` and `last` are the outermost leaves cloned so far. -/
def cloneChildren
    (clone : Memory Key Value → ℕ → Option (Memory Key Value × ℕ × Option ℕ × Option ℕ)) (d : ℕ) :
    List ℕ → Memory Key Value → Option ℕ → Option ℕ →
      Option (Memory Key Value × Option ℕ × Option ℕ)
  | [], h, first, last => some (h, first, last)
  | c :: rest, h, first, last => do
    let (h, child, cl, cr) ← clone h c
    let first := if first.isNone then cl else first
    let h ← linkLeaf h last cl
    let last := if cr.isSome then cr else last
    let .inner keys children ← h.read d | none
    let h ← h.write d (.inner keys (children ++ [child]))
    cloneChildren clone d rest h first last

/-- `clone_internal` on a non-null node: the clone, its leftmost leaf and its rightmost leaf. -/
def cloneInternal :
    ℕ → Memory Key Value → ℕ → Option (Memory Key Value × ℕ × Option ℕ × Option ℕ)
  | 0, _, _ => none
  | fuel + 1, h, src => do
    match ← h.read src with
    | .leaf keys values _ =>
      let (d, h) := h.alloc (.leaf keys values none)
      some (h, d, some d, some d)
    | .inner keys children =>
      let (d, h) := h.alloc (.inner keys [])
      let (h, first, last) ← cloneChildren (cloneInternal fuel) d children h none none
      some (h, d, first, last)

def cloneNode (h : Memory Key Value) (src : Option ℕ) : Option (Memory Key Value × Option ℕ) :=
  match src with
  | none => some (h, none)
  | some n => (cloneInternal h.bound h n).map fun r ↦ (r.1, some r.2.1)

/-! ### Basic operations -/

def FBPlusTree.empty (t : FBPlusTree) : Bool := t.size == 0

/-- Destruction of an owned node, its descendants first. -/
def destroyNode : ℕ → Memory Key Value → ℕ → Option (Memory Key Value)
  | 0, _, _ => none
  | fuel + 1, h, n => do
    match ← h.read n with
    | .leaf _ _ _ => h.free n
    | .inner _ children =>
      let h ← children.foldlM (destroyNode fuel) h
      h.free n

/-- `root_.reset()`, or the destruction of an object that owns `root`. -/
def resetRoot (h : Memory Key Value) (root : Option ℕ) : Option (Memory Key Value) :=
  match root with
  | none => some h
  | some n => destroyNode h.bound h n

def clear (h : Memory Key Value) (t : FBPlusTree) : Option (Memory Key Value × FBPlusTree) := do
  let h ← resetRoot h t.root
  some (h, { root := none, size := 0 })

def copyConstruct (h : Memory Key Value) (other : FBPlusTree) :
    Option (Memory Key Value × FBPlusTree) := do
  let (h, root) ← cloneNode h other.root
  some (h, { root := root, size := other.size })

/-- Copy assignment between two different objects: the copy is swapped in and the temporary, which
now holds the old content, is destroyed. Self-assignment returns before this. -/
def copyAssign (h : Memory Key Value) (t other : FBPlusTree) :
    Option (Memory Key Value × FBPlusTree) := do
  let (h, tmp) ← copyConstruct h other
  let h ← resetRoot h t.root
  some (h, tmp)

/-! ### Search -/

def findLeafFrom (h : Memory Key Value) (key : Key) : ℕ → ℕ → Option ℕ
  | 0, _ => none
  | fuel + 1, n => do
    match ← h.read n with
    | .leaf _ _ _ => some n
    | .inner keys children =>
      let child ← children[ub keys key]?
      findLeafFrom h key fuel child

/-- `find_leaf`: the inner `none` is the null pointer returned for a null root. -/
def findLeaf (h : Memory Key Value) (t : FBPlusTree) (key : Key) : Option (Option ℕ) :=
  match t.root with
  | none => some none
  | some n => (findLeafFrom h key h.bound n).map some

omit [LinearOrder Key] in
def leftmostFrom (h : Memory Key Value) : ℕ → ℕ → Option ℕ
  | 0, _ => none
  | fuel + 1, n => do
    match ← h.read n with
    | .leaf _ _ _ => some n
    | .inner _ children =>
      let child ← children.head?
      leftmostFrom h fuel child

def leftmostLeaf (h : Memory Key Value) (t : FBPlusTree) : Option (Option ℕ) :=
  match t.root with
  | none => some none
  | some n => (leftmostFrom h h.bound n).map some

/-- `find`: the outer `Option` is definedness, the inner one is the result. -/
def find (h : Memory Key Value) (t : FBPlusTree) (key : Key) : Option (Option Value) := do
  match ← findLeaf h t key with
  | none => some none
  | some leaf =>
    let .leaf keys values _ ← h.read leaf | none
    let idx := lb keys key
    if keys[idx]? = some key then values[idx]?.map some else some none

/-! ### Splitting -/

def splitChild (h : Memory Key Value) (parent i : ℕ) : Option (Memory Key Value) := do
  let .inner parentKeys parentChildren ← h.read parent | none
  let child ← parentChildren[i]?
  match ← h.read child with
  | .leaf keys values next =>
    let mid := keys.length / 2
    let neuKeys ← suffix? keys mid
    let neuValues ← suffix? values mid
    let (neu, h) := h.alloc (.leaf neuKeys neuValues next)
    let h ← h.write child (.leaf (keys.take mid) (values.take mid) (some neu))
    let promote ← neuKeys.head?
    let parentKeys ← insertAt? parentKeys i promote
    let parentChildren ← insertAt? parentChildren (i + 1) neu
    h.write parent (.inner parentKeys parentChildren)
  | .inner keys children =>
    let mid := keys.length / 2
    let promote ← keys[mid]?
    -- the left half keeps `[0, mid)`, the right half gets `(mid, end)`
    let neuKeys ← suffix? keys (mid + 1)
    let neuChildren ← suffix? children (mid + 1)
    let (neu, h) := h.alloc (.inner neuKeys neuChildren)
    let h ← h.write child (.inner (keys.take mid) (children.take (mid + 1)))
    let parentKeys ← insertAt? parentKeys i promote
    let parentChildren ← insertAt? parentChildren (i + 1) neu
    h.write parent (.inner parentKeys parentChildren)

/-! ### Insertion -/

/-- `insert_non_full`; the second component of the state is the member `size_`. -/
def insertNonFull (key : Key) (value : Value) :
    ℕ → Memory Key Value → ℕ → ℕ → Option (Memory Key Value × ℕ)
  | 0, _, _, _ => none
  | fuel + 1, h, size, node => do
    match ← h.read node with
    | .leaf keys values next =>
      let idx := lb keys key
      if keys[idx]? = some key then
        let values ← setAt? values idx value
        let h ← h.write node (.leaf keys values next)
        some (h, size)
      else
        let keys ← insertAt? keys idx key
        let values ← insertAt? values idx value
        let h ← h.write node (.leaf keys values next)
        some (h, size + 1)
    | .inner keys children =>
      let idx := ub keys key
      let child ← children[idx]?
      let childNode ← h.read child
      if maxKeys ≤ childNode.keys.length then
        let h ← splitChild h node idx
        -- `node` now holds the promoted separator; an exact match goes right
        let .inner keys children ← h.read node | none
        let separator ← keys[idx]?
        if separator ≤ key then
          let child ← children[idx + 1]?
          insertNonFull key value fuel h size child
        else
          insertNonFull key value fuel h size child
      else
        insertNonFull key value fuel h size child

/-- `key` and `value` are no references into the tree. -/
def insert (h : Memory Key Value) (t : FBPlusTree) (key : Key) (value : Value) :
    Option (Memory Key Value × FBPlusTree) := do
  match t.root with
  | none =>
    let (leaf, h) := h.alloc (.leaf [key] [value] none)
    some (h, { root := some leaf, size := 1 })
  | some root =>
    let rootNode ← h.read root
    if maxKeys ≤ rootNode.keys.length then
      let (newRoot, h) := h.alloc (.inner [] [root])
      let h ← splitChild h newRoot 0
      let (h, size) ← insertNonFull key value h.bound h t.size newRoot
      some (h, { root := some newRoot, size := size })
    else
      let (h, size) ← insertNonFull key value h.bound h t.size root
      some (h, { root := some root, size := size })

/-! ### Iteration -/

/-- `FBPlusTree::iterator`; the default value is `end()`. -/
structure Iterator where
  leaf : Option ℕ := none
  index : ℕ := 0
  deriving DecidableEq

/-- `operator*`. -/
def Iterator.deref (h : Memory Key Value) (it : Iterator) : Option (Key × Value) := do
  let leaf ← it.leaf
  let .leaf keys values _ ← h.read leaf | none
  let key ← keys[it.index]?
  let value ← values[it.index]?
  some (key, value)

/-- `operator++`. -/
def Iterator.advance (h : Memory Key Value) (it : Iterator) : Option Iterator :=
  match it.leaf with
  | none => some { leaf := none, index := 0 }
  | some leaf => do
    let .leaf keys _ next ← h.read leaf | none
    if keys.length ≤ it.index + 1 then some { leaf := next, index := 0 }
    else some { leaf := some leaf, index := it.index + 1 }

/-- `begin()`. -/
def begin (h : Memory Key Value) (t : FBPlusTree) : Option Iterator := do
  match ← leftmostLeaf h t with
  | none => some {}
  | some leaf =>
    let .leaf keys _ _ ← h.read leaf | none
    if keys.isEmpty then some {} else some { leaf := some leaf, index := 0 }

/-- The loop `for (it; it != end(); ++it)`, collecting `*it`. -/
def iterateFrom (h : Memory Key Value) : ℕ → Iterator → Option (List (Key × Value))
  | fuel, it =>
    if it = {} then some []
    else match fuel with
      | 0 => none
      | fuel + 1 => do
        let entry ← it.deref h
        let it ← it.advance h
        let rest ← iterateFrom h fuel it
        some (entry :: rest)

/-- Iteration from `begin()` to `end()` in at most `fuel` steps. -/
def iterate (h : Memory Key Value) (t : FBPlusTree) (fuel : ℕ) : Option (List (Key × Value)) := do
  let it ← begin h t
  iterateFrom h fuel it

end WsServer.FBPTree
