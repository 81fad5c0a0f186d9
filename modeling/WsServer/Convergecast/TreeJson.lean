import WsServer.Convergecast.Async
import WsServer.Foundations.Json

/-!
# The JSON text of a tree

`toJSON` prints the nodes from the root, each with the list of its children. What it prints of a
standing tree is the text of an ordered tree (`jsonNode_eq`), and decoding the text of an ordered
tree gives the tree back (`decode_text`).
-/

set_option autoImplicit false
set_option relaxedAutoImplicit false

namespace WsServer.Convergecast

open Foundations

/-! ### The source -/

/-- The loop over the children: a comma after each but the last. -/
def jsonChildren (jsonNode : ℕ → Except Fault String) : List ℕ → Except Fault String
  | [] => .ok ""
  | c :: rest => do
    let text ← jsonNode c
    let more ← jsonChildren jsonNode rest
    .ok (text ++ (if rest.isEmpty then "" else ",") ++ more)

/-- `jsonNode`, on a tree of at most `fuel` levels. -/
def jsonNode (nodes : NodeMap (List Message)) : ℕ → Option ℕ → Except Fault String
  | _, none => .ok "null"
  | 0, some _ => .error .diverges
  | fuel + 1, some n => do
    let node ← nodes.deref n
    let children ← jsonChildren (fun c ↦ jsonNode nodes fuel (some c)) node.children
    .ok ("\x7b \"id\": " ++ toString node.id ++ ", \"children\": [" ++ children ++ "] \x7d")

def SpanningTree.toJSON (t : SpanningTree (List Message)) : Except Fault String :=
  jsonNode t.nodes t.nodes.ids.length t.root

/-! ### Ordered trees -/

/-- A rooted tree with an order on the children of each node. -/
inductive OrderedTree
  | node (id : ℤ) (children : List OrderedTree)

namespace OrderedTree

theorem induction {P : OrderedTree → Prop}
    (node : ∀ id children, (∀ t ∈ children, P t) → P (.node id children)) (t : OrderedTree) : P t :=
  OrderedTree.rec (motive_1 := P) (motive_2 := fun children ↦ ∀ t ∈ children, P t)
    (fun id children ih ↦ node id children ih) (fun _ h ↦ absurd h List.not_mem_nil)
    (fun _ _ hhead htail ↦ List.forall_mem_cons.mpr ⟨hhead, htail⟩) t

def id : OrderedTree → ℤ
  | .node id _ => id

/-- The tree as a JSON value. -/
def json : OrderedTree → Json.Value
  | .node id children => .object [("id".toList, .number (Json.integerText id)),
      ("children".toList, .array (children.map json))]

/-- Texts with commas between them. -/
def separated : List (List Char) → List Char
  | [] => []
  | text :: texts => text ++ (if texts.isEmpty then [] else [',']) ++ separated texts

/-- The text of the tree. -/
def text : OrderedTree → List Char
  | .node id children => "\x7b \"id\": ".toList ++ Json.integerText id ++
      ", \"children\": [".toList ++ separated (children.map text) ++ "] \x7d".toList

mutual

/-- Reads an object with an integer `id` and an array `children`. -/
def ofJson : Json.Value → Option OrderedTree
  | .object [(key, .number text), (key', .array items)] =>
    if key = "id".toList ∧ key' = "children".toList then do
      let id ← Json.integer text
      let children ← ofItems items
      some (.node id children)
    else none
  | _ => none

def ofItems : List Json.Value → Option (List OrderedTree)
  | [] => some []
  | item :: items => do
    let child ← ofJson item
    let children ← ofItems items
    some (child :: children)

end

def decode (text : String) : Option OrderedTree := (Json.parse text.toList).bind ofJson

theorem ofJson_json (t : OrderedTree) : ofJson t.json = some t := by
  induction t using OrderedTree.induction with
  | node id children ih =>
    have hitems : ofItems (children.map json) = some children := by
      clear id
      induction children with
      | nil => simp [ofItems]
      | cons t ts ihs =>
        obtain ⟨ht, hts⟩ := List.forall_mem_cons.mp ih
        simp [ofItems, ht, ihs hts]
    simp [json, ofJson, Json.integer_integerText, hitems]

/-! ### Parsing the text of a tree -/

theorem text_eq (id : ℤ) (children : List OrderedTree) :
    text (.node id children) = '{' :: ' ' :: '"' :: ("id".toList ++ '"' :: ':' :: ' ' ::
      (Json.integerText id ++ ',' :: ' ' :: '"' :: ("children".toList ++ '"' :: ':' :: ' ' ::
        '[' :: (separated (children.map text) ++ [']', ' ', '}'])))) := by
  have hopening : "\x7b \"id\": ".toList = '{' :: ' ' :: '"' :: ("id".toList ++ ['"', ':', ' ']) :=
    rfl
  have hmiddle : ", \"children\": [".toList =
      ',' :: ' ' :: '"' :: ("children".toList ++ ['"', ':', ' ', '[']) := rfl
  have hclosing : "] \x7d".toList = [']', ' ', '}'] := rfl
  rw [text, hopening, hmiddle, hclosing]
  simp only [List.append_assoc, List.cons_append, List.nil_append]

theorem skipBlank_text (t : OrderedTree) (rest : List Char) :
    Json.skipBlank (text t ++ rest) = text t ++ rest := by
  cases t with
  | node id children =>
    rw [text_eq]
    exact Json.skipBlank_cons (by decide)

/-- The texts of the children up to the closing bracket. -/
theorem elements_separated {ts : List OrderedTree} (hne : ts ≠ [])
    (hvalue : ∀ t ∈ ts, ∀ (fuel : ℕ) (rest : List Char), (text t).length ≤ fuel →
      Json.value fuel (text t ++ rest) = some (t.json, rest))
    {fuel : ℕ} {rest : List Char} (hfuel : (separated (ts.map text)).length < fuel) :
    Json.elements fuel (separated (ts.map text) ++ ']' :: rest) = some (ts.map json, rest) := by
  induction ts generalizing fuel with
  | nil => exact absurd rfl hne
  | cons t ts ih =>
    obtain ⟨ht, hts⟩ := List.forall_mem_cons.mp hvalue
    obtain ⟨fuel, rfl⟩ : ∃ k, fuel = k + 1 := ⟨fuel - 1, by omega⟩
    rw [List.map_cons, separated, List.length_append, List.length_append] at hfuel
    rw [List.map_cons, separated, List.append_assoc, List.append_assoc, Json.elements,
      skipBlank_text, ht fuel _ (by omega)]
    cases ts with
    | nil => simp [Json.skipBlank, Json.isBlank, separated]
    | cons t' ts =>
      have hrest : Json.elements fuel (separated ((t' :: ts).map text) ++ ']' :: rest) =
          some ((t' :: ts).map json, rest) := by
        apply ih (List.cons_ne_nil _ _) hts
        simp only [List.map_cons, List.isEmpty_cons, Bool.false_eq_true, if_false,
          List.length_singleton] at hfuel ⊢
        omega
      simp only [List.map_cons] at hrest
      simp [Json.skipBlank, Json.isBlank, hrest]

/-- The array of the children. -/
theorem value_children {ts : List OrderedTree}
    (hvalue : ∀ t ∈ ts, ∀ (fuel : ℕ) (rest : List Char), (text t).length ≤ fuel →
      Json.value fuel (text t ++ rest) = some (t.json, rest))
    {fuel : ℕ} {rest : List Char} (hfuel : (separated (ts.map text)).length < fuel) :
    Json.value (fuel + 1) ('[' :: (separated (ts.map text) ++ ']' :: rest)) =
      some (.array (ts.map json), rest) := by
  cases ts with
  | nil => rfl
  | cons t ts =>
    have helements : Json.elements fuel (separated ((t :: ts).map text) ++ ']' :: rest) =
        some ((t :: ts).map json, rest) :=
      elements_separated (List.cons_ne_nil t ts) hvalue hfuel
    rw [Json.value_array, helements]
    · rfl
    · rw [List.map_cons, separated, List.append_assoc, List.append_assoc, skipBlank_text]
      cases t
      rw [text_eq]
      simp

/-- The parser reads the text of a tree as its JSON value. -/
theorem value_text (t : OrderedTree) (fuel : ℕ) (rest : List Char)
    (hfuel : (text t).length ≤ fuel) :
    Json.value fuel (text t ++ rest) = some (t.json, rest) := by
  induction t using OrderedTree.induction generalizing fuel rest with
  | node id children ih =>
    rw [text_eq] at hfuel ⊢
    simp only [List.length_cons, List.length_append, List.length_nil] at hfuel
    obtain ⟨fuel, rfl⟩ : ∃ k, fuel = k + 4 := ⟨fuel - 4, by omega⟩
    have harray : Json.value (fuel + 1) ('[' :: (separated (children.map text) ++
        ']' :: ' ' :: '}' :: rest)) = some (.array (children.map json), ' ' :: '}' :: rest) :=
      value_children ih (by omega)
    have hchildren : Json.members (fuel + 2) (' ' :: '"' :: ("children".toList ++ '"' :: ':' ::
        ' ' :: '[' :: (separated (children.map text) ++ ']' :: ' ' :: '}' :: rest))) =
          some ([("children".toList, .array (children.map json))], rest) :=
      Json.members_single (Json.skipBlank_space _) (by decide)
        ((congrArg _ (Json.skipBlank_space _)).trans harray) rfl
    have hhead (input : List Char) : (Json.skipBlank (' ' :: '"' :: input)).head? ≠ some '}' := by
      rw [Json.skipBlank_space, Json.skipBlank_cons (by decide), List.head?_cons]
      decide
    have hid (rest : List Char) : Json.value (fuel + 2)
        (Json.skipBlank (' ' :: (Json.integerText id ++ ',' :: rest))) =
          some (.number (Json.integerText id), ',' :: rest) := by
      rw [Json.skipBlank_space, Json.skipBlank_integerText]
      exact Json.value_integerText _ (by simp [Json.isNumberChar, Char.isDigit])
    have hmembers : Json.members (fuel + 3) (' ' :: '"' :: ("id".toList ++ '"' :: ':' :: ' ' ::
        (Json.integerText id ++ ',' :: ' ' :: '"' :: ("children".toList ++ '"' :: ':' :: ' ' ::
          '[' :: (separated (children.map text) ++ ']' :: ' ' :: '}' :: rest))))) =
          some ([("id".toList, .number (Json.integerText id)),
            ("children".toList, .array (children.map json))], rest) := by
      rw [Json.members_cons (Json.skipBlank_space _) (by decide) (hid _) rfl, hchildren]
      rfl
    simp only [List.cons_append, List.append_assoc, List.nil_append]
    rw [Json.value_object _ (hhead _), hmembers, json]
    rfl

theorem decode_text (t : OrderedTree) {output : String} (houtput : output.toList = text t) :
    decode output = some t := by
  have hvalue : Json.value (text t).length (Json.skipBlank (text t)) = some (t.json, []) := by
    have hskip := skipBlank_text t []
    have hparsed := value_text t _ [] le_rfl
    rw [List.append_nil] at hskip hparsed
    rw [hskip, hparsed]
  rw [decode, houtput, Json.parse_of_value hvalue]
  exact ofJson_json t

end OrderedTree

/-! ### The text of a standing tree -/

open OrderedTree

/-- The ordered tree below a vertex, cut off after `fuel` levels. -/
def unfold (children : ℕ → List ℕ) : ℕ → ℕ → OrderedTree
  | 0, v => .node v []
  | fuel + 1, v => .node v ((children v).map (unfold children fuel))

/-- The ordered tree shows the node `v` and, in order, what is below its children. -/
inductive Depicts {Inbox : Type} (t : SpanningTree Inbox) : ℕ → OrderedTree → Prop
  | node {v : ℕ} {node : Node Inbox} {children : List OrderedTree}
      (hnode : t.getNode v = some node)
      (hchildren : List.Forall₂ (Depicts t) node.children children) :
      Depicts t v (.node v children)

section Standing

variable {T : Arborescence ℕ} {nodes : NodeMap (List Message)}

theorem jsonChildren_eq {print : ℕ → Except Fault String} {shown : ℕ → OrderedTree}
    {cs : List ℕ}
    (hprint : ∀ c ∈ cs, ∃ output, print c = .ok output ∧ output.toList = text (shown c)) :
    ∃ output, jsonChildren print cs = .ok output ∧
      output.toList = separated ((cs.map shown).map text) := by
  induction cs with
  | nil => exact ⟨"", rfl, rfl⟩
  | cons c cs ih =>
    obtain ⟨⟨first, hfirst, hfirstText⟩, hprint⟩ := List.forall_mem_cons.mp hprint
    obtain ⟨more, hmore, hmoreText⟩ := ih hprint
    refine ⟨first ++ (if cs.isEmpty then "" else ",") ++ more, ?_, ?_⟩
    · simp only [jsonChildren, hfirst, hmore, bind, Except.bind]
    · rw [String.toList_append, String.toList_append, hfirstText, hmoreText]
      cases cs <;> simp [separated]

theorem jsonNode_eq (hn : Shaped nodes T) {fuel v : ℕ} (hv : v ∈ T.verts)
    (hfuel : T.verts.card ≤ fuel + T.rank v) :
    ∃ output, jsonNode nodes fuel (some v) = .ok output ∧
      output.toList = text (unfold T.children fuel v) := by
  induction fuel generalizing v with
  | zero =>
    have hlt := T.rank_lt v hv
    omega
  | succ fuel ih =>
    obtain ⟨node, hnode⟩ := hn.exists_node hv
    obtain ⟨-, hid, -, -, hchildren⟩ := hn.fields hnode
    have hprint : ∀ c ∈ T.children v, ∃ output, jsonNode nodes fuel (some c) = .ok output ∧
        output.toList = text (unfold T.children fuel c) := fun c hc ↦ by
      obtain ⟨hcv, hcfuel⟩ := Arborescence.fuel_child hc hfuel
      exact ih hcv hcfuel
    obtain ⟨items, hitems, hitemsText⟩ := jsonChildren_eq hprint
    refine ⟨"\x7b \"id\": " ++ toString v ++ ", \"children\": [" ++ items ++ "] \x7d", ?_, ?_⟩
    · simp only [jsonNode, NodeMap.deref, hnode, hid, hchildren, hitems, bind, Except.bind]
    · have hdigits : (toString v).toList = Json.integerText v := Nat.toList_repr
      simp only [String.toList_append, hdigits, hitemsText, unfold, text]

theorem Standing.depicts {Inbox : Type} {t : SpanningTree Inbox} (ht : Standing t T) {fuel v : ℕ}
    (hv : v ∈ T.verts) (hfuel : T.verts.card ≤ fuel + T.rank v) :
    Depicts t v (unfold T.children fuel v) := by
  induction fuel generalizing v with
  | zero =>
    have hlt := T.rank_lt v hv
    omega
  | succ fuel ih =>
    obtain ⟨node, hnode⟩ := ht.shaped.exists_node hv
    obtain ⟨-, -, -, -, hchildren⟩ := ht.shaped.fields hnode
    refine .node hnode ?_
    rw [hchildren, List.forall₂_map_right_iff, List.forall₂_same]
    intro c hc
    obtain ⟨hcv, hcfuel⟩ := Arborescence.fuel_child hc hfuel
    exact ih hcv hcfuel

end Standing

/-! ### Equal texts -/

section Equal

variable {T T' : Arborescence ℕ}

theorem id_unfold (children : ℕ → List ℕ) (fuel v : ℕ) : (unfold children fuel v).id = v := by
  cases fuel <;> rfl

/-- Two arborescences that unfold to one ordered tree agree below its root. -/
theorem agree_of_unfold_eq {fuel fuel' v v' : ℕ} (hv : v ∈ T.verts) (hv' : v' ∈ T'.verts)
    (hfuel : T.verts.card ≤ fuel + T.rank v) (hfuel' : T'.verts.card ≤ fuel' + T'.rank v')
    (heq : unfold T.children fuel v = unfold T'.children fuel' v') :
    v = v' ∧ ∀ w, T.Below v w → T'.Below v w ∧ T.children w = T'.children w := by
  induction fuel generalizing v v' fuel' with
  | zero =>
    have hlt := T.rank_lt v hv
    omega
  | succ fuel ih =>
    cases fuel' with
    | zero =>
      have hlt := T'.rank_lt v' hv'
      omega
    | succ fuel' =>
      obtain ⟨hid, hchildren⟩ := OrderedTree.node.inj heq
      obtain rfl : v = v' := Int.ofNat.inj hid
      have hlists : T.children v = T'.children v := by
        have hids := congrArg (List.map OrderedTree.id) hchildren
        simp only [List.map_map, Function.comp_def, id_unfold] at hids
        exact List.map_injective_iff.mpr Int.ofNat_injective hids
      refine ⟨rfl, fun w hw ↦ ?_⟩
      rcases Arborescence.below_iff.mp hw with rfl | ⟨c, hc, hcw⟩
      · exact ⟨Arborescence.Below.refl w, hlists⟩
      · have hc' : c ∈ T'.children v := hlists ▸ hc
        obtain ⟨hcv, hcfuel⟩ := Arborescence.fuel_child hc hfuel
        obtain ⟨hcv', hcfuel'⟩ := Arborescence.fuel_child hc' hfuel'
        rw [hlists] at hchildren
        have hunfold := List.map_inj_left.mp hchildren c hc'
        obtain ⟨-, hall⟩ := ih hcv hcv' hcfuel hcfuel' hunfold
        obtain ⟨hbelow, hw⟩ := hall w hcw
        exact ⟨Arborescence.below_iff.mpr (Or.inr ⟨c, hc', hbelow⟩), hw⟩

/-- Standing objects with the same root and lists of children have the same nodes. -/
theorem Standing.eq_of_children {Inbox : Type} {t t' : SpanningTree Inbox} (ht : Standing t T)
    (ht' : Standing t' T') (hroot : T.root = T'.root) (hchildren : T.children = T'.children) :
    t'.root = t.root ∧ ∀ v, (t'.getNode v).map Node.static = (t.getNode v).map Node.static := by
  have hparent : T.parent = T'.parent := by
    funext c
    refine Option.ext fun p ↦ ?_
    rw [← T.mem_children, ← T'.mem_children, hchildren]
  have hbelow : T.Below = T'.Below := by
    unfold Arborescence.Below
    rw [hparent]
  have hverts : T.verts = T'.verts := Finset.ext fun v ↦
    ⟨fun hv ↦ (hbelow ▸ Arborescence.below_root hv).mem (hroot ▸ T'.root_mem),
      fun hv ↦ (hbelow ▸ Arborescence.below_root hv : T.Below T'.root v).mem (hroot ▸ T.root_mem)⟩
  refine ⟨by rw [ht.root_eq, ht'.root_eq, hroot], fun v ↦ ?_⟩
  rw [SpanningTree.getNode, SpanningTree.getNode, ht.shaped.static_eq, ht'.shaped.static_eq,
    hchildren, hparent, hverts]

/-- Standing objects with the same ordered tree have the same root and nodes. -/
theorem Standing.eq_of_unfold {Inbox : Type} {t t' : SpanningTree Inbox} (ht : Standing t T)
    (ht' : Standing t' T')
    (heq : unfold T.children t.nodes.ids.length T.root =
      unfold T'.children t'.nodes.ids.length T'.root) :
    t'.root = t.root ∧ ∀ v, (t'.getNode v).map Node.static = (t.getNode v).map Node.static := by
  obtain ⟨hroot, hall⟩ := agree_of_unfold_eq T.root_mem T'.root_mem ht.card_le ht'.card_le heq
  obtain ⟨-, hall'⟩ := agree_of_unfold_eq T'.root_mem T.root_mem ht'.card_le ht.card_le heq.symm
  refine ht.eq_of_children ht' hroot (funext fun v ↦ ?_)
  by_cases hv : v ∈ T.verts
  · exact (hall v (Arborescence.below_root hv)).2
  · by_cases hv' : v ∈ T'.verts
    · exact (hall' v (Arborescence.below_root hv')).2.symm
    · rw [T.children_eq_nil hv, T'.children_eq_nil hv']

/-- `toJSON` of a standing tree returns, and its text decodes to the ordered tree. -/
theorem Standing.toJSON {t : SpanningTree (List Message)} (ht : Standing t T) :
    ∃ output, t.toJSON = .ok output ∧
      decode output = some (unfold T.children t.nodes.ids.length T.root) := by
  obtain ⟨output, hrun, htext⟩ := jsonNode_eq ht.shaped T.root_mem ht.card_le
  refine ⟨output, ?_, decode_text _ htext⟩
  rw [SpanningTree.toJSON, ht.root_eq, hrun]

end Equal

/-- `toJSON` is a faithful encoding. Assumes: the calls of `addEdge` on a new graph of `n` vertices
were all accepted, and the root is a vertex. Then `toJSON` of the built tree returns a JSON text
that decodes to the ordered tree of the object, and an object built from any graph with any root
that gives the same text has the same root, nodes, parents and lists of children. -/
theorem toJSON_decodes (n : ℕ) (edges : List (ℤ × ℤ)) (g : Graph)
    (hg : (Graph.new n).addEdges edges = .ok g) (rootId : ℤ) (hpos : 0 ≤ rootId)
    (hlt : rootId < n) (old : SpanningTree (List Message)) :
    ∃ (t : SpanningTree (List Message)) (r : ℕ) (output : String) (tree : OrderedTree),
      SpanningTree.build [] old g rootId = .ok t ∧ rootId = r ∧ t.root = some r ∧
      t.toJSON = .ok output ∧ (∃ value, Json.IsText output.toList value) ∧
      decode output = some tree ∧ Depicts t r tree ∧
      ∀ (n' : ℕ) (edges' : List (ℤ × ℤ)) (g' : Graph) (rootId' : ℤ)
        (old' t' : SpanningTree (List Message)), (Graph.new n').addEdges edges' = .ok g' →
        SpanningTree.build [] old' g' rootId' = .ok t' → t'.toJSON = .ok output →
        t'.root = t.root ∧
          ∀ v, (t'.getNode v).map Node.static = (t.getNode v).map Node.static := by
  obtain ⟨r, rfl⟩ := Int.eq_ofNat_of_zero_le hpos
  obtain ⟨t, T, hrun, ht, rfl, -⟩ :=
    build_spec (builtFrom_addEdges hg) (by omega : r < n) ([] : List Message) old
  obtain ⟨output, houtput, hdecode⟩ := ht.toJSON
  obtain ⟨value, hparse, -⟩ := Option.bind_eq_some_iff.mp hdecode
  refine ⟨t, T.root, output, _, hrun, rfl, ht.root_eq, houtput, ⟨value, Json.parse_sound hparse⟩,
    hdecode, ht.depicts T.root_mem ht.card_le, fun n' edges' g' rootId' old' t' hg' hrun' heq ↦ ?_⟩
  obtain ⟨T', ht'⟩ := standing_of_build (builtFrom_addEdges hg') hrun'
  obtain ⟨output', houtput', hdecode'⟩ := ht'.toJSON
  obtain rfl := Except.ok.inj (heq.symm.trans houtput')
  exact ht.eq_of_unfold ht' (Option.some.inj (hdecode.symm.trans hdecode'))

/-- A triangle with a further vertex on it. -/
theorem toJSON_decodes_example :
    ∃ (t : SpanningTree (List Message)) (r : ℕ) (output : String) (tree : OrderedTree),
      SpanningTree.build [] .unbuilt
        { numVertices := 4, adj := [[1, 2], [0, 2], [1, 0, 3], [2]] } 0 = .ok t ∧
      (0 : ℤ) = r ∧ t.root = some r ∧ t.toJSON = .ok output ∧ decode output = some tree ∧
      Depicts t r tree := by
  obtain ⟨t, r, output, tree, hrun, hr, hroot, houtput, -, hdecode, hdepicts, -⟩ :=
    toJSON_decodes 4 [(0, 1), (1, 2), (2, 0), (2, 3)]
      { numVertices := 4, adj := [[1, 2], [0, 2], [1, 0, 3], [2]] } rfl 0 (by decide) (by decide)
      .unbuilt
  exact ⟨t, r, output, tree, hrun, hr, hroot, houtput, hdecode, hdepicts⟩

end WsServer.Convergecast
