import WsServer.Convergecast.TreeJson
import WsServer.Foundations.Lines

/-!
# The drawing of a tree

`toASCII` prints one line for each node, with four columns for each of its ancestors. The lines are
those of an ordered tree (`printASCII_eq`), a row for each node in preorder, and the number of
ancestors in each row is enough to put the tree together again (`rows_inj`).
-/

set_option autoImplicit false
set_option relaxedAutoImplicit false

namespace WsServer.Convergecast

open Foundations

/-! ### The source -/

/-- The mark before the id of a node. -/
def branchMark (last : Bool) : String := if last then "└── " else "├── "

/-- The columns that the lines below a node have under its mark. -/
def columns (last : Bool) : String := if last then "    " else "│   "

/-- The loop over the children. -/
def asciiChildren (printASCII : ℕ → Bool → Except Fault String) : List ℕ → Except Fault String
  | [] => .ok ""
  | c :: rest => do
    let text ← printASCII c rest.isEmpty
    let more ← asciiChildren printASCII rest
    .ok (text ++ more)

/-- `printASCII`, on a tree of at most `fuel` levels. -/
def printASCII (nodes : NodeMap (List Message)) :
    ℕ → Option ℕ → String → Bool → Except Fault String
  | _, none, _, _ => .ok ""
  | 0, some _, _, _ => .error .diverges
  | fuel + 1, some n, indent, last => do
    let node ← nodes.deref n
    let children ← asciiChildren
      (fun c last' ↦ printASCII nodes fuel (some c) (indent ++ columns last) last') node.children
    .ok (indent ++ branchMark last ++ toString node.id ++ "\n" ++ children)

def SpanningTree.toASCII (t : SpanningTree (List Message)) : Except Fault String :=
  printASCII t.nodes t.nodes.ids.length t.root "" true

/-! ### What a line shows -/

section Lines

variable {Inbox : Type}

/-- A node that is the root or the last child of its parent. -/
def isLast (t : SpanningTree Inbox) (v : ℕ) : Bool :=
  match (t.getNode v).bind Node.parent with
  | none => true
  | some p => (childrenOf t p).getLast? = some v

/-- The ancestors of a node, the one at depth `j` in place `j`. -/
def lineage (t : SpanningTree Inbox) (v : ℕ) : List ℕ :=
  ((List.range t.nodes.ids.length).filterMap fun k ↦ ancestor t v (k + 1)).reverse

/-- The line of a node, character by character: for each ancestor a block of four columns, which
has a bar unless the ancestor is a last one; the mark, which has a corner if the node is a last one;
and the id. -/
def asciiLine (t : SpanningTree Inbox) (v : ℕ) : List Char :=
  (lineage t v).flatMap
      (fun u ↦ if isLast t u then [' ', ' ', ' ', ' '] else ['│', ' ', ' ', ' ']) ++
    (if isLast t v then ['└', '─', '─', ' '] else ['├', '─', '─', ' ']) ++ (toString v).toList

end Lines

/-! ### Rows of an ordered tree -/

/-- A line in the making: whether the ancestors of a node and the node itself are last children. -/
structure Row where
  ancestors : List Bool
  last : Bool
  id : ℤ
  deriving DecidableEq

def Row.text (r : Row) : List Char :=
  r.ancestors.flatMap (fun last ↦ (columns last).toList) ++ (branchMark r.last).toList ++
    Json.integerText r.id

namespace OrderedTree

mutual

def rows (ancestors : List Bool) (last : Bool) : OrderedTree → List Row
  | .node id children =>
    { ancestors := ancestors, last := last, id := id } :: forestRows (ancestors ++ [last]) children

def forestRows (ancestors : List Bool) : List OrderedTree → List Row
  | [] => []
  | t :: ts => rows ancestors ts.isEmpty t ++ forestRows ancestors ts

end

/-- The first row, if there is one, has at most this depth. -/
def StartsBy (depth : ℕ) (rs : List Row) : Prop := ∀ r ∈ rs.head?, r.ancestors.length ≤ depth

theorem startsBy_rows (ancestors : List Bool) (last : Bool) (t : OrderedTree) (rest : List Row) :
    StartsBy ancestors.length (rows ancestors last t ++ rest) := by
  cases t with
  | node id children =>
    intro r hr
    rw [rows, List.cons_append, List.head?_cons, Option.mem_some_iff] at hr
    rw [← hr]

theorem startsBy_forestRows {ancestors : List Bool} {rest : List Row}
    (hrest : StartsBy ancestors.length rest) (ts : List OrderedTree) :
    StartsBy ancestors.length (forestRows ancestors ts ++ rest) := by
  cases ts with
  | nil => exact hrest
  | cons t ts =>
    rw [forestRows, List.append_assoc]
    exact startsBy_rows ancestors _ t _

/-- Rows that start higher up are not those of a tree at this depth. -/
theorem rows_append_ne {ancestors : List Bool} {last : Bool} {t : OrderedTree}
    {rest rest' : List Row} {depth : ℕ} (hrest : StartsBy depth rest)
    (hdepth : depth < ancestors.length) : rest ≠ rows ancestors last t ++ rest' := by
  rintro rfl
  cases t with
  | node id children =>
    have hle := hrest _ (by rw [rows, List.cons_append, List.head?_cons]; rfl)
    exact absurd hle (Nat.not_le.mpr hdepth)

theorem forestRows_inj_of {ts : List OrderedTree}
    (hts : ∀ t ∈ ts, ∀ (t' : OrderedTree) (ancestors : List Bool) (last last' : Bool)
      (rest rest' : List Row), StartsBy ancestors.length rest → StartsBy ancestors.length rest' →
      rows ancestors last t ++ rest = rows ancestors last' t' ++ rest' → t = t' ∧ rest = rest')
    {ts' : List OrderedTree} {ancestors : List Bool} {rest rest' : List Row} {depth : ℕ}
    (hdepth : depth < ancestors.length) (hrest : StartsBy depth rest)
    (hrest' : StartsBy depth rest')
    (heq : forestRows ancestors ts ++ rest = forestRows ancestors ts' ++ rest') :
    ts = ts' ∧ rest = rest' := by
  induction ts generalizing ts' with
  | nil =>
    cases ts' with
    | nil => exact ⟨rfl, heq⟩
    | cons t' ts' =>
      rw [forestRows, forestRows, List.append_assoc] at heq
      exact absurd heq (rows_append_ne hrest hdepth)
  | cons t ts ih =>
    cases ts' with
    | nil =>
      rw [forestRows, forestRows, List.append_assoc] at heq
      exact absurd heq.symm (rows_append_ne hrest' hdepth)
    | cons t' ts' =>
      obtain ⟨ht, hts⟩ := List.forall_mem_cons.mp hts
      have hup : StartsBy ancestors.length rest := fun r hr ↦ (hrest r hr).trans hdepth.le
      have hup' : StartsBy ancestors.length rest' := fun r hr ↦ (hrest' r hr).trans hdepth.le
      rw [forestRows, forestRows, List.append_assoc, List.append_assoc] at heq
      obtain ⟨rfl, hmore⟩ := ht t' ancestors _ _ _ _ (startsBy_forestRows hup ts)
        (startsBy_forestRows hup' ts') heq
      obtain ⟨rfl, hrests⟩ := ih hts hmore
      exact ⟨rfl, hrests⟩

/-- The rows determine the tree, and where they end. -/
theorem rows_append_inj (t t' : OrderedTree) (ancestors : List Bool) (last last' : Bool)
    (rest rest' : List Row) (hrest : StartsBy ancestors.length rest)
    (hrest' : StartsBy ancestors.length rest')
    (heq : rows ancestors last t ++ rest = rows ancestors last' t' ++ rest') :
    t = t' ∧ rest = rest' := by
  induction t using OrderedTree.induction generalizing t' ancestors last last' rest rest' with
  | node id children ih =>
    obtain ⟨id', children'⟩ := t'
    rw [rows, rows, List.cons_append, List.cons_append, List.cons.injEq, Row.mk.injEq] at heq
    obtain ⟨⟨-, rfl, rfl⟩, hforest⟩ := heq
    obtain ⟨rfl, hrests⟩ := forestRows_inj_of ih (by simp) hrest hrest' hforest
    exact ⟨rfl, hrests⟩

theorem rows_inj {t t' : OrderedTree} {last : Bool} (heq : rows [] last t = rows [] last t') :
    t = t' := by
  refine (rows_append_inj t t' [] last last [] [] ?_ ?_ (by rw [heq])).1 <;>
    exact fun r hr ↦ by simp at hr

end OrderedTree

/-! ### The text of a row -/

section Text

theorem columns_append_inj {last last' : Bool} {s s' : List Char}
    (heq : (columns last).toList ++ s = (columns last').toList ++ s') : last = last' ∧ s = s' := by
  cases last <;> cases last' <;> simp_all [columns]

theorem branchMark_append_inj {last last' : Bool} {s s' : List Char}
    (heq : (branchMark last).toList ++ s = (branchMark last').toList ++ s') :
    last = last' ∧ s = s' := by
  cases last <;> cases last' <;> simp_all [branchMark]

/-- Columns are not taken for a mark. -/
theorem columns_append_ne (last last' : Bool) (s s' : List Char) :
    (columns last).toList ++ s ≠ (branchMark last').toList ++ s' := by
  cases last <;> cases last' <;> simp [columns, branchMark]

theorem Row.text_inj {r r' : Row} (heq : r.text = r'.text) : r = r' := by
  obtain ⟨ancestors, last, id⟩ := r
  obtain ⟨ancestors', last', id'⟩ := r'
  unfold Row.text at heq
  simp only [List.append_assoc] at heq
  induction ancestors generalizing ancestors' with
  | nil =>
    cases ancestors' with
    | nil =>
      obtain ⟨rfl, hid⟩ := branchMark_append_inj heq
      rw [Json.integerText_injective hid]
    | cons a ancestors' =>
      rw [List.flatMap_cons, List.append_assoc] at heq
      exact absurd heq.symm (columns_append_ne _ _ _ _)
  | cons a ancestors ih =>
    cases ancestors' with
    | nil =>
      rw [List.flatMap_cons, List.append_assoc] at heq
      exact absurd heq (columns_append_ne _ _ _ _)
    | cons a' ancestors' =>
      rw [List.flatMap_cons, List.flatMap_cons, List.append_assoc, List.append_assoc] at heq
      obtain ⟨rfl, hrest⟩ := columns_append_inj heq
      have hrow := ih ancestors' hrest
      simp only [Row.mk.injEq] at hrow ⊢
      exact ⟨by rw [hrow.1], hrow.2⟩

theorem newline_not_mem_text (r : Row) : '\n' ∉ r.text := by
  unfold Row.text
  have hcolumns : ∀ last, '\n' ∉ (columns last).toList := by decide
  have hmark : ∀ last, '\n' ∉ (branchMark last).toList := by decide
  have hdigits : '\n' ∉ Json.integerText r.id := fun hmem ↦
    absurd (Json.isNumberChar_of_mem_integerText hmem) (by decide)
  simp only [List.mem_append, List.mem_flatMap, not_or, not_exists, not_and]
  exact ⟨⟨fun last _ ↦ hcolumns last, hmark r.last⟩, hdigits⟩

/-- The lines of a text are its rows. -/
theorem frame_rows (rs : List Row) :
    Lines.frame '\n' (rs.flatMap fun r ↦ r.text ++ ['\n']) = (rs.map Row.text, []) := by
  induction rs with
  | nil => rfl
  | cons r rs ih =>
    rw [List.flatMap_cons, List.append_assoc, List.singleton_append,
      Lines.frame_append (newline_not_mem_text r), ih, List.map_cons]

theorem rows_of_text {rs rs' : List Row}
    (heq : (rs.flatMap fun r ↦ r.text ++ ['\n']) = rs'.flatMap fun r ↦ r.text ++ ['\n']) :
    rs = rs' := by
  have hframe := frame_rows rs
  rw [heq, frame_rows] at hframe
  refine List.map_injective_iff.mpr (fun r r' ↦ Row.text_inj) (Prod.mk.inj hframe).1.symm

end Text

/-! ### The rows of a standing tree -/

open OrderedTree

section Standing

variable {T : Arborescence ℕ}

theorem asciiChildren_eq {print : ℕ → Bool → Except Fault String} {shown : ℕ → OrderedTree}
    {ancestors : List Bool} {cs : List ℕ}
    (hprint : ∀ c ∈ cs, ∀ last, ∃ output, print c last = .ok output ∧
      output.toList = (rows ancestors last (shown c)).flatMap fun r ↦ r.text ++ ['\n']) :
    ∃ output, asciiChildren print cs = .ok output ∧
      output.toList = (forestRows ancestors (cs.map shown)).flatMap fun r ↦ r.text ++ ['\n'] := by
  induction cs with
  | nil => exact ⟨"", rfl, rfl⟩
  | cons c cs ih =>
    obtain ⟨hfirst, hprint⟩ := List.forall_mem_cons.mp hprint
    obtain ⟨first, hfirst, hfirstText⟩ := hfirst cs.isEmpty
    obtain ⟨more, hmore, hmoreText⟩ := ih hprint
    refine ⟨first ++ more, ?_, ?_⟩
    · simp only [asciiChildren, hfirst, hmore, bind, Except.bind]
    · rw [String.toList_append, hfirstText, hmoreText, List.map_cons, forestRows,
        List.flatMap_append, List.isEmpty_map]

theorem printASCII_eq {nodes : NodeMap (List Message)} (hn : Shaped nodes T) {fuel v : ℕ}
    (hv : v ∈ T.verts) (hfuel : T.verts.card ≤ fuel + T.rank v) {indent : String}
    {ancestors : List Bool}
    (hindent : indent.toList = ancestors.flatMap fun last ↦ (columns last).toList) (last : Bool) :
    ∃ output, printASCII nodes fuel (some v) indent last = .ok output ∧
      output.toList =
        (rows ancestors last (unfold T.children fuel v)).flatMap fun r ↦ r.text ++ ['\n'] := by
  induction fuel generalizing v indent ancestors last with
  | zero =>
    have hlt := T.rank_lt v hv
    omega
  | succ fuel ih =>
    obtain ⟨node, hnode⟩ := hn.exists_node hv
    obtain ⟨-, hid, -, -, hchildren⟩ := hn.fields hnode
    have hbelow : (indent ++ columns last).toList =
        (ancestors ++ [last]).flatMap fun last ↦ (columns last).toList := by
      rw [String.toList_append, hindent, List.flatMap_append, List.flatMap_singleton]
    have hprint : ∀ c ∈ T.children v, ∀ last', ∃ output,
        printASCII nodes fuel (some c) (indent ++ columns last) last' = .ok output ∧
          output.toList = (rows (ancestors ++ [last]) last' (unfold T.children fuel c)).flatMap
            fun r ↦ r.text ++ ['\n'] := fun c hc last' ↦ by
      obtain ⟨hcv, hcfuel⟩ := Arborescence.fuel_child hc hfuel
      exact ih hcv hcfuel hbelow last'
    obtain ⟨children, hrun, htext⟩ := asciiChildren_eq hprint
    refine ⟨indent ++ branchMark last ++ toString v ++ "\n" ++ children, ?_, ?_⟩
    · simp only [printASCII, NodeMap.deref, hnode, hid, hchildren, hrun, bind, Except.bind]
    · have hdigits : (toString v).toList = Json.integerText v := Nat.toList_repr
      have hnewline : "\n".toList = ['\n'] := rfl
      rw [unfold, rows, List.flatMap_cons, ← htext, Row.text, ← hindent, ← hdigits]
      simp only [String.toList_append, hnewline]

/-- `toASCII` of a standing tree returns the rows of the ordered tree. -/
theorem Standing.toASCII {t : SpanningTree (List Message)} (ht : Standing t T) :
    ∃ output, t.toASCII = .ok output ∧ output.toList =
      (rows [] true (unfold T.children t.nodes.ids.length T.root)).flatMap
        fun r ↦ r.text ++ ['\n'] := by
  rw [SpanningTree.toASCII, ht.root_eq]
  exact printASCII_eq ht.shaped T.root_mem ht.card_le rfl true

/-! ### The lines of a standing tree -/

variable {Inbox : Type} {t : SpanningTree Inbox}

theorem Standing.lineage_root (ht : Standing t T) : lineage t T.root = [] := by
  have hnone : ∀ k, ancestor t T.root (k + 1) = none := fun k ↦ by
    rw [ancestor_succ, ht.parent_eq T.root_mem, (T.parent_eq_none _ T.root_mem).mpr rfl]
    rfl
  simp [lineage, hnone]

/-- The ancestors of a child are those of its parent and the parent. -/
theorem Standing.lineage_child (ht : Standing t T) {c p : ℕ} (hp : T.parent c = some p) :
    lineage t c = lineage t p ++ [p] := by
  obtain ⟨hc, hpmem, -⟩ := T.parent_mem c p hp
  have hlink : (t.getNode c).bind Node.parent = some p := (ht.parent_eq hc).trans hp
  obtain ⟨n, hn⟩ : ∃ n, t.nodes.ids.length = n + 1 :=
    Nat.exists_eq_succ_of_ne_zero (by
      rw [ht.shaped.length_ids]
      exact (Finset.card_pos.mpr ⟨c, hc⟩).ne')
  have htop : ancestor t p (n + 1) = none := by
    cases hanc : ancestor t p (n + 1) with
    | none => rfl
    | some w =>
      have hrank := (ht.ancestor_rank hpmem (i := 0) rfl (m := n + 1) (by rwa [Nat.zero_add])).2
      have hlt := T.rank_lt p hpmem
      rw [← ht.shaped.length_ids] at hlt
      omega
  have hclimb : ∀ k, ancestor t c (k + 1) = ancestor t p k := ancestor_of_parent hlink
  have hself : ancestor t p 0 = some p := rfl
  have hlast : [n].filterMap (fun k ↦ ancestor t p (k + 1)) = [] := List.filterMap_cons_none htop
  simp only [lineage, hn, hclimb]
  conv_lhs => rw [List.range_succ_eq_map]
  rw [List.filterMap_cons_some hself, List.filterMap_map, List.reverse_cons, List.range_succ,
    List.filterMap_append, hlast, List.append_nil]
  rfl

theorem Standing.isLast_root (ht : Standing t T) : isLast t T.root = true := by
  rw [isLast, ht.parent_eq T.root_mem, (T.parent_eq_none _ T.root_mem).mpr rfl]

theorem Standing.isLast_child (ht : Standing t T) {p c : ℕ} {before after : List ℕ}
    (hchildren : T.children p = before ++ c :: after) : isLast t c = after.isEmpty := by
  have hp : T.parent c = some p := (T.mem_children p c).mp (by simp [hchildren])
  obtain ⟨hc, -, -⟩ := T.parent_mem c p hp
  have hnodup := T.children_nodup p
  rw [hchildren] at hnodup
  rw [isLast, ht.parent_eq hc, hp]
  simp only
  rw [ht.childrenOf_eq, hchildren, List.getLast?_append]
  rcases List.eq_nil_or_concat after with rfl | ⟨after, y, rfl⟩
  · simp
  · rw [List.concat_eq_append] at hnodup ⊢
    have hne : y ≠ c := by
      rintro rfl
      exact (List.nodup_cons.mp hnodup.of_append_right).1 (by simp)
    rw [← List.cons_append, List.getLast?_concat]
    simp [hne]

/-- The row of a node. -/
def row (t : SpanningTree Inbox) (v : ℕ) : Row :=
  { ancestors := (lineage t v).map (isLast t), last := isLast t v, id := v }

/-- What the columns and the mark of the source are, character by character. -/
theorem toList_columns (last : Bool) :
    (columns last).toList = if last then [' ', ' ', ' ', ' '] else ['│', ' ', ' ', ' '] := by
  cases last <;> rfl

theorem toList_branchMark (last : Bool) :
    (branchMark last).toList = if last then ['└', '─', '─', ' '] else ['├', '─', '─', ' '] := by
  cases last <;> rfl

theorem text_row (t : SpanningTree Inbox) (v : ℕ) : (row t v).text = asciiLine t v := by
  have hdigits : (toString v).toList = Json.integerText v := Nat.toList_repr
  simp only [Row.text, asciiLine, row, List.flatMap_map, toList_columns, toList_branchMark, hdigits]

/-- The rows of the ordered tree are those of the nodes in preorder. -/
theorem Standing.rows_unfold (ht : Standing t T) {fuel v : ℕ} (hv : v ∈ T.verts)
    (hfuel : T.verts.card ≤ fuel + T.rank v) :
    rows ((lineage t v).map (isLast t)) (isLast t v) (unfold T.children fuel v) =
      (Arborescence.preorder T.children fuel v).map (row t) := by
  induction fuel generalizing v with
  | zero =>
    have hlt := T.rank_lt v hv
    omega
  | succ fuel ih =>
    have hforest : ∀ before after : List ℕ, T.children v = before ++ after →
        forestRows ((lineage t v).map (isLast t) ++ [isLast t v])
            (after.map (unfold T.children fuel)) =
          (after.flatMap (Arborescence.preorder T.children fuel)).map (row t) := by
      intro before after hsplit
      induction after generalizing before with
      | nil => rfl
      | cons c after ihs =>
        have hp : T.parent c = some v := (T.mem_children v c).mp (by simp [hsplit])
        obtain ⟨hcv, -, hlt⟩ := T.parent_mem c v hp
        have hc := ih hcv (by omega)
        rw [ht.lineage_child hp, List.map_append, List.map_singleton, ht.isLast_child hsplit] at hc
        rw [List.map_cons, forestRows, List.isEmpty_map, hc,
          ihs (before ++ [c]) (by rw [hsplit, List.append_assoc, List.singleton_append]),
          List.flatMap_cons, List.map_append]
    rw [unfold, rows, hforest [] _ rfl, Arborescence.preorder, List.map_cons, row]

/-- The lines of the text are those of the nodes in preorder. -/
theorem Standing.frame_toASCII {t : SpanningTree (List Message)} (ht : Standing t T)
    {output : String} (houtput : t.toASCII = .ok output) :
    Lines.frame '\n' output.toList =
      ((Arborescence.preorder (childrenOf t) t.nodes.ids.length T.root).map (asciiLine t), []) := by
  obtain ⟨output', hrun, htext⟩ := ht.toASCII
  obtain rfl := Except.ok.inj (houtput.symm.trans hrun)
  have hrows := ht.rows_unfold T.root_mem ht.card_le
  rw [ht.lineage_root, ht.isLast_root, List.map_nil] at hrows
  rw [htext, frame_rows, hrows, ht.childrenOf_eq, List.map_map]
  simp only [Function.comp_def, text_row]

end Standing

/-- `toASCII` determines the tree. Assumes: the calls of `addEdge` on a new graph of `n` vertices
were all accepted, and the root is a vertex. Then `toASCII` of the built tree returns one line for
each node, in preorder and as `asciiLine` says, and an object built from any graph with any root
that gives the same text has the same root, nodes, parents and lists of children. -/
theorem toASCII_determines (n : ℕ) (edges : List (ℤ × ℤ)) (g : Graph)
    (hg : (Graph.new n).addEdges edges = .ok g) (rootId : ℤ) (hpos : 0 ≤ rootId)
    (hlt : rootId < n) (old : SpanningTree (List Message)) :
    ∃ (t : SpanningTree (List Message)) (r : ℕ) (output : String),
      SpanningTree.build [] old g rootId = .ok t ∧ rootId = r ∧ t.root = some r ∧
      t.toASCII = .ok output ∧
      (∃ order, order = Arborescence.preorder (childrenOf t) t.nodes.ids.length r ∧
        order.Nodup ∧ (∀ v, v ∈ order ↔ (t.getNode v).isSome) ∧
        Lines.frame '\n' output.toList = (order.map (asciiLine t), [])) ∧
      ∀ (n' : ℕ) (edges' : List (ℤ × ℤ)) (g' : Graph) (rootId' : ℤ)
        (old' t' : SpanningTree (List Message)), (Graph.new n').addEdges edges' = .ok g' →
        SpanningTree.build [] old' g' rootId' = .ok t' → t'.toASCII = .ok output →
        t'.root = t.root ∧
          ∀ v, (t'.getNode v).map Node.static = (t.getNode v).map Node.static := by
  obtain ⟨r, rfl⟩ := Int.eq_ofNat_of_zero_le hpos
  obtain ⟨t, T, hrun, ht, rfl, -⟩ :=
    build_spec (builtFrom_addEdges hg) (by omega : r < n) ([] : List Message) old
  obtain ⟨output, houtput, htext⟩ := ht.toASCII
  refine ⟨t, T.root, output, hrun, rfl, ht.root_eq, houtput,
    ⟨_, rfl, ?_, fun v ↦ ?_, ht.frame_toASCII houtput⟩,
    fun n' edges' g' rootId' old' t' hg' hrun' heq ↦ ?_⟩
  · rw [ht.childrenOf_eq]
    exact Arborescence.nodup_preorder T.root_mem ht.card_le
  · rw [ht.childrenOf_eq, Arborescence.mem_preorder T.root_mem ht.card_le]
    refine Iff.trans ⟨fun h ↦ h.mem T.root_mem, Arborescence.below_root⟩ ?_
    exact (ht.shaped.isSome v).symm
  · obtain ⟨T', ht'⟩ := standing_of_build (builtFrom_addEdges hg') hrun'
    obtain ⟨output', houtput', htext'⟩ := ht'.toASCII
    obtain rfl := Except.ok.inj (heq.symm.trans houtput')
    exact ht.eq_of_unfold ht' (rows_inj (rows_of_text (htext.symm.trans htext')))

/-- A triangle with a further vertex below the first child of the root. -/
theorem toASCII_determines_example :
    ∃ (t : SpanningTree (List Message)) (r : ℕ) (output : String),
      SpanningTree.build [] .unbuilt
        { numVertices := 4, adj := [[1, 2], [0, 2, 3], [1, 0], [1]] } 0 = .ok t ∧
      (0 : ℤ) = r ∧ t.root = some r ∧ t.toASCII = .ok output ∧
      Lines.frame '\n' output.toList = ([
        "└── 0".toList,
        "    ├── 1".toList,
        "    │   └── 3".toList,
        "    └── 2".toList], []) := by
  obtain ⟨t, r, output, hrun, hr, hroot, houtput, ⟨order, rfl, -, -, hlines⟩, -⟩ :=
    toASCII_determines 4 [(0, 1), (1, 2), (2, 0), (1, 3)]
      { numVertices := 4, adj := [[1, 2], [0, 2, 3], [1, 0], [1]] } rfl 0 (by decide) (by decide)
      .unbuilt
  refine ⟨t, r, output, hrun, hr, hroot, houtput, hlines.trans ?_⟩
  obtain rfl := Int.ofNat.inj hr
  obtain rfl := Except.ok.inj hrun
  rfl

end WsServer.Convergecast
