import WsServer.Convergecast.TreeJson
import WsServer.Foundations.Lines

/-!
# The DOT text of a tree

`toDOT` prints one line for each child, with its parent, and no line for a node as such. The lines
below the root determine the children of every node in order, and the first of them the root
(`children_of_edgesBelow`). A root without children leaves no line, so that the text mentions no
node at all.
-/

set_option autoImplicit false
set_option relaxedAutoImplicit false

namespace WsServer.Convergecast

open Foundations

/-! ### The source -/

/-- The loop over the children of the node with this id. -/
def dotChildren (nodes : NodeMap (List Message)) (printDOT : ℕ → Except Fault String) (id : ℕ) :
    List ℕ → Except Fault String
  | [] => .ok ""
  | c :: rest => do
    let child ← nodes.deref c
    let below ← printDOT c
    let more ← dotChildren nodes printDOT id rest
    .ok ("  " ++ toString id ++ " -> " ++ toString child.id ++ ";\n" ++ below ++ more)

/-- `printDOT`, on a tree of at most `fuel` levels. -/
def printDOT (nodes : NodeMap (List Message)) : ℕ → Option ℕ → Except Fault String
  | _, none => .ok ""
  | 0, some _ => .error .diverges
  | fuel + 1, some n => do
    let node ← nodes.deref n
    dotChildren nodes (fun c ↦ printDOT nodes fuel (some c)) node.id node.children

def SpanningTree.toDOT (t : SpanningTree (List Message)) : Except Fault String := do
  let edges ← printDOT t.nodes t.nodes.ids.length t.root
  .ok ("digraph SpanningTree \x7b\n" ++ edges ++ "\x7d\n")

/-! ### The lines of a text -/

/-- The line of an edge. -/
def edgeLine (e : ℕ × ℕ) : List Char :=
  ' ' :: ' ' :: ((toString e.1).toList ++ ' ' :: '-' :: '>' :: ' ' ::
    ((toString e.2).toList ++ [';']))

def dotLines (output : String) : List (List Char) := (Lines.frame '\n' output.toList).1

/-- The vertices that a text mentions are the nodes, and its edge lines are the pairs of a node and
its parent, once each. -/
structure Describes (t : SpanningTree (List Message)) (output : String) : Prop where
  vertices : ∀ v, (∃ e, edgeLine e ∈ dotLines output ∧ (v = e.1 ∨ v = e.2)) ↔ (t.getNode v).isSome
  edges : ∀ u c, (dotLines output).count (edgeLine (u, c)) =
    if (t.getNode c).bind Node.parent = some u then 1 else 0

section Lines

theorem not_mem_toString {n : ℕ} {c : Char} (hc : c.isDigit = false) : c ∉ (toString n).toList := by
  have hdigits : (toString n).toList = Nat.toDigits 10 n := Nat.toList_repr
  rw [hdigits]
  exact fun hmem ↦ by simp [Json.isDigit_of_mem_toDigits hmem] at hc

/-- Numbers with a character behind them that is no digit. -/
theorem toString_append_inj {n n' : ℕ} {c : Char} (hc : c.isDigit = false) {s s' : List Char}
    (heq : (toString n).toList ++ c :: s = (toString n').toList ++ c :: s') : n = n' ∧ s = s' := by
  have hcut : Lines.cut c ((toString n).toList ++ c :: s) = some ((toString n).toList, s) :=
    Lines.cut_eq_some.mpr ⟨rfl, not_mem_toString hc⟩
  rw [heq, Lines.cut_eq_some.mpr ⟨rfl, not_mem_toString hc⟩] at hcut
  obtain ⟨hdigits, rfl⟩ := Prod.mk.inj (Option.some.inj hcut)
  have htext : (n : ℤ) = n' := Json.integerText_injective (by
    have hn : (toString n).toList = Json.integerText n := Nat.toList_repr
    have hn' : (toString n').toList = Json.integerText n' := Nat.toList_repr
    rw [← hn, ← hn', hdigits])
  exact ⟨Int.ofNat.inj htext, rfl⟩

theorem edgeLine_injective : Function.Injective edgeLine := by
  rintro ⟨u, c⟩ ⟨u', c'⟩ heq
  unfold edgeLine at heq
  simp only [List.cons.injEq, true_and] at heq
  obtain ⟨rfl, hrest⟩ := toString_append_inj (by decide) heq
  simp only [List.cons.injEq, true_and] at hrest
  obtain ⟨rfl, -⟩ := toString_append_inj (by decide) hrest
  rfl

theorem newline_not_mem_edgeLine (e : ℕ × ℕ) : '\n' ∉ edgeLine e := by
  have hdigits : ∀ n : ℕ, '\n' ∉ (toString n).toList := fun n ↦ not_mem_toString (by decide)
  simp only [edgeLine, List.mem_cons, List.mem_append, hdigits, List.not_mem_nil, or_false,
    false_or]
  decide

end Lines

/-! ### The edges below a node -/

/-- The edges in the order in which they are printed, cut off after `fuel` levels. -/
def edgesBelow (children : ℕ → List ℕ) : ℕ → ℕ → List (ℕ × ℕ)
  | 0, _ => []
  | fuel + 1, v => (children v).flatMap fun c ↦ (v, c) :: edgesBelow children fuel c

section Edges

variable {T : Arborescence ℕ} {fuel v : ℕ}

/-- The lower ends of the edges are the nodes below, in preorder. -/
theorem snd_edgesBelow (hv : v ∈ T.verts) (hfuel : T.verts.card ≤ fuel + T.rank v) :
    v :: (edgesBelow T.children fuel v).map Prod.snd = Arborescence.preorder T.children fuel v := by
  induction fuel generalizing v with
  | zero =>
    have hlt := T.rank_lt v hv
    omega
  | succ fuel ih =>
    rw [edgesBelow, Arborescence.preorder, List.map_flatMap]
    congr 1
    refine List.flatMap_congr fun c hc ↦ ?_
    obtain ⟨hcv, hcfuel⟩ := Arborescence.fuel_child hc hfuel
    exact ih (v := c) hcv hcfuel

theorem mem_edgesBelow (hv : v ∈ T.verts) (hfuel : T.verts.card ≤ fuel + T.rank v) {e : ℕ × ℕ} :
    e ∈ edgesBelow T.children fuel v ↔ T.Below v e.1 ∧ T.parent e.2 = some e.1 := by
  induction fuel generalizing v with
  | zero =>
    have hlt := T.rank_lt v hv
    omega
  | succ fuel ih =>
    rw [edgesBelow, List.mem_flatMap, Arborescence.below_iff]
    constructor
    · rintro ⟨c, hc, hmem⟩
      rcases List.mem_cons.mp hmem with rfl | hmem
      · exact ⟨Or.inl rfl, (T.mem_children v c).mp hc⟩
      · obtain ⟨hcv, hcfuel⟩ := Arborescence.fuel_child hc hfuel
        obtain ⟨hbelow, hparent⟩ := (ih hcv hcfuel).mp hmem
        exact ⟨Or.inr ⟨c, hc, hbelow⟩, hparent⟩
    · rintro ⟨hv | ⟨c, hc, hbelow⟩, hparent⟩
      · rw [hv] at hparent
        refine ⟨e.2, (T.mem_children v e.2).mpr hparent, List.mem_cons.mpr (Or.inl ?_)⟩
        rw [← hv]
      · obtain ⟨hcv, hcfuel⟩ := Arborescence.fuel_child hc hfuel
        exact ⟨c, hc, List.mem_cons_of_mem _ ((ih hcv hcfuel).mpr ⟨hbelow, hparent⟩)⟩

theorem nodup_edgesBelow (hv : v ∈ T.verts) (hfuel : T.verts.card ≤ fuel + T.rank v) :
    (edgesBelow T.children fuel v).Nodup := by
  have hnodup := Arborescence.nodup_preorder hv hfuel
  rw [← snd_edgesBelow hv hfuel] at hnodup
  exact List.Nodup.of_map _ (List.nodup_cons.mp hnodup).2

/-- The edges below `v` that start at a node list the children of that node in order. -/
theorem children_of_edgesBelow (hv : v ∈ T.verts) (hfuel : T.verts.card ≤ fuel + T.rank v)
    {w : ℕ} (hw : T.Below v w) :
    ((edgesBelow T.children fuel v).filter fun e ↦ e.1 = w).map Prod.snd = T.children w := by
  induction fuel generalizing v with
  | zero =>
    have hlt := T.rank_lt v hv
    omega
  | succ fuel ih =>
    have hchild : ∀ c ∈ T.children v, c ∈ T.verts ∧ T.verts.card ≤ fuel + T.rank c :=
      fun c hc ↦ Arborescence.fuel_child hc hfuel
    have hnone : ∀ c ∈ T.children v, ¬T.Below c w →
        (edgesBelow T.children fuel c).filter (fun e ↦ e.1 = w) = [] := fun c hc hout ↦ by
      refine List.filter_eq_nil_iff.mpr fun e he heq ↦ hout ?_
      obtain ⟨hbelow, -⟩ := (mem_edgesBelow (hchild c hc).1 (hchild c hc).2).mp he
      exact of_decide_eq_true heq ▸ hbelow
    rw [edgesBelow, List.filter_flatMap, List.map_flatMap]
    by_cases hwv : w = v
    · -- the edges of `v` itself
      subst hwv
      have hown : ∀ c ∈ T.children w, (((w, c) :: edgesBelow T.children fuel c).filter
          fun e ↦ e.1 = w).map Prod.snd = [c] := fun c hc ↦ by
        have hout := Arborescence.not_below_parent ((T.mem_children w c).mp hc)
        rw [List.filter_cons_of_pos (by simp), hnone c hc hout]
        rfl
      rw [List.flatMap_congr hown, List.flatMap_singleton']
    · -- the edges below the only child that is above `w`
      obtain ⟨c, hc, hcw⟩ := (Arborescence.below_iff.mp hw).resolve_left hwv
      have hskip : ∀ c' ∈ T.children v, (((v, c') :: edgesBelow T.children fuel c').filter
          fun e ↦ e.1 = w).map Prod.snd =
            if c' = c then T.children w else [] := fun c' hc' ↦ by
        rw [List.filter_cons_of_neg (by simp [Ne.symm hwv])]
        split_ifs with heq
        · rw [heq]
          exact ih (hchild c hc).1 (hchild c hc).2 hcw
        · rw [hnone c' hc' fun hbelow ↦ heq (Arborescence.disjoint_siblings hc' hc hbelow hcw)]
          rfl
      rw [List.flatMap_congr hskip, flatMap_ite_of_unique (T.children_nodup v)
        fun _ _ _ _ ha hb ↦ ha.trans hb.symm, if_pos ⟨c, hc, rfl⟩]

/-- The edges below the root list the children of every vertex. -/
theorem children_of_edges (hfuel : T.verts.card ≤ fuel + T.rank T.root) (w : ℕ) :
    ((edgesBelow T.children fuel T.root).filter fun e ↦ e.1 = w).map Prod.snd = T.children w := by
  by_cases hw : w ∈ T.verts
  · exact children_of_edgesBelow T.root_mem hfuel (Arborescence.below_root hw)
  · rw [T.children_eq_nil hw, List.map_eq_nil_iff, List.filter_eq_nil_iff]
    intro e he heq
    obtain ⟨hbelow, -⟩ := (mem_edgesBelow T.root_mem hfuel).mp he
    exact hw (of_decide_eq_true heq ▸ hbelow.mem T.root_mem)

/-- The first edge starts at the top. -/
theorem fst_of_head?_edgesBelow {children : ℕ → List ℕ} {e : ℕ × ℕ}
    (he : (edgesBelow children fuel v).head? = some e) : e.1 = v := by
  cases fuel with
  | zero => simp [edgesBelow] at he
  | succ fuel =>
    rw [edgesBelow] at he
    cases hchildren : children v with
    | nil => simp [hchildren] at he
    | cons c cs =>
      rw [hchildren, List.flatMap_cons, List.cons_append, List.head?_cons] at he
      rw [← Option.some.inj he]

theorem edgesBelow_ne_nil_iff (hfuel : T.verts.card ≤ fuel + T.rank T.root) :
    edgesBelow T.children fuel T.root ≠ [] ↔ T.children T.root ≠ [] := by
  constructor
  · intro hne hnil
    obtain ⟨e, he⟩ := List.exists_mem_of_ne_nil _ hne
    obtain ⟨hbelow, hp⟩ := (mem_edgesBelow T.root_mem hfuel).mp he
    have hroot : T.root ≠ e.2 := fun heq ↦ by
      rw [← heq, (T.parent_eq_none _ T.root_mem).mpr rfl] at hp
      cases hp
    rcases Arborescence.below_iff.mp (hbelow.tail hp) with heq | ⟨c, hc, -⟩
    · exact hroot heq.symm
    · rw [hnil] at hc
      cases hc
  · intro hne hnil
    obtain ⟨c, hc⟩ := List.exists_mem_of_ne_nil _ hne
    have hmem : (T.root, c) ∈ edgesBelow T.children fuel T.root :=
      (mem_edgesBelow T.root_mem hfuel).mpr
        ⟨Arborescence.Below.refl _, (T.mem_children _ c).mp hc⟩
    rw [hnil] at hmem
    cases hmem

/-- The edges below the roots determine the trees, when there are any. -/
theorem agree_of_edgesBelow {T' : Arborescence ℕ} {fuel' : ℕ}
    (hfuel : T.verts.card ≤ fuel + T.rank T.root)
    (hfuel' : T'.verts.card ≤ fuel' + T'.rank T'.root) (hroot : T.children T.root ≠ [])
    (heq : edgesBelow T.children fuel T.root = edgesBelow T'.children fuel' T'.root) :
    T.root = T'.root ∧ T.children = T'.children := by
  constructor
  · have hne := (edgesBelow_ne_nil_iff hfuel).mpr hroot
    obtain ⟨e, he⟩ : ∃ e, (edgesBelow T.children fuel T.root).head? = some e :=
      ⟨_, List.head?_eq_some_head hne⟩
    exact (fst_of_head?_edgesBelow he).symm.trans (fst_of_head?_edgesBelow (heq ▸ he))
  · funext w
    rw [← children_of_edges hfuel, heq, children_of_edges hfuel']

end Edges

/-! ### The text of a standing tree -/

section Standing

variable {T : Arborescence ℕ}

theorem dotChildren_eq {nodes : NodeMap (List Message)} (hn : Shaped nodes T)
    {print : ℕ → Except Fault String} {below : ℕ → List (ℕ × ℕ)} {v : ℕ} {cs : List ℕ}
    (hprint : ∀ c ∈ cs, c ∈ T.verts ∧ ∃ output, print c = .ok output ∧
      output.toList = (below c).flatMap fun e ↦ edgeLine e ++ ['\n']) :
    ∃ output, dotChildren nodes print v cs = .ok output ∧
      output.toList =
        (cs.flatMap fun c ↦ (v, c) :: below c).flatMap fun e ↦ edgeLine e ++ ['\n'] := by
  induction cs with
  | nil => exact ⟨"", rfl, rfl⟩
  | cons c cs ih =>
    obtain ⟨⟨hc, first, hfirst, hfirstText⟩, hprint⟩ := List.forall_mem_cons.mp hprint
    obtain ⟨more, hmore, hmoreText⟩ := ih hprint
    obtain ⟨child, hchild⟩ := hn.exists_node hc
    have hid : child.id = c := (hn.fields hchild).2.1
    refine ⟨"  " ++ toString v ++ " -> " ++ toString c ++ ";\n" ++ first ++ more, ?_, ?_⟩
    · simp only [dotChildren, NodeMap.deref, hchild, hid, hfirst, hmore, bind, Except.bind]
    · have hindent : "  ".toList = [' ', ' '] := rfl
      have harrow : " -> ".toList = [' ', '-', '>', ' '] := rfl
      have hend : ";\n".toList = [';', '\n'] := rfl
      rw [List.flatMap_cons, List.cons_append, List.flatMap_cons, List.flatMap_append,
        ← hfirstText, ← hmoreText]
      simp only [String.toList_append, hindent, harrow, hend, edgeLine, List.append_assoc,
        List.cons_append, List.nil_append]

theorem printDOT_eq {nodes : NodeMap (List Message)} (hn : Shaped nodes T) {fuel v : ℕ}
    (hv : v ∈ T.verts) (hfuel : T.verts.card ≤ fuel + T.rank v) :
    ∃ output, printDOT nodes fuel (some v) = .ok output ∧
      output.toList =
        (edgesBelow T.children fuel v).flatMap fun e ↦ edgeLine e ++ ['\n'] := by
  induction fuel generalizing v with
  | zero =>
    have hlt := T.rank_lt v hv
    omega
  | succ fuel ih =>
    obtain ⟨node, hnode⟩ := hn.exists_node hv
    obtain ⟨-, hid, -, -, hchildren⟩ := hn.fields hnode
    have hprint : ∀ c ∈ T.children v, c ∈ T.verts ∧ ∃ output,
        printDOT nodes fuel (some c) = .ok output ∧ output.toList =
          (edgesBelow T.children fuel c).flatMap fun e ↦ edgeLine e ++ ['\n'] := fun c hc ↦ by
      obtain ⟨hcv, hcfuel⟩ := Arborescence.fuel_child hc hfuel
      exact ⟨hcv, ih hcv hcfuel⟩
    obtain ⟨output, hrun, htext⟩ := dotChildren_eq hn (v := v) hprint
    refine ⟨output, ?_, htext⟩
    simp only [printDOT, NodeMap.deref, hnode, hid, hchildren, hrun, bind, Except.bind]

/-- The edges that a standing tree prints. -/
def printedEdges (t : SpanningTree (List Message)) (T : Arborescence ℕ) : List (ℕ × ℕ) :=
  edgesBelow T.children t.nodes.ids.length T.root

theorem frame_edgeLines (es : List (ℕ × ℕ)) (rest : List Char) :
    (Lines.frame '\n' ((es.flatMap fun e ↦ edgeLine e ++ ['\n']) ++ rest)).1 =
      es.map edgeLine ++ (Lines.frame '\n' rest).1 := by
  induction es with
  | nil => rfl
  | cons e es ih =>
    rw [List.flatMap_cons, List.append_assoc, List.append_assoc, List.singleton_append,
      Lines.frame_append (newline_not_mem_edgeLine e), ih]
    rfl

/-- `toDOT` of a standing tree returns a line for each edge, between two others. -/
theorem Standing.toDOT {t : SpanningTree (List Message)} (ht : Standing t T) :
    ∃ output, t.toDOT = .ok output ∧ dotLines output =
      "digraph SpanningTree \x7b".toList :: (printedEdges t T).map edgeLine ++ [['}']] := by
  obtain ⟨edges, hrun, htext⟩ := printDOT_eq ht.shaped T.root_mem ht.card_le
  refine ⟨"digraph SpanningTree \x7b\n" ++ edges ++ "\x7d\n", ?_, ?_⟩
  · simp only [SpanningTree.toDOT, ht.root_eq, hrun, bind, Except.bind]
  · have hopening : "digraph SpanningTree \x7b\n".toList =
        "digraph SpanningTree \x7b".toList ++ ['\n'] := rfl
    have hclosing : "\x7d\n".toList = ['}', '\n'] := rfl
    rw [dotLines, String.toList_append, String.toList_append, hopening, hclosing, htext,
      List.append_assoc, List.append_assoc, List.singleton_append,
      Lines.frame_append (by decide)]
    simp only
    rw [frame_edgeLines]
    rfl

variable {t : SpanningTree (List Message)} {output : String}

theorem count_edgeLine {es : List (ℕ × ℕ)} (e : ℕ × ℕ) :
    (("digraph SpanningTree \x7b".toList :: es.map edgeLine ++ [['}']]).count (edgeLine e)) =
      es.count e := by
  have hhead : (edgeLine e).head? = some ' ' := rfl
  have hopening : "digraph SpanningTree \x7b".toList ≠ edgeLine e := fun heq ↦ by
    rw [← heq] at hhead
    exact absurd hhead (by decide)
  have hclosing : ['}'] ≠ edgeLine e := fun heq ↦ by
    rw [← heq] at hhead
    exact absurd hhead (by decide)
  rw [List.cons_append, List.count_cons_of_ne hopening, List.count_append,
    List.count_map_of_injective _ _ edgeLine_injective, List.count_singleton,
    if_neg (by simpa using hclosing), Nat.add_zero]

theorem mem_printedEdges (ht : Standing t T) {u c : ℕ} :
    (u, c) ∈ printedEdges t T ↔ T.parent c = some u := by
  rw [printedEdges, mem_edgesBelow T.root_mem ht.card_le]
  exact and_iff_right_of_imp fun hp ↦ Arborescence.below_root (T.parent_mem c u hp).2.1

theorem Standing.bind_parent (ht : Standing t T) (v : ℕ) :
    (t.getNode v).bind Node.parent = T.parent v := by
  by_cases hv : v ∈ T.verts
  · exact ht.parent_eq hv
  · have hnode : t.getNode v = none := by
      simpa [SpanningTree.getNode, hv] using ht.shaped.isSome v
    cases hp : T.parent v with
    | none => rw [hnode, Option.bind_none]
    | some p => exact absurd (T.parent_mem v p hp).1 hv

/-- The text describes the tree exactly when the root has children. -/
theorem Standing.describes_iff (ht : Standing t T) (houtput : t.toDOT = .ok output) :
    Describes t output ↔ T.children T.root ≠ [] := by
  obtain ⟨output', hrun, hlines⟩ := ht.toDOT
  obtain rfl := Except.ok.inj (houtput.symm.trans hrun)
  have hmem : ∀ e, edgeLine e ∈ dotLines output ↔ T.parent e.2 = some e.1 := fun e ↦ by
    rw [← mem_printedEdges ht, ← List.count_pos_iff, hlines, count_edgeLine, List.count_pos_iff]
  constructor
  · intro hdescribes hnil
    have hroot : (t.getNode T.root).isSome := (ht.shaped.isSome _).mpr T.root_mem
    obtain ⟨e, he, -⟩ := (hdescribes.vertices T.root).mpr hroot
    refine (edgesBelow_ne_nil_iff ht.card_le).mp (fun hnone ↦ ?_) hnil
    have hprinted : e ∈ printedEdges t T := (mem_printedEdges ht).mpr ((hmem e).mp he)
    rw [printedEdges, hnone] at hprinted
    cases hprinted
  · intro hne
    refine ⟨fun v ↦ ?_, fun u c ↦ ?_⟩
    · rw [SpanningTree.getNode, ht.shaped.isSome]
      simp only [hmem]
      constructor
      · rintro ⟨e, hp, rfl | rfl⟩
        · exact (T.parent_mem _ _ hp).2.1
        · exact (T.parent_mem _ _ hp).1
      · intro hv
        by_cases hvr : v = T.root
        · obtain ⟨c, hc⟩ := List.exists_mem_of_ne_nil _ hne
          exact ⟨(v, c), (T.mem_children v c).mp (hvr ▸ hc), Or.inl rfl⟩
        · obtain ⟨p, hp⟩ := T.exists_parent hv hvr
          exact ⟨(p, v), hp, Or.inr rfl⟩
    · have hnodup : (printedEdges t T).Nodup := nodup_edgesBelow T.root_mem ht.card_le
      rw [hlines, count_edgeLine, hnodup.count]
      simp only [mem_printedEdges ht, ht.bind_parent]

/-- A text that describes a tree is that of no other. -/
theorem Standing.eq_of_toDOT {t' : SpanningTree (List Message)} {T' : Arborescence ℕ}
    (ht : Standing t T) (ht' : Standing t' T') (houtput : t.toDOT = .ok output)
    (houtput' : t'.toDOT = .ok output) (hne : T.children T.root ≠ []) :
    t'.root = t.root ∧ ∀ v, (t'.getNode v).map Node.static = (t.getNode v).map Node.static := by
  obtain ⟨_, hrun, hlines⟩ := ht.toDOT
  obtain rfl := Except.ok.inj (houtput.symm.trans hrun)
  obtain ⟨_, hrun', hlines'⟩ := ht'.toDOT
  obtain rfl := Except.ok.inj (houtput'.symm.trans hrun')
  have hmaps : (printedEdges t T).map edgeLine = (printedEdges t' T').map edgeLine :=
    List.append_cancel_right (List.cons.inj (hlines.symm.trans hlines')).2
  obtain ⟨hroot, hchildren⟩ := agree_of_edgesBelow ht.card_le ht'.card_le hne
    (List.map_injective_iff.mpr edgeLine_injective hmaps)
  exact ht.eq_of_children ht' hroot hchildren

end Standing

/-- Assumes: the calls of `addEdge` on a new graph of `n` vertices were all accepted, and the root
is a vertex. The text that `toDOT` returns mentions exactly the nodes of the built tree, has exactly
the pairs of a node and its parent as edge lines, once each, and is that of no other built tree,
exactly when an added edge joins the root to another vertex. -/
theorem toDOT_describes_iff (n : ℕ) (edges : List (ℤ × ℤ)) (g : Graph)
    (hg : (Graph.new n).addEdges edges = .ok g) (rootId : ℤ) (hpos : 0 ≤ rootId)
    (hlt : rootId < n) (old : SpanningTree (List Message)) :
    ∃ (t : SpanningTree (List Message)) (r : ℕ) (output : String),
      SpanningTree.build [] old g rootId = .ok t ∧ rootId = r ∧ t.root = some r ∧
      t.toDOT = .ok output ∧
      ((Describes t output ∧ ∀ (n' : ℕ) (edges' : List (ℤ × ℤ)) (g' : Graph) (rootId' : ℤ)
        (old' t' : SpanningTree (List Message)), (Graph.new n').addEdges edges' = .ok g' →
        SpanningTree.build [] old' g' rootId' = .ok t' → t'.toDOT = .ok output →
        t'.root = t.root ∧
          ∀ v, (t'.getNode v).map Node.static = (t.getNode v).map Node.static) ↔
        ∃ v, v ≠ r ∧ Joined edges r v) := by
  obtain ⟨r, rfl⟩ := Int.eq_ofNat_of_zero_le hpos
  obtain ⟨t, T, hrun, ht, rfl, hreach, hjoined, -⟩ :=
    build_spec (builtFrom_addEdges hg) (by omega : r < n) ([] : List Message) old
  obtain ⟨output, houtput, -⟩ := ht.toDOT
  have hcondition : T.children T.root ≠ [] ↔ ∃ v, v ≠ T.root ∧ Joined edges T.root v := by
    constructor
    · intro hne
      obtain ⟨c, hc⟩ := List.exists_mem_of_ne_nil _ hne
      have hp := (T.mem_children _ c).mp hc
      refine ⟨c, fun heq ↦ ?_, hjoined c _ hp⟩
      exact absurd (T.parent_mem c _ hp).2.2 (heq ▸ lt_irrefl _)
    · rintro ⟨v, hne, hv⟩ hnil
      have hbelow : T.Below T.root v :=
        Arborescence.below_root ((hreach v).mpr (Relation.ReflTransGen.single hv))
      obtain ⟨c, hc, -⟩ := (Arborescence.below_iff.mp hbelow).resolve_left hne
      rw [hnil] at hc
      cases hc
  refine ⟨t, T.root, output, hrun, rfl, ht.root_eq, houtput, ?_⟩
  rw [← hcondition, ht.describes_iff houtput]
  refine ⟨fun h ↦ h.1, fun hne ↦ ⟨hne, fun n' edges' g' rootId' old' t' hg' hrun' houtput' ↦ ?_⟩⟩
  obtain ⟨T', ht'⟩ := standing_of_build (builtFrom_addEdges hg') hrun'
  exact ht.eq_of_toDOT ht' houtput houtput' hne

/-- An edge with a double and a self-loop. -/
theorem toDOT_describes_iff_example :
    ∃ (t : SpanningTree (List Message)) (output : String),
      SpanningTree.build [] .unbuilt
        { numVertices := 2, adj := [[1, 1], [0, 1, 1, 0]] } 0 = .ok t ∧
      t.toDOT = .ok output ∧ Describes t output := by
  obtain ⟨t, r, output, hrun, hr, -, houtput, hiff⟩ :=
    toDOT_describes_iff 2 [(0, 1), (1, 1), (1, 0)]
      { numVertices := 2, adj := [[1, 1], [0, 1, 1, 0]] } rfl 0 (by decide) (by decide) .unbuilt
  obtain rfl : r = 0 := Int.ofNat.inj hr.symm
  exact ⟨t, output, hrun, houtput, (hiff.mpr ⟨1, by decide, Or.inl (by decide)⟩).1⟩

/-- A single vertex. -/
theorem single_vertex_missing :
    ¬∀ (n : ℕ) (edges : List (ℤ × ℤ)) (g : Graph), (Graph.new n).addEdges edges = .ok g →
      ∀ (rootId : ℤ), 0 ≤ rootId → rootId < n →
      ∀ (old t : SpanningTree (List Message)) (output : String),
        SpanningTree.build [] old g rootId = .ok t → t.toDOT = .ok output →
        Describes t output := by
  intro hall
  obtain ⟨t, T, hrun, ht, -, -, hjoined, -⟩ := build_spec
    (builtFrom_addEdges (rfl : (Graph.new 1).addEdges [] = .ok (Graph.new 1)))
    (Nat.zero_lt_one) ([] : List Message) .unbuilt
  obtain ⟨output, houtput, -⟩ := ht.toDOT
  have hdescribes := hall 1 [] (Graph.new 1) rfl 0 (by decide) (by decide) .unbuilt t output hrun
    houtput
  obtain ⟨c, hc⟩ := List.exists_mem_of_ne_nil _ ((ht.describes_iff houtput).mp hdescribes)
  exact absurd (hjoined c _ ((T.mem_children _ c).mp hc)) (by simp [Joined])

end WsServer.Convergecast
