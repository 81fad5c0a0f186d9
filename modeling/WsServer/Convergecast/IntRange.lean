import WsServer.Convergecast.AsyncRuns

/-!
# The range of `int` in a convergecast

The members of a node and the totals are of type `int`, and nothing bounds the size of a graph. The
functions below list every `int` that a run computes, in exact arithmetic. All of them lie between
zero and the sum over the component of the root (`startInts_eq`, `Tracks.scheduledInts`), and that
sum is one of them, so a run stays in the range of a 32-bit `int` exactly when the sum does
(`exact_iff`).
-/

set_option autoImplicit false
set_option relaxedAutoImplicit false

namespace WsServer.Convergecast

open Foundations

/-! ### Bounds on weights -/

section Weights

variable {T : Arborescence ℕ}

theorem weight_nonneg (v : ℕ) : 0 ≤ weight T v := Finset.sum_nonneg fun _ _ ↦ by positivity

theorem sum_weight_nonneg (l : List ℕ) : 0 ≤ (l.map (weight T)).sum :=
  List.sum_nonneg fun z hz ↦ by
    obtain ⟨v, -, rfl⟩ := List.mem_map.mp hz
    exact weight_nonneg v

/-- Any of the answers of the children add up to at most the sum of the subtree. -/
theorem sum_weight_le {v : ℕ} (hv : v ∈ T.verts) {l : List ℕ} (hl : l.Subperm (T.children v)) :
    (l.map (weight T)).sum ≤ weight T v := by
  obtain ⟨l', hperm, hsublist⟩ := hl
  have hle : (l'.map (weight T)).sum ≤ ((T.children v).map (weight T)).sum := by
    refine (hsublist.map _).sum_le_sum fun z hz ↦ ?_
    obtain ⟨c, -, rfl⟩ := List.mem_map.mp hz
    exact weight_nonneg c
  rw [← (hperm.map (weight T)).sum_eq, weight_eq hv]
  omega

theorem sum_prefix_bounds {v : ℕ} (hv : v ∈ T.verts) {done rest : List ℕ}
    (hchildren : T.children v = done ++ rest) :
    0 ≤ (done.map (weight T)).sum ∧ (done.map (weight T)).sum ≤ weight T v := by
  refine ⟨sum_weight_nonneg done, sum_weight_le hv (List.Sublist.subperm ?_)⟩
  rw [hchildren]
  exact List.sublist_append_left done rest

theorem weight_le_parent {v c : ℕ} (hv : v ∈ T.verts) (hc : c ∈ T.children v) :
    weight T c ≤ weight T v := by
  have hsingle : [c].Subperm (T.children v) := List.singleton_subperm_iff.mpr hc
  simpa using sum_weight_le hv hsingle

theorem weight_le_root (v : ℕ) : weight T v ≤ weight T T.root := by
  refine Finset.sum_le_sum_of_subset_of_nonneg (fun w hw ↦ ?_) fun _ _ _ ↦ by positivity
  rw [Arborescence.subtree_root]
  exact (Arborescence.mem_subtree.mp hw).1

theorem mul_le_weight {v : ℕ} (hv : v ∈ T.verts) : (v : ℤ) * 10 ≤ weight T v := by
  have hchildren := sum_weight_nonneg (T := T) (T.children v)
  rw [weight_eq hv]
  omega

end Weights

/-! ### The `int`s of a run -/

/-- The `int`s computed by a node on the answer `value` of a child: `accumulated += value` and,
after the last answer, `accumulated + localValue`. -/
def Node.answerInts {Inbox : Type} (node : Node Inbox) (value : ℤ) : List ℤ :=
  (node.accumulated + value) ::
    if node.pendingChildren - 1 = 0 then [node.accumulated + value + node.localValue] else []

/-- `id * 10`, computed in the constructor of each node. -/
def SpanningTree.buildInts {Inbox : Type} (t : SpanningTree Inbox) : List ℤ :=
  t.nodes.ids.map fun id : ℕ ↦ (id : ℤ) * 10

/-- The `int`s computed by `back`. -/
def backInts : ℕ → ℕ → ℤ → NodeMap Unit → List ℤ
  | 0, _, _, _ => []
  | fuel + 1, v, value, nodes =>
    match nodes.find v with
    | none => []
    | some node =>
      let ints := node.answerInts value
      let node := { node with
        accumulated := node.accumulated + value, pendingChildren := node.pendingChildren - 1 }
      let nodes := nodes.store v node
      if node.pendingChildren = 0 then
        match node.parent with
        | none => ints
        | some parent => ints ++ backInts fuel parent (node.accumulated + node.localValue) nodes
      else ints

/-- The `int`s computed by calls on the nodes of a list, each on the state its predecessor left. -/
def callInts (ints : ℕ → NodeMap Unit → List ℤ)
    (call : ℕ → NodeMap Unit → Except Fault (NodeMap Unit × List Event)) :
    List ℕ → NodeMap Unit → List ℤ
  | [], _ => []
  | c :: cs, nodes => ints c nodes ++
    match call c nodes with
    | .ok (nodes, _) => callInts ints call cs nodes
    | .error _ => []

/-- The `int`s computed by `Node::start`. -/
def startInts (msg : String) : ℕ → ℕ → ℕ → NodeMap Unit → List ℤ
  | 0, _, _, _ => []
  | fuel + 1, depth, v, nodes =>
    match nodes.find v with
    | none => []
    | some node =>
      let node := node.resetState
      let nodes := nodes.store v node
      if node.isLeaf then
        match node.parent with
        | some parent => backInts depth parent node.localValue nodes
        | none => []
      else
        callInts (startInts msg fuel (depth + 1)) (start msg fuel (depth + 1)) node.children nodes

/-- The `int`s computed by `SpanningTree::start`. -/
def SpanningTree.startInts (t : SpanningTree Unit) (msg : String) : List ℤ :=
  match t.root with
  | none => []
  | some root => Convergecast.startInts msg t.nodes.ids.length 0 root t.nodes

/-- The `int`s computed by `processMessage`. -/
def SpanningTree.messageInts (t : SpanningTree (List Message)) (v : ℕ) : List ℤ :=
  match t.nodes.find v with
  | none => []
  | some node =>
    match node.inbox with
    | [] => []
    | m :: _ =>
      match m.type with
      | .go => []
      | .back => node.answerInts m.value

/-- The `int`s computed when the nodes `picks` handle a message each. -/
def SpanningTree.scheduledInts : SpanningTree (List Message) → List ℕ → List ℤ
  | _, [] => []
  | t, v :: picks => t.messageInts v ++
    match t.processMessage v with
    | .ok (t, _) => t.scheduledInts picks
    | .error _ => []

/-! ### Synchronous runs -/

section Sync

variable {T : Arborescence ℕ} {nodes : NodeMap Unit}

variable (T) in
/-- The `int`s computed by the delivery of the sum of a subtree. -/
def finishInts (depth v : ℕ) (value : ℤ) (nodes : NodeMap Unit) : List ℤ :=
  match T.parent v with
  | none => []
  | some parent => backInts depth parent value nodes

/-- One call of `back`, as in `back_eq`. -/
theorem backInts_eq (hn : Shaped nodes T) {v : ℕ} {node : Node Unit} {pending accumulated : ℤ}
    (hv : nodes.find v = some (node.withCounters pending accumulated)) (depth : ℕ) (value : ℤ) :
    backInts (depth + 1) v value nodes =
      if pending - 1 = 0 then
        [accumulated + value, accumulated + value + v * 10] ++
          finishInts T depth v (accumulated + value + v * 10)
            (nodes.store v (node.withCounters (pending - 1) (accumulated + value)))
      else [accumulated + value] := by
  obtain ⟨-, -, hlocal, hparent, -⟩ := hn.fields hv
  simp only [Node.withCounters] at hv hlocal hparent ⊢
  simp only [backInts, hv, Node.answerInts, finishInts, hlocal, hparent]
  split_ifs
  · cases T.parent v <;> simp
  · rfl

/-- The answer of the next child, as in `back_answered`. -/
theorem backInts_answered (hn : Shaped nodes T) {v c : ℕ} (hmem : v ∈ T.verts)
    {done rest : List ℕ} (hchildren : T.children v = done ++ c :: rest) (depth : ℕ) :
    backInts (depth + 1) v (weight T c) (settle T c (progress T v done nodes)) =
      ((done ++ [c]).map (weight T)).sum ::
        if rest = [] then weight T v :: finishInts T depth v (weight T v) (settle T v nodes)
        else [] := by
  obtain ⟨node, hv, hat⟩ := find_answered hn hmem hchildren
  have hsoFar : (done.map (weight T)).sum + weight T c = ((done ++ [c]).map (weight T)).sum := by
    simp
  rw [backInts_eq ((hn.progress v done).settle c) hat, add_sub_cancel_right,
    progress_append hv hchildren]
  cases rest with
  | nil =>
    have hsettle : progress T v (done ++ [c]) nodes = settle T v nodes := by
      rw [settle, hchildren]
    rw [if_pos (by simp), if_pos rfl, sum_last hmem hchildren, hsettle, hsoFar]
    rfl
  | cons c' rest => rw [if_neg (by simp; omega), if_neg (List.cons_ne_nil _ _), hsoFar]

/-- The loop over the children of `v`: partial sums of their answers, the last of them with the
value of `v`. -/
theorem callInts_eq {msg : String} {fuel : ℕ} (hn : Shaped nodes T) {v : ℕ} (hmem : v ∈ T.verts)
    (hfuel : T.verts.card ≤ fuel + 1 + T.rank v)
    (hints : ∀ c ∈ T.children v, ∀ (depth : ℕ) (nodes : NodeMap Unit), Shaped nodes T →
      ∃ own, startInts msg fuel depth c nodes =
          own ++ finishInts T depth c (weight T c) (settle T c nodes) ∧
        ∀ z ∈ own, 0 ≤ z ∧ z ≤ weight T c)
    (depth : ℕ) {done rest : List ℕ} (hchildren : T.children v = done ++ rest) (hrest : rest ≠ []) :
    ∃ own, callInts (startInts msg fuel (depth + 1)) (start msg fuel (depth + 1)) rest
          (progress T v done nodes) =
        own ++ finishInts T depth v (weight T v) (settle T v nodes) ∧
      (∀ z ∈ own, 0 ≤ z ∧ z ≤ weight T v) ∧ weight T v ∈ own := by
  induction rest generalizing done with
  | nil => exact absurd rfl hrest
  | cons c rest ih =>
    have hc : c ∈ T.children v := by simp [hchildren]
    have hparent : T.parent c = some v := (T.mem_children v c).mp hc
    obtain ⟨hcv, -, hlt⟩ := T.parent_mem c v hparent
    have hshaped := hn.progress v done
    have hcall : start msg fuel (depth + 1) c (progress T v done nodes) = _ :=
      start_eq hcv (by omega) (depth + 1) hshaped
    rw [finish_of_parent hparent, back_answered hn hmem hchildren] at hcall
    obtain ⟨below, hbelow, hbound⟩ := hints c hc (depth + 1) _ hshaped
    rw [finishInts, hparent] at hbelow
    simp only [backInts_answered hn hmem hchildren] at hbelow
    have hbelow_le : ∀ z ∈ below, 0 ≤ z ∧ z ≤ weight T v := fun z hz ↦
      ⟨(hbound z hz).1, (hbound z hz).2.trans (weight_le_parent hmem hc)⟩
    have hsplit : T.children v = (done ++ [c]) ++ rest := by simp [hchildren]
    have hsoFar := sum_prefix_bounds hmem hsplit
    rw [callInts, hbelow, hcall]
    cases rest with
    | nil =>
      rw [if_pos rfl, if_pos rfl]
      refine ⟨below ++ [((done ++ [c]).map (weight T)).sum, weight T v], ?_, ?_, by simp⟩
      · cases finish T depth v (weight T v) (settle T v nodes) <;>
          simp [Except.map, callInts]
      · intro z hz
        rcases List.mem_append.mp hz with hz | hz
        · exact hbelow_le z hz
        · rcases List.mem_pair.mp hz with rfl | rfl
          · exact hsoFar
          · exact ⟨weight_nonneg v, le_rfl⟩
    | cons c' rest =>
      obtain ⟨own, hown, hall, hlast⟩ := ih hsplit (List.cons_ne_nil _ _)
      rw [if_neg (List.cons_ne_nil _ _), if_neg (List.cons_ne_nil _ _)]
      simp only [Except.map, hown]
      refine ⟨below ++ [((done ++ [c]).map (weight T)).sum] ++ own, by simp, ?_,
        List.mem_append_right _ hlast⟩
      intro z hz
      rcases List.mem_append.mp hz with hz | hz
      · rcases List.mem_append.mp hz with hz | hz
        · exact hbelow_le z hz
        · rw [List.mem_singleton.mp hz]
          exact hsoFar
      · exact hall z hz

/-- The `int`s of a call of `start` are those below the node and those of the delivery. -/
theorem startInts_eq {msg : String} {fuel : ℕ} {v : ℕ} (hmem : v ∈ T.verts)
    (hfuel : T.verts.card ≤ fuel + T.rank v) (depth : ℕ) {nodes : NodeMap Unit}
    (hn : Shaped nodes T) :
    ∃ own, startInts msg fuel depth v nodes =
        own ++ finishInts T depth v (weight T v) (settle T v nodes) ∧
      (∀ z ∈ own, 0 ≤ z ∧ z ≤ weight T v) ∧ (T.children v ≠ [] → weight T v ∈ own) := by
  induction fuel generalizing v depth nodes with
  | zero =>
    have hlt := T.rank_lt v hmem
    omega
  | succ fuel ih =>
    obtain ⟨node, hv⟩ := hn.exists_node hmem
    obtain ⟨-, -, hlocal, hparent, hchildren⟩ := hn.fields hv
    have hreset := progress_nil hv hchildren
    simp only [startInts, hv, hreset]
    by_cases hleaf : T.children v = []
    · have hweight : weight T v = v * 10 := by
        rw [weight_eq hmem, hleaf]
        simp
      have hsettle : progress T v [] nodes = settle T v nodes := by rw [settle, hleaf]
      refine ⟨[], ?_, by simp, absurd hleaf⟩
      simp only [Node.isLeaf, Node.resetState, hchildren, hleaf, List.isEmpty_nil, if_true,
        hlocal, hparent, finishInts, hweight, hsettle, List.nil_append]
      cases T.parent v <;> rfl
    · have hfalse : (T.children v).isEmpty = false := by simpa using hleaf
      have hints : ∀ c ∈ T.children v, ∀ (depth : ℕ) (nodes : NodeMap Unit), Shaped nodes T →
          ∃ own, startInts msg fuel depth c nodes =
              own ++ finishInts T depth c (weight T c) (settle T c nodes) ∧
            ∀ z ∈ own, 0 ≤ z ∧ z ≤ weight T c := fun c hc depth nodes hn ↦ by
        obtain ⟨hcv, hcfuel⟩ := Arborescence.fuel_child hc hfuel
        obtain ⟨own, hown, hall, -⟩ := ih hcv hcfuel depth hn
        exact ⟨own, hown, hall⟩
      obtain ⟨own, hown, hall, hlast⟩ :=
        callInts_eq hn hmem (by omega) hints depth (List.nil_append _).symm hleaf
      refine ⟨own, ?_, hall, fun _ ↦ hlast⟩
      simpa only [Node.isLeaf, Node.resetState, hchildren, hfalse, Bool.false_eq_true, if_false]
        using hown

end Sync

/-! ### Asynchronous runs -/

section Async

variable {T : Arborescence ℕ} {msg : String} {t : SpanningTree (List Message)} {w : Wave ℕ}
  {log : List Event}

/-- The token makes a node compute nothing. -/
theorem Tracks.messageInts_go (h : Tracks T msg t w log) {v : ℕ} {rest : List (Option ℕ)}
    (hcons : w.queue v = none :: rest) : t.messageInts v = [] := by
  obtain ⟨hmem, -⟩ := h.sound.called hcons
  obtain ⟨node, hnode⟩ := h.carries.shaped.exists_node hmem
  have hinbox := h.carries.inbox v node hnode
  rw [hcons, List.map_cons] at hinbox
  simp only [SpanningTree.messageInts, hnode, hinbox, message]

/-- An answer: the sum of the answers so far and, when the node reports, the sum of the subtree. -/
theorem Tracks.messageInts_back (h : Tracks T msg t w log) {v c : ℕ} {rest : List (Option ℕ)}
    (hcons : w.queue v = some c :: rest) :
    t.messageInts v = (((w.hear v c rest).heard v).map (weight T)).sum ::
      if Wave.complete T (w.hear v c rest) v then [weight T v] else [] := by
  have hmem : v ∈ T.verts := (T.parent_mem c v (h.sound.reported hcons).1).2.1
  obtain ⟨node, hnode⟩ := h.carries.shaped.exists_node hmem
  obtain ⟨-, -, hlocal, -, -⟩ := h.carries.shaped.fields hnode
  have hinbox := h.carries.inbox v node hnode
  rw [hcons, List.map_cons] at hinbox
  have hints : t.messageInts v = node.answerInts (weight T c) := by
    simp only [SpanningTree.messageInts, hnode, hinbox, message]
  have hheard : (w.hear v c rest).heard v = w.heard v ++ [c] := by simp [Wave.hear]
  have haccumulated : node.accumulated + weight T c =
      (((w.hear v c rest).heard v).map (weight T)).sum := by
    simp [h.carries.accumulated v node hnode, hheard]
  have hcomplete : node.pendingChildren - 1 = 0 ↔ Wave.complete T (w.hear v c rest) v := by
    rw [h.carries.pending v node hnode, Wave.complete, hheard, List.length_append,
      List.length_singleton]
    omega
  rw [hints, Node.answerInts, haccumulated]
  by_cases hfull : Wave.complete T (w.hear v c rest) v
  · rw [if_pos hfull, if_pos (hcomplete.mpr hfull), hlocal,
      sum_heard (h.sound.hear hcons) hmem hfull]
  · rw [if_neg hfull, if_neg (hcomplete.not.mpr hfull)]

/-- The `int`s of one message: a partial sum of the answers of the children, and the sum of the
subtree when the node reports. -/
theorem Tracks.messageInts (h : Tracks T msg t w log) {v : ℕ} (hq : w.queue v ≠ []) :
    (∀ z ∈ t.messageInts v, 0 ≤ z ∧ z ≤ weight T T.root) ∧
      ∀ u ∈ (w.handle T v).sent, u ∈ w.sent ∨ T.children u = [] ∨
        weight T u ∈ t.messageInts v := by
  rcases hcons : w.queue v with _ | ⟨_ | c, rest⟩
  · exact absurd hcons hq
  · rw [h.messageInts_go hcons]
    refine ⟨fun z hz ↦ absurd hz List.not_mem_nil, fun u hu ↦ ?_⟩
    simp only [Wave.handle, hcons] at hu
    by_cases hleaf : T.children v = []
    · rw [if_pos hleaf] at hu
      rcases List.mem_append.mp hu with hu | hu
      · exact Or.inl hu
      · rw [List.mem_singleton.mp hu]
        exact Or.inr (Or.inl hleaf)
    · rw [if_neg hleaf] at hu
      exact Or.inl hu
  · have hmem : v ∈ T.verts := (T.parent_mem c v (h.sound.reported hcons).1).2.1
    have hhear := h.sound.hear hcons
    have hheard := sum_weight_le hmem ((hhear.heard_nodup v).subperm (hhear.heard_subset v))
    have hroot := weight_le_root (T := T) v
    rw [h.messageInts_back hcons]
    refine ⟨fun z hz ↦ ?_, fun u hu ↦ ?_⟩
    · rcases List.mem_cons.mp hz with rfl | hz
      · exact ⟨sum_weight_nonneg _, hheard.trans hroot⟩
      · split_ifs at hz
        · rw [List.mem_singleton.mp hz]
          exact ⟨weight_nonneg v, hroot⟩
        · exact absurd hz List.not_mem_nil
    · simp only [Wave.handle, hcons] at hu
      by_cases hfull : Wave.complete T (w.hear v c rest) v
      · rw [if_pos hfull] at hu
        rcases List.mem_append.mp hu with hu | hu
        · exact Or.inl hu
        · rw [List.mem_singleton.mp hu, if_pos hfull]
          exact Or.inr (Or.inr (by simp))
      · rw [if_neg hfull] at hu
        exact Or.inl hu

/-- The `int`s along a schedule. -/
theorem Tracks.scheduledInts (h : Tracks T msg t w log) {picks : List ℕ}
    {t' : SpanningTree (List Message)} {events : List Event} (hrun : Schedule t picks t' events) :
    ∃ w', Tracks T msg t' w' (log ++ events) ∧
      (∀ z ∈ t.scheduledInts picks, 0 ≤ z ∧ z ≤ weight T T.root) ∧
      ∀ u ∈ w'.sent, u ∈ w.sent ∨ T.children u = [] ∨ weight T u ∈ t.scheduledInts picks := by
  induction hrun generalizing w log with
  | idle t => exact ⟨w, by rwa [List.append_nil], by simp [SpanningTree.scheduledInts],
      fun u hu ↦ Or.inl hu⟩
  | @pick t t₁ t₂ v picks events log' node hnode hinbox hstep _ ih =>
    obtain ⟨t₁, hstep', h₁, -⟩ := h.step hnode hinbox
    obtain ⟨rfl, rfl⟩ := Prod.mk.inj (Except.ok.inj (hstep'.symm.trans hstep))
    obtain ⟨w', h', hall, hsent⟩ := ih h₁
    obtain ⟨hmessage, hsent₁⟩ := h.messageInts ((h.inbox_iff hnode).not.mp hinbox)
    have hints : t.scheduledInts (v :: picks) = t.messageInts v ++ t₁.scheduledInts picks := by
      simp only [SpanningTree.scheduledInts, hstep]
    rw [hints]
    refine ⟨w', by rwa [← List.append_assoc], fun z hz ↦ ?_, fun u hu ↦ ?_⟩
    · rcases List.mem_append.mp hz with hz | hz
      · exact hmessage z hz
      · exact hall z hz
    · rcases hsent u hu with hu | hleaf | hin
      · rcases hsent₁ u hu with hu | hleaf | hin
        · exact Or.inl hu
        · exact Or.inr (Or.inl hleaf)
        · exact Or.inr (Or.inr (List.mem_append_left _ hin))
      · exact Or.inr (Or.inl hleaf)
      · exact Or.inr (Or.inr (List.mem_append_right _ hin))

end Async

/-! ### The range of a 32-bit `int` -/

def InRange (z : ℤ) : Prop := -2147483648 ≤ z ∧ z ≤ 2147483647

open Classical in
/-- The sum of `10 * id` over the vertices that are connected to the root. -/
noncomputable def componentSum (n : ℕ) (edges : List (ℤ × ℤ)) (r : ℕ) : ℤ :=
  ∑ v ∈ (Finset.range n).filter (Relation.ReflTransGen (Joined edges) r), (v : ℤ) * 10

/-- No computed `int` leaves the range, and the only printed total is `sum`, at the root. -/
structure Exact (ints : List ℤ) (log : List Event) (r : ℕ) (sum : ℤ) : Prop where
  inRange : ∀ z ∈ ints, InRange z
  printed : log.filterMap Event.result? = [(r, sum)]

section Range

variable {n r : ℕ} {edges : List (ℤ × ℤ)} {T : Arborescence ℕ}

theorem componentSum_eq {g : Graph} (hg : BuiltFrom g n edges) (hr : r < n) (hroot : T.root = r)
    (hreach : ∀ v, v ∈ T.verts ↔ Relation.ReflTransGen (Joined edges) r v) :
    componentSum n edges r = weight T r := by
  classical
  rw [componentSum, weight, ← hroot, Arborescence.subtree_root, hroot]
  refine Finset.sum_congr ?_ fun _ _ ↦ rfl
  ext v
  rw [Finset.mem_filter, Finset.mem_range, hreach]
  refine and_iff_right_of_imp fun hv ↦ ?_
  rcases Relation.ReflTransGen.cases_tail hv with rfl | ⟨u, -, hjoined⟩
  · exact hr
  · exact (hg.lt u v hjoined).2

/-- The values of the nodes and the `int`s of a run are in range when their maximum is. -/
theorem inRange_iff {Inbox : Type} {t : SpanningTree Inbox} (ht : Standing t T) {ints : List ℤ}
    (hints : ∀ z ∈ ints, 0 ≤ z ∧ z ≤ weight T T.root)
    (htop : T.children T.root = [] ∨ weight T T.root ∈ ints) :
    (∀ z ∈ t.buildInts ++ ints, InRange z) ↔ weight T T.root ≤ 2147483647 := by
  have hbuild : ∀ z ∈ t.buildInts, 0 ≤ z ∧ z ≤ weight T T.root := by
    intro z hz
    obtain ⟨v, hv, rfl⟩ := List.mem_map.mp hz
    exact ⟨by positivity,
      (mul_le_weight ((ht.shaped.mem_ids v).mp hv)).trans (weight_le_root v)⟩
  constructor
  · intro hall
    refine (hall (weight T T.root) ?_).2
    rcases htop with hleaf | hin
    · have hroot : weight T T.root = T.root * 10 := by
        rw [weight_eq T.root_mem, hleaf]
        simp
      rw [hroot]
      exact List.mem_append_left _
        (List.mem_map.mpr ⟨T.root, (ht.shaped.mem_ids _).mpr T.root_mem, rfl⟩)
    · exact List.mem_append_right _ hin
  · intro hle z hz
    have hbounds : 0 ≤ z ∧ z ≤ weight T T.root :=
      (List.mem_append.mp hz).elim (hbuild z) (hints z)
    exact ⟨by omega, by omega⟩

/-- A run of `start` on a standing tree, whatever its counters hold. -/
theorem Standing.startInts {t : SpanningTree Unit} (ht : Standing t T) (msg : String) :
    (∀ z ∈ t.startInts msg, 0 ≤ z ∧ z ≤ weight T T.root) ∧
      (T.children T.root = [] ∨ weight T T.root ∈ t.startInts msg) := by
  have hnone : T.parent T.root = none := (T.parent_eq_none _ T.root_mem).mpr rfl
  obtain ⟨own, hown, hall, htop⟩ := startInts_eq T.root_mem ht.card_le 0 ht.shaped
  rw [finishInts, hnone, List.append_nil] at hown
  have hints : t.startInts msg = own := by
    rw [SpanningTree.startInts, ht.root_eq]
    exact hown
  rw [hints]
  exact ⟨hall, or_iff_not_imp_left.mpr htop⟩

theorem Standing.sync_exact_iff {t : SpanningTree Unit} (ht : Standing t T)
    (pending accumulated : ℕ → ℤ) (msg : String) :
    ∃ t' log, (t.withCounters pending accumulated).start msg = .ok (t', log) ∧
      (Exact (t.buildInts ++ (t.withCounters pending accumulated).startInts msg) log T.root
          (weight T T.root) ↔ weight T T.root ≤ 2147483647) := by
  have ht' := ht.withCounters pending accumulated
  obtain ⟨hints, htop⟩ := ht'.startInts msg
  refine ⟨_, _, ht'.start_eq msg, ?_⟩
  rw [← inRange_iff ht hints htop]
  refine ⟨fun h ↦ h.inRange, fun h ↦ ⟨h, ?_⟩⟩
  rw [List.filterMap_append, result_trace]
  rfl

/-- A complete schedule of `startAsync`. -/
theorem Standing.async_exact_iff {built t t₁ t₂ : SpanningTree (List Message)}
    (hbuilt : Standing built T) (ht : Standing t T) (hidle : Idle t) {msg : String}
    (hlaunch : t.launch msg = .ok t₁) {picks : List ℕ} {log : List Event}
    (hschedule : Schedule t₁ picks t₂ log) (hdone : Idle t₂) :
    Exact (built.buildInts ++ t₁.scheduledInts picks) log T.root (weight T T.root) ↔
      weight T T.root ≤ 2147483647 := by
  obtain ⟨t₁', hlaunch', h₁⟩ := ht.launch hidle msg
  obtain rfl := Except.ok.inj (hlaunch'.symm.trans hlaunch)
  obtain ⟨w, h₂, hints, hsent⟩ := h₁.scheduledInts hschedule
  have hquiet : Wave.Quiet w := h₂.idle_iff.mp hdone
  have htop : T.children T.root = [] ∨ weight T T.root ∈ t₁'.scheduledInts picks :=
    (hsent T.root (h₂.sound.sent_of_quiet hquiet T.root_mem)).resolve_left List.not_mem_nil
  rw [← inRange_iff hbuilt hints htop]
  refine ⟨fun h ↦ h.inRange, fun h ↦ ⟨h, ?_⟩⟩
  rw [← hbuilt.treeSum_eq]
  exact (h₂.logged.converged h₂.sound hquiet hbuilt).result

end Range

/-- When the arithmetic of a convergecast is exact. For every graph and valid root, every run of
`start` and every run of `startAsync`, under any schedule of its messages and after any number of
earlier runs, stays in the range of `int` and prints the sum of `10 * id` over the component of the
root if and only if that sum is in the range. -/
theorem exact_iff (n : ℕ) (edges : List (ℤ × ℤ)) (g : Graph)
    (hg : (Graph.new n).addEdges edges = .ok g) (r : ℕ) (hr : r < n) :
    (∀ old, ∃ t, SpanningTree.build () old g r = .ok t ∧
      ∀ (pending accumulated : ℕ → ℤ) (msg : String), ∃ t' log,
        (t.withCounters pending accumulated).start msg = .ok (t', log) ∧
        (Exact (t.buildInts ++ (t.withCounters pending accumulated).startInts msg) log r
          (componentSum n edges r) ↔ componentSum n edges r ≤ 2147483647)) ∧
    ∀ old, ∃ built, SpanningTree.build [] old g r = .ok built ∧
      ∀ t, After built t → ∀ msg, ∃ t₁, t.launch msg = .ok t₁ ∧
        (∀ picks t₂ log, Schedule t₁ picks t₂ log → Idle t₂ →
          (Exact (built.buildInts ++ t₁.scheduledInts picks) log r (componentSum n edges r) ↔
            componentSum n edges r ≤ 2147483647)) ∧
        ∀ order, order.Perm t.nodes.ids → ∃ picks t₂ log,
          t.startAsync order msg = .ok (t₂, log) ∧ Schedule t₁ picks t₂ log ∧ Idle t₂ := by
  have hbuilt := builtFrom_addEdges hg
  refine ⟨fun old ↦ ?_, fun old ↦ ?_⟩
  · obtain ⟨t, T, hrun, ht, rfl, hreach, -⟩ := build_spec hbuilt hr () old
    rw [componentSum_eq hbuilt hr rfl hreach]
    exact ⟨t, hrun, ht.sync_exact_iff⟩
  · obtain ⟨built, T, hrun, hT, rfl, hreach, -, hinbox⟩ := build_spec hbuilt hr [] old
    rw [componentSum_eq hbuilt hr rfl hreach]
    refine ⟨built, hrun, fun t hafter msg ↦ ?_⟩
    obtain ⟨ht, hidle⟩ := hafter.standing hT hinbox
    obtain ⟨t₁, hlaunch, -⟩ := ht.launch hidle msg
    exact ⟨t₁, hlaunch, fun picks t₂ log hschedule hdone ↦
      hT.async_exact_iff ht hidle hlaunch hschedule hdone,
      fun order ↦ ht.startAsync hidle hlaunch⟩

theorem exact_iff_example :
    (Graph.new 3).addEdges [(0, 1), (1, 2)] =
        .ok { numVertices := 3, adj := [[1], [0, 2], [1]] } ∧
      ∃ t, SpanningTree.build () .unbuilt { numVertices := 3, adj := [[1], [0, 2], [1]] } 0 =
          .ok t ∧
        ∀ (pending accumulated : ℕ → ℤ) (msg : String), ∃ t' log,
          (t.withCounters pending accumulated).start msg = .ok (t', log) ∧
          (Exact (t.buildInts ++ (t.withCounters pending accumulated).startInts msg) log 0
            (componentSum 3 [(0, 1), (1, 2)] 0) ↔ componentSum 3 [(0, 1), (1, 2)] 0 ≤ 2147483647) :=
  ⟨rfl, (exact_iff 3 [(0, 1), (1, 2)] { numVertices := 3, adj := [[1], [0, 2], [1]] } rfl 0
    (by decide)).1 .unbuilt⟩

/-! ### A star that is too large -/

/-- The edges from vertex 0 to the vertices `1 … k`. -/
def star (k : ℕ) : List (ℤ × ℤ) := (List.range k).map fun i : ℕ ↦ (0, ((i + 1 : ℕ) : ℤ))

theorem joined_star {k v : ℕ} (hv : v < k) : Joined (star k) 0 (v + 1) :=
  Or.inl (List.mem_map.mpr ⟨v, List.mem_range.mpr hv, rfl⟩)

/-- Edges in range are accepted. -/
theorem addEdges_of_inRange {g : Graph} {n : ℕ} {edges edges' : List (ℤ × ℤ)}
    (hg : BuiltFrom g n edges)
    (hedges : ∀ e ∈ edges', 0 ≤ e.1 ∧ e.1 < n ∧ 0 ≤ e.2 ∧ e.2 < n) :
    ∃ g', g.addEdges edges' = .ok g' := by
  induction edges' generalizing g edges with
  | nil => exact ⟨g, rfl⟩
  | cons e edges' ih =>
    obtain ⟨⟨hu, hun, hv, hvn⟩, hedges⟩ := List.forall_mem_cons.mp hedges
    rcases hg.addEdge e with herror | ⟨g₁, hstep, hg₁⟩
    · have hsize : (g.numVertices : ℤ) = n := congrArg Nat.cast hg.size_eq
      have ha : e.1.toNat < g.adj.length := by
        rw [hg.length_eq]
        omega
      have hb : e.2.toNat < (g.adj.modify e.1.toNat (· ++ [e.2.toNat])).length := by
        rw [List.length_modify, hg.length_eq]
        omega
      unfold Graph.addEdge at herror
      rw [if_neg (by omega)] at herror
      simp [pushBack_eq ha, pushBack_eq hb, bind, Except.bind] at herror
    · obtain ⟨g', hrest⟩ := ih hg₁ hedges
      exact ⟨g', by simpa [Graph.addEdges, hstep, bind, Except.bind] using hrest⟩

theorem addEdges_star (k : ℕ) : ∃ g, (Graph.new (k + 1)).addEdges (star k) = .ok g := by
  refine addEdges_of_inRange (builtFrom_new (k + 1)) fun e he ↦ ?_
  obtain ⟨i, hi, rfl⟩ := List.mem_map.mp he
  have hlt : i < k := List.mem_range.mp hi
  exact ⟨le_rfl, by positivity, by positivity, by push_cast; omega⟩

theorem componentSum_star (k : ℕ) : componentSum (k + 1) (star k) 0 = 5 * (k * (k + 1)) := by
  have hall : ∀ v ∈ Finset.range (k + 1), Relation.ReflTransGen (Joined (star k)) 0 v := by
    intro v hv
    cases v with
    | zero => exact Relation.ReflTransGen.refl
    | succ v =>
      exact Relation.ReflTransGen.single (joined_star (by simpa using Finset.mem_range.mp hv))
  have hgauss : ∀ m : ℕ, ∑ v ∈ Finset.range (m + 1), (v : ℤ) * 10 = 5 * (m * (m + 1)) := by
    intro m
    induction m with
    | zero => rfl
    | succ m ih =>
      rw [Finset.sum_range_succ, ih]
      push_cast
      ring
  classical
  rw [componentSum, Finset.filter_true_of_mem hall, hgauss]

/-- On the star with 20725 vertices the sum of the answers is 2147524500. -/
theorem star_not_exact :
    ∃ g t, (Graph.new 20725).addEdges (star 20724) = .ok g ∧
      SpanningTree.build () .unbuilt g 0 = .ok t ∧
      ∃ z ∈ t.buildInts ++ t.startInts "", ¬InRange z := by
  obtain ⟨g, hg⟩ := addEdges_star 20724
  have hbuilt := builtFrom_addEdges hg
  obtain ⟨t, T, hrun, ht, hroot, hreach, -⟩ := build_spec hbuilt (by omega : 0 < 20725) () .unbuilt
  refine ⟨g, t, hg, hrun, ?_⟩
  obtain ⟨hints, htop⟩ := ht.startInts ""
  have hsum := componentSum_eq hbuilt (by omega) hroot hreach
  rw [componentSum_star] at hsum
  by_contra hnone
  have hle := (inRange_iff ht hints htop).mp fun z hz ↦ by_contra fun hout ↦ hnone ⟨z, hz, hout⟩
  rw [hroot, ← hsum] at hle
  norm_num at hle

end WsServer.Convergecast
