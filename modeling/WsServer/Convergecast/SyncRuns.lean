import WsServer.Convergecast.Sync
import WsServer.Foundations.Runs

/-!
# Sequences of synchronous runs

What a run of `start` shows is read off its trace: every node receives the message once and in
preorder, every node but the root answers its parent once with the sum of its subtree, and the root
prints the sum of the tree. No call of `build` or `start` destroys the shape of the tree, so this
holds for every `start` after any calls on the object (`start_correct`).
-/

set_option autoImplicit false
set_option relaxedAutoImplicit false

namespace WsServer.Convergecast

open Foundations

/-! ### Reading the trace -/

section Trace

variable {T : Arborescence ℕ} {msg : String}

theorem received_trace (fuel v : ℕ) :
    (trace T msg fuel v).filterMap Event.received? =
      (Arborescence.preorder T.children fuel v).map fun w ↦ (w, msg) := by
  induction fuel generalizing v with
  | zero => rfl
  | succ fuel ih =>
    simp only [trace, Arborescence.preorder, List.filterMap_cons, Event.received?,
      List.filterMap_flatMap, List.filterMap_append, ih, List.filterMap_nil, List.append_nil,
      List.map_cons, List.map_flatMap]

theorem result_trace (fuel v : ℕ) : (trace T msg fuel v).filterMap Event.result? = [] := by
  induction fuel generalizing v with
  | zero => rfl
  | succ fuel ih =>
    simp only [trace, List.filterMap_cons, Event.result?, List.filterMap_flatMap,
      List.filterMap_append, ih, List.filterMap_nil, List.append_nil]
    simp

open Classical in
/-- Below `v`, the node `u` answers its parent once, with the sum of its subtree. -/
theorem back_trace {u p : ℕ} (hp : T.parent u = some p) {fuel v : ℕ} (hv : v ∈ T.verts)
    (hfuel : T.verts.card ≤ fuel + T.rank v) :
    (trace T msg fuel v).filterMap (Event.backFrom? u) =
      if ∃ c ∈ T.children v, T.Below c u then [(p, weight T u)] else [] := by
  induction fuel generalizing v with
  | zero =>
    have hlt := T.rank_lt v hv
    omega
  | succ fuel ih =>
    have hchild : ∀ c ∈ T.children v,
        (trace T msg fuel c ++ [Event.back c v (weight T c)]).filterMap (Event.backFrom? u) =
          if T.Below c u then [(p, weight T u)] else [] := fun c hc ↦ by
      have hparent : T.parent c = some v := (T.mem_children v c).mp hc
      obtain ⟨hcv, -, hlt⟩ := T.parent_mem c v hparent
      rw [List.filterMap_append, ih hcv (by omega)]
      by_cases hcu : c = u
      · subst hcu
        obtain rfl : p = v := Option.some.inj (hp.symm.trans hparent)
        have hnone : ¬∃ d ∈ T.children c, T.Below d c := by
          rintro ⟨d, hd, hbelow⟩
          exact Arborescence.not_below_parent ((T.mem_children c d).mp hd) hbelow
        simp [hnone, Arborescence.Below.refl, Event.backFrom?]
      · have hiff : T.Below c u ↔ ∃ d ∈ T.children c, T.Below d u := by
          rw [Arborescence.below_iff]
          exact or_iff_right (Ne.symm hcu)
        simp [hiff, hcu, Event.backFrom?]
    rw [trace, List.filterMap_cons_none rfl, List.filterMap_flatMap,
      List.flatMap_congr hchild]
    exact flatMap_ite_of_unique (T.children_nodup v)
      (fun c hc c' hc' ↦ Arborescence.disjoint_siblings hc hc') _

/-- The root answers nobody. -/
theorem back_trace_root (fuel v : ℕ) :
    (trace T msg fuel v).filterMap (Event.backFrom? T.root) = [] := by
  induction fuel generalizing v with
  | zero => rfl
  | succ fuel ih =>
    rw [trace, List.filterMap_cons_none rfl, List.filterMap_flatMap]
    apply List.flatMap_eq_nil_iff.mpr
    intro c hc
    have hcr : c ≠ T.root := by
      rintro rfl
      have hparent := (T.mem_children v _).mp hc
      rw [(T.parent_eq_none _ T.root_mem).mpr rfl] at hparent
      simp at hparent
    simp [ih, Event.backFrom?, hcr]

end Trace

/-! ### One run -/

section Start

variable {t : SpanningTree Unit} {T : Arborescence ℕ}

/-- `start` on a standing tree returns; it leaves the tree standing. -/
theorem Standing.start_eq (ht : Standing t T) (msg : String) :
    t.start msg = .ok ({ t with nodes := settle T T.root t.nodes },
      trace T msg t.nodes.ids.length T.root ++ [.result T.root (weight T T.root)]) := by
  have hnone : T.parent T.root = none := (T.parent_eq_none _ T.root_mem).mpr rfl
  have hrun : Convergecast.start msg t.nodes.ids.length 0 T.root t.nodes = _ :=
    Convergecast.start_eq T.root_mem ht.card_le 0 ht.shaped
  simp only [finish, hnone, Except.map] at hrun
  simp only [SpanningTree.start, ht.root_eq, hrun, bind, Except.bind]

theorem Standing.settle (ht : Standing t T) :
    Standing { t with nodes := settle T T.root t.nodes } T :=
  ⟨ht.root_eq, ht.shaped.settle T.root⟩

/-- The object with other values in the counters of its nodes. -/
def SpanningTree.withCounters (t : SpanningTree Unit) (pending accumulated : ℕ → ℤ) :
    SpanningTree Unit :=
  { t with nodes := { t.nodes with
      find := fun v ↦ (t.nodes.find v).map (·.withCounters (pending v) (accumulated v)) } }

theorem Standing.withCounters (ht : Standing t T) (pending accumulated : ℕ → ℤ) :
    Standing (t.withCounters pending accumulated) T := by
  refine ⟨ht.root_eq, ht.shaped.congr rfl fun v ↦ ?_⟩
  simp only [SpanningTree.withCounters, Option.map_map]
  rfl

end Start

/-! ### Any sequence of calls -/

/-- The calls of a client, each `build` with a graph of its own. -/
inductive Command
  | build (n : ℕ) (edges : List (ℤ × ℤ)) (rootId : ℤ)
  | start (msg : String)

/-- The faults that are exceptions and leave the program running. -/
def Fault.isException : Fault → Bool
  | .outOfRange _ => true
  | .runtimeError _ => true
  | .undefined => false
  | .diverges => false

def execute (t : SpanningTree Unit) : Command → Except Fault (SpanningTree Unit)
  | .build n edges rootId => do
    let g ← (Graph.new n).addEdges edges
    SpanningTree.build () t g rootId
  | .start msg => (t.start msg).map Prod.fst

/-- One call, after which an exception is caught; the calls throw before they change the object. -/
def step (t : SpanningTree Unit) (c : Command) : Option (SpanningTree Unit) :=
  match execute t c with
  | .ok t' => some t'
  | .error f => if f.isException then some t else none

def run (t : SpanningTree Unit) (cs : List Command) : Option (SpanningTree Unit) := cs.foldlM step t

/-- The object is unbuilt or stands. -/
def Ready (t : SpanningTree Unit) : Prop := t.root = none ∨ ∃ T, Standing t T

theorem Ready.step {t : SpanningTree Unit} (ht : Ready t) (c : Command) :
    ∃ t', step t c = some t' ∧ Ready t' := by
  cases c with
  | build n edges rootId =>
    rcases (builtFrom_new n).addEdges edges with hadd | ⟨g, hadd, hg⟩
    · exact ⟨t, by simp [Convergecast.step, execute, hadd, bind, Except.bind, Fault.isException],
        ht⟩
    · rcases build_cases hg rootId () t with hrun | ⟨t', T, hrun, ht'⟩
      · exact ⟨t, by simp [Convergecast.step, execute, hadd, hrun, bind, Except.bind,
          Fault.isException], ht⟩
      · exact ⟨t', by simp [Convergecast.step, execute, hadd, hrun, bind, Except.bind],
          Or.inr ⟨T, ht'⟩⟩
  | start msg =>
    rcases ht with hnone | ⟨T, hT⟩
    · exact ⟨t, by simp [Convergecast.step, execute, SpanningTree.start, hnone, Except.map,
        Fault.isException], Or.inl hnone⟩
    · exact ⟨{ t with nodes := settle T T.root t.nodes },
        by simp [Convergecast.step, execute, hT.start_eq, Except.map], Or.inr ⟨T, hT.settle⟩⟩

theorem ready_run (cs : List Command) : ∃ t, run .unbuilt cs = some t ∧ Ready t :=
  foldlM_invariant (fun _ c ht ↦ Ready.step ht c) cs (Or.inl rfl : Ready .unbuilt)

/-- After any calls of `build` and `start`, `start` throws when no tree was built. On a built tree,
and whatever values the counters of its nodes hold, it returns; every node receives the message
exactly once and in preorder, every node but the root answers its parent exactly once with the sum
of its subtree, and exactly one result is printed, at the root and with the sum of the tree. -/
theorem start_correct (cs : List Command) :
    ∃ t, run .unbuilt cs = some t ∧ ∀ msg,
      (t.root = none → t.start msg = .error (.runtimeError "Tree not built")) ∧
      ∀ r, t.root = some r → ∀ pending accumulated : ℕ → ℤ, ∃ t' log,
        (t.withCounters pending accumulated).start msg = .ok (t', log) ∧
        ∃ order, order = Arborescence.preorder (childrenOf t) t.nodes.ids.length r ∧
          order.Nodup ∧ (∀ v, v ∈ order ↔ (t.getNode v).isSome) ∧
          log.filterMap Event.received? = order.map (fun v ↦ (v, msg)) ∧
          (∀ v node, t.getNode v = some node → log.filterMap (Event.backFrom? v) =
            node.parent.toList.map fun p ↦ (p, subtreeSum t v)) ∧
          log.filterMap Event.result? = [(r, treeSum t)] := by
  obtain ⟨t, hrun, ht⟩ := ready_run cs
  refine ⟨t, hrun, fun msg ↦ ⟨fun hnone ↦ by simp [SpanningTree.start, hnone],
    fun r hroot pending accumulated ↦ ?_⟩⟩
  rcases ht with hnone | ⟨T, hT⟩
  · simp [hnone] at hroot
  · obtain rfl : T.root = r := Option.some.inj (hT.root_eq.symm.trans hroot)
    refine ⟨_, _, (hT.withCounters pending accumulated).start_eq msg, _, rfl, ?_, fun v ↦ ?_, ?_,
      fun v node hv ↦ ?_, ?_⟩
    · rw [hT.childrenOf_eq]
      exact Arborescence.nodup_preorder T.root_mem hT.card_le
    · rw [hT.childrenOf_eq, Arborescence.mem_preorder T.root_mem hT.card_le]
      refine Iff.trans ⟨fun h ↦ h.mem T.root_mem, Arborescence.below_root⟩ ?_
      exact (hT.shaped.isSome v).symm
    · rw [hT.childrenOf_eq, List.filterMap_append, received_trace]
      exact List.append_nil _
    · obtain ⟨hmem, -, -, hparent, -⟩ := hT.shaped.fields hv
      rw [List.filterMap_append, hparent, hT.subtreeSum_eq]
      show (trace T msg t.nodes.ids.length T.root).filterMap (Event.backFrom? v) ++ [] = _
      rw [List.append_nil]
      by_cases hvr : v = T.root
      · rw [hvr, back_trace_root, (T.parent_eq_none _ T.root_mem).mpr rfl]
        rfl
      · obtain ⟨p, hp⟩ := T.exists_parent hmem hvr
        have hbelow : ∃ c ∈ T.children T.root, T.Below c v :=
          (Arborescence.below_iff.mp (Arborescence.below_root hmem)).resolve_left hvr
        rw [back_trace hp T.root_mem hT.card_le, if_pos hbelow, hp]
        rfl
    · rw [List.filterMap_append, result_trace, hT.treeSum_eq]
      rfl

end WsServer.Convergecast
