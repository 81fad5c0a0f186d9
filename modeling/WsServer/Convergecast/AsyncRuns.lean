import WsServer.Convergecast.Async
import WsServer.Convergecast.SyncRuns

/-!
# Schedules of the asynchronous convergecast

A schedule picks, one after the other, nodes whose inbox is not empty. `Tracks` says that the object
and the events so far are those of a wave of the echo protocol, and one pick keeps it
(`Tracks.step`). Hence every schedule ends after the same number of picks and shows the same result
(`async_convergecast`), and the passes of `runScheduler` are one of these schedules.
-/

set_option autoImplicit false
set_option relaxedAutoImplicit false

namespace WsServer.Convergecast

open Foundations

/-! ### Schedules -/

/-- The nodes `picks` handle a message each, in this order. -/
inductive Schedule : SpanningTree (List Message) → List ℕ → SpanningTree (List Message) →
    List Event → Prop
  | idle (t : SpanningTree (List Message)) : Schedule t [] t []
  | pick {t t₁ t₂ : SpanningTree (List Message)} {v : ℕ} {picks : List ℕ} {events log : List Event}
      {node : Node (List Message)} (hnode : t.getNode v = some node) (hinbox : node.inbox ≠ [])
      (hrun : t.processMessage v = .ok (t₁, events)) (hrest : Schedule t₁ picks t₂ log) :
      Schedule t (v :: picks) t₂ (events ++ log)

/-- All inboxes are empty. -/
def Idle (t : SpanningTree (List Message)) : Prop :=
  ∀ v node, t.getNode v = some node → node.inbox = []

/-- The objects after consecutive calls of `startAsync`, each under some schedule. -/
inductive After (built : SpanningTree (List Message)) : SpanningTree (List Message) → Prop
  | build : After built built
  | startAsync {t t₁ t₂ : SpanningTree (List Message)} {msg : String} {picks : List ℕ}
      {log : List Event} (hafter : After built t) (hlaunch : t.launch msg = .ok t₁)
      (hschedule : Schedule t₁ picks t₂ log) (hidle : Idle t₂) : After built t₂

theorem Schedule.append {t t₁ t₂ : SpanningTree (List Message)} {picks picks' : List ℕ}
    {log log' : List Event} (h : Schedule t picks t₁ log) (h' : Schedule t₁ picks' t₂ log') :
    Schedule t (picks ++ picks') t₂ (log ++ log') := by
  induction h with
  | idle t => exact h'
  | pick hnode hinbox hrun _ ih =>
    rw [List.cons_append, List.append_assoc]
    exact .pick hnode hinbox hrun (ih h')

/-- What a run on `t` with the message `msg` must have shown at its end. -/
structure Converged (t : SpanningTree (List Message)) (r : ℕ) (msg : String) (log : List Event) :
    Prop where
  received : ∃ order : List ℕ, order.Nodup ∧ (∀ v, v ∈ order ↔ (t.getNode v).isSome) ∧
    log.filterMap Event.received? = order.map fun v ↦ (v, msg)
  answered : ∀ v node, t.getNode v = some node → log.filterMap (Event.backFrom? v) =
    node.parent.toList.map fun p ↦ (p, subtreeSum t v)
  result : log.filterMap Event.result? = [(r, treeSum t)]
  last : log.getLast? = some (.result r (treeSum t))

/-! ### The events of a wave -/

section Events

variable {T : Arborescence ℕ} {msg : String} {w : Wave ℕ} {log : List Event}

variable (T msg) in
/-- The events so far: a line for each node woken and a report for each node that has reported, the
root being the last. -/
structure Logged (w : Wave ℕ) (log : List Event) : Prop where
  received : log.filterMap Event.received? = w.woken.map fun v ↦ (v, msg)
  reports : log.filter (fun e ↦ e.received?.isNone) = w.sent.map (reportEvent T)
  last : T.root ∈ w.sent → log.getLast? = some (.result T.root (weight T T.root))

theorem reportEvent_root : reportEvent T T.root = .result T.root (weight T T.root) := by
  unfold reportEvent
  rw [(T.parent_eq_none _ T.root_mem).mpr rfl]

theorem received?_reportEvent (v : ℕ) : (reportEvent T v).received? = none := by
  unfold reportEvent
  cases T.parent v <;> rfl

theorem logged_begin : Logged T msg (Wave.begin T) [] :=
  ⟨rfl, rfl, fun hroot ↦ absurd hroot List.not_mem_nil⟩

theorem Logged.report (h : Logged T msg w log) (hroot : T.root ∉ w.sent) (v : ℕ) :
    Logged T msg (w.report T v) (log ++ [reportEvent T v]) := by
  refine ⟨?_, ?_, fun hmem ↦ ?_⟩
  · simp [h.received, Wave.report, received?_reportEvent]
  · simp [h.reports, Wave.report, received?_reportEvent]
  · have hv : T.root = v := List.mem_singleton.mp ((List.mem_append.mp hmem).resolve_left hroot)
    rw [List.getLast?_concat, ← hv, reportEvent_root]

theorem Logged.wake (h : Logged T msg w log) (hroot : T.root ∉ w.sent) (v : ℕ)
    (rest : List (Option ℕ)) : Logged T msg (w.wake T v rest) (log ++ [.received v msg]) := by
  refine ⟨?_, ?_, fun hmem ↦ absurd hmem hroot⟩
  · simp [h.received, Wave.wake, Event.received?]
  · rw [List.filter_append, h.reports]
    exact List.append_nil _

/-- Handling a message shows what it must. -/
theorem Logged.handle (h : Logged T msg w log) (hw : Wave.Sound T w) {v : ℕ}
    (hq : w.queue v ≠ []) : Logged T msg (w.handle T v) (log ++ emitted T msg w v) := by
  have hroot : T.root ∉ w.sent := fun hsent ↦ hq (hw.quiet_of_root_sent hsent v)
  unfold Wave.handle emitted
  rcases hcons : w.queue v with _ | ⟨_ | c, rest⟩
  · exact absurd hcons hq
  · by_cases hleaf : T.children v = []
    · simp only [if_pos hleaf]
      rw [List.append_cons]
      exact (h.wake hroot v rest).report hroot v
    · simp only [if_neg hleaf]
      exact h.wake hroot v rest
  · have hhear : Logged T msg (w.hear v c rest) log := ⟨h.received, h.reports, h.last⟩
    by_cases hfull : Wave.complete T (w.hear v c rest) v
    · simp only [if_pos hfull]
      exact hhear.report hroot v
    · simp only [if_neg hfull, List.append_nil]
      exact hhear

/-- Reading off the reports. -/
theorem Logged.filterMap_eq (h : Logged T msg w log) {β : Type} {f : Event → Option β}
    (hf : ∀ v m, f (.received v m) = none) :
    log.filterMap f = w.sent.filterMap fun v ↦ f (reportEvent T v) := by
  have hskip : log.filterMap f = (log.filter fun e ↦ e.received?.isNone).filterMap f := by
    rw [List.filterMap_filter]
    refine List.filterMap_congr fun e _ ↦ ?_
    cases e with
    | received v m => simp [Event.received?, hf]
    | back c p value => simp [Event.received?]
    | result v total => simp [Event.received?]
  rw [hskip, h.reports, List.filterMap_map]
  rfl

/-- Looking for one element of a list without repetition. -/
theorem filterMap_ite_eq {α β : Type} [DecidableEq α] {l : List α} (hl : l.Nodup) {a : α}
    (ha : a ∈ l) (x : Option β) : (l.filterMap fun b ↦ if b = a then x else none) = x.toList := by
  have hflat := flatMap_ite_of_unique (P := (· = a)) hl
    (fun b _ c _ hb hc ↦ hb.trans hc.symm) x.toList
  rw [if_pos ⟨a, ha, rfl⟩] at hflat
  rw [← hflat, List.filterMap_eq_flatMap_toList]
  refine List.flatMap_congr fun b _ ↦ ?_
  by_cases hb : b = a <;> simp [hb]

/-- The events of a finished wave. -/
theorem Logged.converged (h : Logged T msg w log) (hw : Wave.Sound T w) (hquiet : Wave.Quiet w)
    {t : SpanningTree (List Message)} (ht : Standing t T) : Converged t T.root msg log := by
  have hsent : ∀ v ∈ T.verts, v ∈ w.sent := fun v hv ↦ hw.sent_of_quiet hquiet hv
  have hwoken : ∀ v ∈ w.sent, v ∈ w.woken := fun v hv ↦ ((hw.sent_iff v).mp hv).1
  have hmem : ∀ v ∈ w.sent, v ∈ T.verts := fun v hv ↦ hw.woken_mem v (hwoken v hv)
  refine ⟨⟨w.woken, hw.woken_nodup, fun v ↦ ?_, h.received⟩, fun v node hv ↦ ?_, ?_, ?_⟩
  · exact ⟨fun hv ↦ (ht.shaped.isSome v).mpr (hw.woken_mem v hv),
      fun hv ↦ hwoken v (hsent v ((ht.shaped.isSome v).mp hv))⟩
  · obtain ⟨hvmem, -, -, hparent, -⟩ := ht.shaped.fields hv
    have hread : ∀ u, Event.backFrom? v (reportEvent T u) =
        if u = v then (T.parent v).map fun p ↦ (p, weight T v) else none := fun u ↦ by
      unfold reportEvent
      by_cases huv : u = v
      · subst huv
        cases T.parent u <;> simp [Event.backFrom?]
      · cases T.parent u <;> simp [Event.backFrom?, huv]
    rw [h.filterMap_eq fun _ _ ↦ rfl, List.filterMap_congr fun u _ ↦ hread u,
      filterMap_ite_eq hw.sent_nodup (hsent v hvmem), hparent, ht.subtreeSum_eq]
    cases T.parent v <;> rfl
  · have hread : ∀ u ∈ w.sent, Event.result? (reportEvent T u) =
        if u = T.root then some (T.root, weight T T.root) else none := fun u hu ↦ by
      by_cases hur : u = T.root
      · rw [if_pos hur, hur, reportEvent_root]
        rfl
      · obtain ⟨p, hp⟩ := T.exists_parent (hmem u hu) hur
        rw [if_neg hur, reportEvent, hp]
        rfl
    rw [h.filterMap_eq fun _ _ ↦ rfl, List.filterMap_congr hread,
      filterMap_ite_eq hw.sent_nodup (hsent _ T.root_mem), ht.treeSum_eq]
    rfl
  · rw [h.last (hsent _ T.root_mem), ht.treeSum_eq]

end Events

/-! ### Runs -/

section Runs

variable {T : Arborescence ℕ} {msg : String} {t : SpanningTree (List Message)} {w : Wave ℕ}
  {log : List Event}

variable (T msg) in
/-- The object and its events are those of the wave `w`. -/
structure Tracks (t : SpanningTree (List Message)) (w : Wave ℕ) (log : List Event) : Prop where
  root_eq : t.root = some T.root
  carries : Carries T msg t.nodes w.queue w.heard
  sound : Wave.Sound T w
  logged : Logged T msg w log

theorem Tracks.standing (h : Tracks T msg t w log) : Standing t T := ⟨h.root_eq, h.carries.shaped⟩

theorem Tracks.inbox_iff (h : Tracks T msg t w log) {v : ℕ} {node : Node (List Message)}
    (hnode : t.getNode v = some node) : node.inbox = [] ↔ w.queue v = [] := by
  rw [h.carries.inbox v node hnode, List.map_eq_nil_iff]

theorem Tracks.idle_iff (h : Tracks T msg t w log) : Idle t ↔ Wave.Quiet w := by
  constructor
  · intro hidle v
    by_cases hv : v ∈ T.verts
    · obtain ⟨node, hnode⟩ := h.carries.shaped.exists_node hv
      exact (h.inbox_iff hnode).mp (hidle v node hnode)
    · exact h.sound.queue_of_not_mem hv
  · intro hquiet v node hnode
    exact (h.inbox_iff hnode).mpr (hquiet v)

/-- One pick. -/
theorem Tracks.step (h : Tracks T msg t w log) {v : ℕ} {node : Node (List Message)}
    (hnode : t.getNode v = some node) (hinbox : node.inbox ≠ []) :
    ∃ t', t.processMessage v = .ok (t', emitted T msg w v) ∧
      Tracks T msg t' (w.handle T v) (log ++ emitted T msg w v) ∧
      Wave.handled T (w.handle T v) = Wave.handled T w + 1 := by
  have hq : w.queue v ≠ [] := (h.inbox_iff hnode).not.mp hinbox
  obtain ⟨t', hrun, hroot, hcarries⟩ := processMessage_spec h.root_eq h.carries h.sound hq
  exact ⟨t', hrun, ⟨hroot, hcarries, h.sound.handle v, h.logged.handle h.sound hq⟩,
    h.sound.handled_handle hq⟩

/-- A schedule handles as many messages as it has picks. -/
theorem Tracks.schedule (h : Tracks T msg t w log) {picks : List ℕ}
    {t' : SpanningTree (List Message)} {events : List Event} (hrun : Schedule t picks t' events) :
    ∃ w', Tracks T msg t' w' (log ++ events) ∧
      Wave.handled T w' = Wave.handled T w + picks.length := by
  induction hrun generalizing w log with
  | idle t => exact ⟨w, by rwa [List.append_nil], rfl⟩
  | pick hnode hinbox hstep _ ih =>
    obtain ⟨t₁, hstep', h₁, hcount₁⟩ := h.step hnode hinbox
    obtain ⟨rfl, rfl⟩ := Prod.mk.inj (Except.ok.inj (hstep'.symm.trans hstep))
    obtain ⟨w', h', hcount⟩ := ih h₁
    refine ⟨w', by rwa [← List.append_assoc], ?_⟩
    rw [hcount, hcount₁, List.length_cons]
    omega

/-- The reset and the first call. -/
theorem Standing.launch (ht : Standing t T) (hidle : Idle t) (msg : String) :
    ∃ t', t.launch msg = .ok t' ∧ Tracks T msg t' (Wave.begin T) [] := by
  have hreset : Carries T msg { t.nodes with find := fun v ↦ (t.nodes.find v).map Node.resetState }
      (fun _ ↦ []) (fun _ ↦ []) := by
    refine ⟨ht.shaped.congr rfl fun v ↦ ?_, fun v node hv ↦ ?_, fun v node hv ↦ ?_,
      fun v node hv ↦ ?_⟩
    · rw [Option.map_map]
      rfl
    · obtain ⟨old, hold, rfl⟩ := Option.map_eq_some_iff.mp hv
      exact hidle v old hold
    · obtain ⟨old, -, rfl⟩ := Option.map_eq_some_iff.mp hv
      rfl
    · obtain ⟨old, hold, rfl⟩ := Option.map_eq_some_iff.mp hv
      simp [Node.resetState, (ht.shaped.fields hold).2.2.2.2]
  obtain ⟨nodes', hrun, hcarries⟩ := hreset.enqueue T.root_mem none
  rw [message] at hrun
  refine ⟨{ t with nodes := nodes' }, ?_, ht.root_eq, hcarries, Wave.sound_begin, logged_begin⟩
  unfold SpanningTree.launch
  simp only [ht.root_eq, hrun, bind, Except.bind]

/-- The tree stands and is idle between the calls of `startAsync`. -/
theorem After.standing {built : SpanningTree (List Message)} (hbuilt : Standing built T)
    (hidle : Idle built) (h : After built t) : Standing t T ∧ Idle t := by
  induction h with
  | build => exact ⟨hbuilt, hidle⟩
  | @startAsync _ _ _ msg _ _ _ hlaunch hschedule hidle' ih =>
    obtain ⟨t₁, hlaunch', htracks⟩ := ih.1.launch ih.2 msg
    obtain rfl := Except.ok.inj (hlaunch'.symm.trans hlaunch)
    obtain ⟨w', h', -⟩ := htracks.schedule hschedule
    exact ⟨h'.standing, hidle'⟩

/-! ### The scheduler -/

/-- A pass over some nodes is a schedule; without progress their inboxes were empty. -/
theorem Tracks.pass (h : Tracks T msg t w log) {order : List ℕ}
    (horder : ∀ v ∈ order, v ∈ T.verts) :
    ∃ t' events progress picks, t.pass order = .ok (t', events, progress) ∧
      Schedule t picks t' events ∧ (progress = true → picks ≠ []) ∧
      (progress = false → t' = t ∧ events = [] ∧ picks = [] ∧
        ∀ v ∈ order, ∀ node, t.getNode v = some node → node.inbox = []) := by
  induction order generalizing t w log with
  | nil => exact ⟨t, [], false, [], rfl, .idle t, by simp, by simp⟩
  | cons v order ih =>
    obtain ⟨hv, horder⟩ := List.forall_mem_cons.mp horder
    obtain ⟨node, hnode⟩ := h.carries.shaped.exists_node hv
    unfold SpanningTree.pass
    simp only [NodeMap.deref, hnode, bind, Except.bind]
    by_cases hinbox : node.inbox = []
    · obtain ⟨t', events, progress, picks, hrun, hschedule, hyes, hno⟩ := ih h horder
      refine ⟨t', events, progress, picks, ?_, hschedule, hyes, fun hfalse ↦ ?_⟩
      · rw [hinbox, List.isEmpty_nil, if_pos rfl, hrun]
      · obtain ⟨ht', hevents, hpicks, hempty⟩ := hno hfalse
        refine ⟨ht', hevents, hpicks, List.forall_mem_cons.mpr ⟨fun other hother ↦ ?_, hempty⟩⟩
        rwa [← Option.some.inj (hnode.symm.trans hother)]
    · obtain ⟨t₁, hstep, h₁, -⟩ := h.step hnode hinbox
      obtain ⟨t', events, progress, picks, hrun, hschedule, -⟩ := ih h₁ horder
      refine ⟨t', _, true, v :: picks, ?_, .pick hnode hinbox hstep hschedule, by simp, by simp⟩
      rw [if_neg (by simpa using hinbox)]
      simp only [hstep, hrun]

/-- `runScheduler` returns when all messages are handled. -/
theorem Tracks.runScheduler (h : Tracks T msg t w log) (order : List ℕ)
    (horder : ∀ v, v ∈ order ↔ v ∈ T.verts) (fuel : ℕ)
    (hfuel : 2 * T.verts.card ≤ fuel + Wave.handled T w) :
    ∃ t' events picks, t.runScheduler order fuel = .ok (t', events) ∧
      Schedule t picks t' events ∧ Idle t' := by
  induction fuel generalizing t w log with
  | zero =>
    have hle := h.sound.handled_le
    omega
  | succ fuel ih =>
    obtain ⟨t₁, events, progress, picks, hpass, hschedule, hyes, hno⟩ :=
      h.pass fun v hv ↦ (horder v).mp hv
    unfold SpanningTree.runScheduler
    simp only [hpass, bind, Except.bind]
    cases progress with
    | true =>
      obtain ⟨w₁, h₁, hcount⟩ := h.schedule hschedule
      have hpos : 0 < picks.length := List.length_pos_iff.mpr (hyes rfl)
      obtain ⟨t', more, picks', hrun, hschedule', hidle⟩ := ih h₁ (by omega)
      exact ⟨t', events ++ more, picks ++ picks', by simp only [if_pos, hrun],
        hschedule.append hschedule', hidle⟩
    | false =>
      obtain ⟨rfl, -, -, hempty⟩ := hno rfl
      refine ⟨t₁, events, picks, by simp, hschedule, fun v node hnode ↦ ?_⟩
      have hv : v ∈ T.verts := (h.carries.shaped.isSome v).mp (by
        rw [SpanningTree.getNode] at hnode
        simp [hnode])
      exact hempty v ((horder v).mpr hv) node hnode

/-- `startAsync` handles the messages under one of the schedules. -/
theorem Standing.startAsync (ht : Standing t T) (hidle : Idle t) {t₁ : SpanningTree (List Message)}
    (hlaunch : t.launch msg = .ok t₁) {order : List ℕ} (horder : order.Perm t.nodes.ids) :
    ∃ picks t₂ log, t.startAsync order msg = .ok (t₂, log) ∧ Schedule t₁ picks t₂ log ∧
      Idle t₂ := by
  obtain ⟨t₁', hlaunch', h₁⟩ := ht.launch hidle msg
  obtain rfl := Except.ok.inj (hlaunch'.symm.trans hlaunch)
  have hlength : t₁'.nodes.ids.length = T.verts.card := h₁.carries.shaped.length_ids
  obtain ⟨t₂, log, picks, hrun, hschedule, hdone⟩ := h₁.runScheduler order
    (fun v ↦ horder.mem_iff.trans (ht.shaped.mem_ids v)) (2 * t₁'.nodes.ids.length) (by omega)
  refine ⟨picks, t₂, log, ?_, hschedule, hdone⟩
  unfold SpanningTree.startAsync
  simp only [hlaunch, bind, Except.bind, hrun]

end Runs

/-- The asynchronous convergecast is correct under every schedule. Assumes: the calls of `addEdge`
on a new graph of `n` vertices were all accepted, and the root is a vertex. Then `build` returns,
and so does every later `startAsync`, after any number of earlier ones and for every order of the
hash map. Whatever schedule the messages are handled under, every node whose inbox is not empty can
handle a message, the inboxes are all empty exactly after twice the number of nodes less one picks,
no schedule goes on longer, and the events are then those of a convergecast. -/
theorem async_convergecast (n : ℕ) (edges : List (ℤ × ℤ)) (g : Graph)
    (hg : (Graph.new n).addEdges edges = .ok g) (rootId : ℤ) (hpos : 0 ≤ rootId)
    (hlt : rootId < n) (old : SpanningTree (List Message)) :
    ∃ built r, SpanningTree.build [] old g rootId = .ok built ∧ rootId = (r : ℕ) ∧
      ∀ t, After built t → ∀ msg, ∃ t₁, t.launch msg = .ok t₁ ∧
        (∀ picks t₂ log, Schedule t₁ picks t₂ log →
          (∀ v node, t₂.getNode v = some node → node.inbox ≠ [] →
            ∃ t₃ events, t₂.processMessage v = .ok (t₃, events)) ∧
          picks.length + 1 ≤ 2 * t.nodes.ids.length ∧
          (Idle t₂ ↔ picks.length + 1 = 2 * t.nodes.ids.length) ∧
          (Idle t₂ → Converged t r msg log)) ∧
        ∀ order, order.Perm t.nodes.ids → ∃ picks t₂ log,
          t.startAsync order msg = .ok (t₂, log) ∧ Schedule t₁ picks t₂ log ∧ Idle t₂ := by
  obtain ⟨r, rfl⟩ := Int.eq_ofNat_of_zero_le hpos
  obtain ⟨built, T, hrun, hT, hroot, -, -, hinbox⟩ :=
    build_spec (builtFrom_addEdges hg) (by omega : r < n) ([] : List Message) old
  refine ⟨built, r, hrun, rfl, fun t hafter msg ↦ ?_⟩
  obtain ⟨ht, hidle⟩ := hafter.standing hT hinbox
  obtain ⟨t₁, hlaunch, h₁⟩ := ht.launch hidle msg
  have hbegin : Wave.handled T (Wave.begin T) = 0 := by
    simp [Wave.handled, Wave.begin]
  refine ⟨t₁, hlaunch, fun picks t₂ log hschedule ↦ ?_, fun order ↦ ht.startAsync hidle hlaunch⟩
  obtain ⟨w, h₂, hcount⟩ := h₁.schedule hschedule
  rw [hbegin, Nat.zero_add] at hcount
  rw [ht.shaped.length_ids, ← hcount]
  refine ⟨fun v node hnode hne ↦ ?_, h₂.sound.handled_le, ?_, fun hdone ↦ ?_⟩
  · obtain ⟨t₃, hstep, -⟩ := h₂.step hnode hne
    exact ⟨t₃, _, hstep⟩
  · rw [h₂.idle_iff, h₂.sound.quiet_iff]
  · rw [← hroot]
    exact h₂.logged.converged h₂.sound (h₂.idle_iff.mp hdone) ht

/-- A path with a second edge and a self-loop on it. -/
theorem async_convergecast_example :
    ∃ built r, SpanningTree.build [] .unbuilt
        { numVertices := 4, adj := [[1, 1], [0, 1, 1, 2, 0], [1], []] } 0 = .ok built ∧
      (0 : ℤ) = (r : ℕ) ∧ ∀ t, After built t → ∀ msg, ∃ t₁, t.launch msg = .ok t₁ ∧
        ∀ picks t₂ log, Schedule t₁ picks t₂ log →
          picks.length + 1 ≤ 2 * t.nodes.ids.length ∧ (Idle t₂ → Converged t r msg log) := by
  obtain ⟨built, r, hrun, hr, hall⟩ := async_convergecast 4 [(0, 1), (1, 1), (1, 2), (1, 0)]
    { numVertices := 4, adj := [[1, 1], [0, 1, 1, 2, 0], [1], []] } rfl 0 (by decide) (by decide)
    .unbuilt
  refine ⟨built, r, hrun, hr, fun t hafter msg ↦ ?_⟩
  obtain ⟨t₁, hlaunch, hevery, -⟩ := hall t hafter msg
  refine ⟨t₁, hlaunch, fun picks t₂ log hschedule ↦ ?_⟩
  obtain ⟨-, hle, -, hconverged⟩ := hevery picks t₂ log hschedule
  exact ⟨hle, hconverged⟩

end WsServer.Convergecast
