import WsServer.Foundations.Arborescence

/-!
# The echo protocol on a rooted tree

A wave goes down an arborescence and the answers come back up. The root is woken first; a vertex
that is woken wakes its children, and a vertex that has heard all its children reports to its
parent, a leaf as soon as it is woken. Messages wait in a queue for each vertex, and any vertex with
a waiting message may act next.

The state carries no values: it says who was woken, who has reported, whom each vertex has heard and
what waits where. `Sound` ties these together in every reachable state, `handled` counts the
messages, and the two meet in `quiet_iff`: all queues are empty exactly after the number of messages
that every schedule takes.
-/

set_option autoImplicit false
set_option relaxedAutoImplicit false

namespace WsServer.Foundations

/-- A wave in progress. A waiting message is a wake-up call, `none`, or the report of a child. -/
structure Wave (V : Type) where
  woken : List V
  sent : List V
  heard : V → List V
  queue : V → List (Option V)

namespace Wave

variable {V : Type} [DecidableEq V] (T : Arborescence V)

/-- Only the root is called. -/
def begin : Wave V where
  woken := []
  sent := []
  heard := fun _ ↦ []
  queue := fun v ↦ if v = T.root then [none] else []

/-- `v` reports to its parent. -/
def report (w : Wave V) (v : V) : Wave V where
  woken := w.woken
  sent := w.sent ++ [v]
  heard := w.heard
  queue := fun u ↦ if T.parent v = some u then w.queue u ++ [some v] else w.queue u

/-- `v` takes a wake-up call from its queue. -/
def wake (w : Wave V) (v : V) (rest : List (Option V)) : Wave V where
  woken := w.woken ++ [v]
  sent := w.sent
  heard := w.heard
  queue := fun u ↦ if u = v then rest else if T.parent u = some v then w.queue u ++ [none]
    else w.queue u

/-- `v` takes the report of `c` from its queue. -/
def hear (w : Wave V) (v c : V) (rest : List (Option V)) : Wave V where
  woken := w.woken
  sent := w.sent
  heard := fun u ↦ if u = v then w.heard v ++ [c] else w.heard u
  queue := fun u ↦ if u = v then rest else w.queue u

/-- `v` has heard as many children as it has. -/
def complete (w : Wave V) (v : V) : Prop := (w.heard v).length = (T.children v).length

instance (w : Wave V) (v : V) : Decidable (complete T w v) :=
  inferInstanceAs (Decidable (_ = _))

/-- `v` handles the first message of its queue. -/
def handle (w : Wave V) (v : V) : Wave V :=
  match w.queue v with
  | [] => w
  | none :: rest => if T.children v = [] then (w.wake T v rest).report T v else w.wake T v rest
  | some c :: rest =>
    if complete T (w.hear v c rest) v then (w.hear v c rest).report T v else w.hear v c rest

/-! ### The invariant -/

/-- The invariant of a wave in which the report of `due`, if any, is still to be made. -/
structure SoundUpTo (w : Wave V) (due : Option V) : Prop where
  woken_nodup : w.woken.Nodup
  sent_nodup : w.sent.Nodup
  heard_nodup : ∀ v, (w.heard v).Nodup
  queue_nodup : ∀ v, (w.queue v).Nodup
  woken_mem : ∀ v ∈ w.woken, v ∈ T.verts
  woken_parent : ∀ v p, v ∈ w.woken → T.parent v = some p → p ∈ w.woken
  heard_mem : ∀ v c, c ∈ w.heard v → T.parent c = some v ∧ c ∈ w.sent
  sent_iff : ∀ v, v ∈ w.sent ↔ v ∈ w.woken ∧ (∀ c ∈ T.children v, c ∈ w.heard v) ∧ due ≠ some v
  call_iff : ∀ v, none ∈ w.queue v ↔
    v ∈ T.verts ∧ v ∉ w.woken ∧ ∀ p, T.parent v = some p → p ∈ w.woken
  report_iff : ∀ v c, some c ∈ w.queue v ↔ T.parent c = some v ∧ c ∈ w.sent ∧ c ∉ w.heard v
  due_iff : ∀ v, due = some v → v ∈ w.woken ∧ ∀ c ∈ T.children v, c ∈ w.heard v

/-- The invariant between two messages. -/
abbrev Sound (w : Wave V) : Prop := SoundUpTo T w none

section Sound

variable {T} {w : Wave V} {v c : V} {rest : List (Option V)}

theorem nodup_append_singleton {α : Type} {l : List α} {a : α} (hl : l.Nodup) (ha : a ∉ l) :
    (l ++ [a]).Nodup := by
  rw [← List.concat_eq_append]
  exact hl.concat ha

theorem sound_begin : Sound T (begin T) := by
  refine ⟨List.nodup_nil, List.nodup_nil, fun _ ↦ List.nodup_nil, fun v ↦ ?_, by simp [begin],
    by simp [begin], by simp [begin], by simp [begin], fun v ↦ ?_, fun v c ↦ ?_, by simp⟩
  · by_cases hv : v = T.root <;> simp [begin, hv]
  · by_cases hv : v = T.root
    · subst hv
      simp [begin, T.root_mem, (T.parent_eq_none _ T.root_mem).mpr rfl]
    · simp only [begin, hv, if_false, List.not_mem_nil, false_iff, not_and, not_forall]
      intro hmem _
      obtain ⟨p, hp⟩ := T.exists_parent hmem hv
      exact ⟨p, hp, by simp⟩
  · by_cases hv : v = T.root <;> simp [begin, hv]

/-- The report that was due is made. -/
theorem SoundUpTo.report (hw : SoundUpTo T w (some v)) : Sound T (w.report T v) := by
  have hnot : v ∉ w.sent := fun hin ↦ ((hw.sent_iff v).mp hin).2.2 rfl
  obtain ⟨hwoken, hheard⟩ := hw.due_iff v rfl
  refine { hw with
    sent_nodup := ?sent_nodup
    queue_nodup := fun u ↦ ?queue_nodup
    heard_mem := fun u c hc ↦ ?heard_mem
    sent_iff := fun u ↦ ?sent_iff
    call_iff := fun u ↦ ?call_iff
    report_iff := fun u c ↦ ?report_iff
    due_iff := by simp }
  case sent_nodup =>
    exact nodup_append_singleton hw.sent_nodup hnot
  case queue_nodup =>
    simp only [Wave.report]
    split_ifs with hp
    · exact nodup_append_singleton (hw.queue_nodup u) fun hin ↦
        hnot ((hw.report_iff u v).mp hin).2.1
    · exact hw.queue_nodup u
  case heard_mem =>
    exact ⟨(hw.heard_mem u c hc).1, List.mem_append_left _ (hw.heard_mem u c hc).2⟩
  case sent_iff =>
    simp only [Wave.report, List.mem_append, List.mem_singleton, hw.sent_iff u]
    by_cases huv : u = v
    · subst huv
      simpa [hwoken] using hheard
    · simp [huv, Ne.symm huv]
  case call_iff =>
    have hsplit : none ∈ (w.report T v).queue u ↔ none ∈ w.queue u := by
      simp only [Wave.report]
      split_ifs <;> simp
    rw [hsplit]
    exact hw.call_iff u
  case report_iff =>
    have hsplit : some c ∈ (w.report T v).queue u ↔
        some c ∈ w.queue u ∨ (c = v ∧ T.parent v = some u) := by
      simp only [Wave.report]
      split_ifs with hp <;> simp [hp]
    rw [hsplit, hw.report_iff u c]
    simp only [Wave.report, List.mem_append, List.mem_singleton]
    constructor
    · rintro (⟨hp, hsent, hheard⟩ | ⟨rfl, hp⟩)
      · exact ⟨hp, Or.inl hsent, hheard⟩
      · exact ⟨hp, Or.inr rfl, fun hin ↦ hnot (hw.heard_mem u c hin).2⟩
    · rintro ⟨hp, hsent | rfl, hheard⟩
      · exact Or.inl ⟨hp, hsent, hheard⟩
      · exact Or.inr ⟨rfl, hp⟩

omit [DecidableEq V] in
/-- A vertex that is called was not woken before, and hears nobody yet. -/
theorem SoundUpTo.called (hw : Sound T w) (hq : w.queue v = none :: rest) :
    v ∈ T.verts ∧ v ∉ w.woken ∧ (∀ p, T.parent v = some p → p ∈ w.woken) ∧ v ∉ w.sent ∧
      w.heard v = [] ∧ none ∉ rest := by
  have hcall : none ∈ w.queue v := by simp [hq]
  obtain ⟨hmem, hnot, hparent⟩ := (hw.call_iff v).mp hcall
  have hnodup := hw.queue_nodup v
  rw [hq, List.nodup_cons] at hnodup
  refine ⟨hmem, hnot, hparent, fun hin ↦ hnot ((hw.sent_iff v).mp hin).1, ?_, hnodup.1⟩
  refine List.eq_nil_iff_forall_not_mem.mpr fun c hc ↦ hnot ?_
  obtain ⟨hp, hsent⟩ := hw.heard_mem v c hc
  exact hw.woken_parent c v ((hw.sent_iff c).mp hsent).1 hp

/-- Waking a vertex calls its children; a leaf has to report at once. -/
theorem SoundUpTo.wake (hw : Sound T w) (hq : w.queue v = none :: rest) :
    SoundUpTo T (w.wake T v rest) (if T.children v = [] then some v else none) := by
  obtain ⟨hmem, hnot, hparent, hsent, hheard, hrest⟩ := hw.called hq
  have hself : T.parent v ≠ some v := fun hp ↦ lt_irrefl _ (T.parent_mem v v hp).2.2
  have hnone : ∀ u, none ∈ (w.wake T v rest).queue u ↔
      (u ≠ v ∧ none ∈ w.queue u) ∨ T.parent u = some v := fun u ↦ by
    simp only [Wave.wake]
    by_cases huv : u = v
    · subst huv
      simp [hrest, hself]
    · by_cases hp : T.parent u = some v <;> simp [huv, hp]
  have hsome : ∀ u c, some c ∈ (w.wake T v rest).queue u ↔ some c ∈ w.queue u := fun u c ↦ by
    simp only [Wave.wake]
    by_cases huv : u = v
    · subst huv
      simp [hq]
    · by_cases hp : T.parent u = some v <;> simp [huv, hp]
  have hdue : ∀ u, (if T.children v = [] then some v else none) = some u ↔
      u = v ∧ T.children v = [] := fun u ↦ by
    by_cases hleaf : T.children v = [] <;> simp [hleaf, eq_comm]
  refine { hw with
    woken_nodup := ?woken_nodup
    queue_nodup := fun u ↦ ?queue_nodup
    woken_mem := fun u hu ↦ ?woken_mem
    woken_parent := fun u p hu hp ↦ ?woken_parent
    sent_iff := fun u ↦ ?sent_iff
    call_iff := fun u ↦ ?call_iff
    report_iff := fun u c ↦ ?report_iff
    due_iff := fun u hu ↦ ?due_iff }
  case woken_nodup =>
    exact nodup_append_singleton hw.woken_nodup hnot
  case queue_nodup =>
    simp only [Wave.wake]
    split_ifs with huv hp
    · have hnodup := hw.queue_nodup v
      rw [hq] at hnodup
      exact (List.nodup_cons.mp hnodup).2
    · exact nodup_append_singleton (hw.queue_nodup u) fun hin ↦
        hnot (((hw.call_iff u).mp hin).2.2 v hp)
    · exact hw.queue_nodup u
  case woken_mem =>
    rcases List.mem_append.mp hu with hu | hu
    · exact hw.woken_mem u hu
    · rwa [List.mem_singleton.mp hu]
  case woken_parent =>
    rcases List.mem_append.mp hu with hu | hu
    · exact List.mem_append_left _ (hw.woken_parent u p hu hp)
    · rw [List.mem_singleton.mp hu] at hp
      exact List.mem_append_left _ (hparent p hp)
  case sent_iff =>
    rw [Ne, hdue u]
    show u ∈ w.sent ↔ _
    rw [hw.sent_iff u]
    simp only [Wave.wake, List.mem_append, List.mem_singleton]
    by_cases huv : u = v
    · subst huv
      simp only [hnot, hheard, List.not_mem_nil, imp_false, false_and, false_or, true_and,
        false_iff, not_and, not_not]
      exact fun hall ↦ List.eq_nil_iff_forall_not_mem.mpr hall
    · simp [huv]
  case call_iff =>
    rw [hnone u, hw.call_iff u]
    simp only [Wave.wake, List.mem_append, List.mem_singleton, not_or]
    constructor
    · rintro (⟨huv, hu, hwoken, hall⟩ | hp)
      · exact ⟨hu, ⟨hwoken, huv⟩, fun p hp ↦ Or.inl (hall p hp)⟩
      · have huv : u ≠ v := fun heq ↦ hself (heq ▸ hp)
        refine ⟨(T.parent_mem u v hp).1, ⟨fun hin ↦ hnot (hw.woken_parent u v hin hp), huv⟩,
          fun p hp' ↦ Or.inr (Option.some.inj (hp'.symm.trans hp))⟩
    · rintro ⟨hu, ⟨hwoken, huv⟩, hall⟩
      by_cases hp : T.parent u = some v
      · exact Or.inr hp
      · refine Or.inl ⟨huv, hu, hwoken, fun p hp' ↦ (hall p hp').resolve_right fun heq ↦ hp ?_⟩
        rw [hp', heq]
  case report_iff =>
    rw [hsome u c]
    exact hw.report_iff u c
  case due_iff =>
    obtain ⟨rfl, hleaf⟩ := (hdue u).mp hu
    exact ⟨List.mem_append_right _ (List.mem_singleton_self u), by simp [hleaf]⟩

omit [DecidableEq V] in
/-- A report that waits comes from a child not heard before. -/
theorem SoundUpTo.reported (hw : Sound T w) (hq : w.queue v = some c :: rest) :
    T.parent c = some v ∧ c ∈ w.sent ∧ c ∉ w.heard v ∧ some c ∉ rest := by
  obtain ⟨hp, hsent, hheard⟩ := (hw.report_iff v c).mp (by simp [hq])
  have hnodup := hw.queue_nodup v
  rw [hq, List.nodup_cons] at hnodup
  exact ⟨hp, hsent, hheard, hnodup.1⟩

omit [DecidableEq V] in
/-- Two lists without repetition, one inside the other and not shorter, have the same members. -/
theorem subset_of_length_le {l l' : List V} (hl : l.Nodup) (hsub : l ⊆ l')
    (hle : l'.length ≤ l.length) : l' ⊆ l :=
  ((hl.subperm hsub).perm_of_length_le hle).symm.subset

/-- A vertex that has heard its last child has to report. -/
theorem SoundUpTo.hear (hw : Sound T w) (hq : w.queue v = some c :: rest) :
    SoundUpTo T (w.hear v c rest) (if complete T (w.hear v c rest) v then some v else none) := by
  obtain ⟨hp, hsent, hnot, hrest⟩ := hw.reported hq
  have hchild : c ∈ T.children v := (T.mem_children v c).mpr hp
  have hsubset : w.heard v ++ [c] ⊆ T.children v := fun d hd ↦ by
    rcases List.mem_append.mp hd with hd | hd
    · exact (T.mem_children v d).mpr (hw.heard_mem v d hd).1
    · rwa [List.mem_singleton.mp hd]
  have hnodup : (w.heard v ++ [c]).Nodup :=
    nodup_append_singleton (hw.heard_nodup v) hnot
  have hcomplete : complete T (w.hear v c rest) v ↔ ∀ d ∈ T.children v, d ∈ w.heard v ++ [c] := by
    simp only [complete, Wave.hear, if_true]
    constructor
    · exact fun hlen ↦ subset_of_length_le hnodup hsubset hlen.ge
    · exact fun hall ↦ le_antisymm (hnodup.length_le_of_subset hsubset)
        ((T.children_nodup v).length_le_of_subset hall)
  have hdue : ∀ u, (if complete T (w.hear v c rest) v then some v else none) = some u ↔
      u = v ∧ ∀ d ∈ T.children v, d ∈ w.heard v ++ [c] := fun u ↦ by
    rw [← hcomplete]
    by_cases hfull : complete T (w.hear v c rest) v <;> simp [hfull, eq_comm]
  have hwoken : v ∈ w.woken := hw.woken_parent c v ((hw.sent_iff c).mp hsent).1 hp
  have hnone : ∀ u, none ∈ (w.hear v c rest).queue u ↔ none ∈ w.queue u := fun u ↦ by
    simp only [Wave.hear]
    by_cases huv : u = v
    · subst huv
      simp [hq]
    · simp [huv]
  refine { hw with
    heard_nodup := fun u ↦ ?heard_nodup
    queue_nodup := fun u ↦ ?queue_nodup
    heard_mem := fun u d hd ↦ ?heard_mem
    sent_iff := fun u ↦ ?sent_iff
    call_iff := fun u ↦ (hnone u).trans (hw.call_iff u)
    report_iff := fun u d ↦ ?report_iff
    due_iff := fun u hu ↦ ?due_iff }
  case heard_nodup =>
    simp only [Wave.hear]
    split_ifs
    · exact hnodup
    · exact hw.heard_nodup u
  case queue_nodup =>
    simp only [Wave.hear]
    split_ifs with huv
    · have hq' := hw.queue_nodup v
      rw [hq] at hq'
      exact (List.nodup_cons.mp hq').2
    · exact hw.queue_nodup u
  case heard_mem =>
    simp only [Wave.hear] at hd ⊢
    by_cases huv : u = v
    · subst huv
      rw [if_pos rfl] at hd
      rcases List.mem_append.mp hd with hd | hd
      · exact hw.heard_mem u d hd
      · rw [List.mem_singleton.mp hd]
        exact ⟨hp, hsent⟩
    · rw [if_neg huv] at hd
      exact hw.heard_mem u d hd
  case sent_iff =>
    rw [Ne, hdue u]
    show u ∈ w.sent ↔ _
    rw [hw.sent_iff u]
    simp only [Wave.hear]
    by_cases huv : u = v
    · subst huv
      rw [if_pos rfl]
      have hbefore : ¬∀ d ∈ T.children u, d ∈ w.heard u := fun hall ↦ hnot (hall c hchild)
      tauto
    · simp [huv]
  case report_iff =>
    simp only [Wave.hear]
    by_cases huv : u = v
    · subst huv
      rw [if_pos rfl, if_pos rfl, List.mem_append, List.mem_singleton, not_or]
      have hsplit : some d ∈ rest ↔ some d ∈ w.queue u ∧ d ≠ c := by
        rw [hq, List.mem_cons, Option.some_inj]
        constructor
        · exact fun hin ↦ ⟨Or.inr hin, fun heq ↦ hrest (heq ▸ hin)⟩
        · exact fun h ↦ h.1.resolve_left h.2
      rw [hsplit, hw.report_iff u d]
      tauto
    · rw [if_neg huv, if_neg huv]
      exact hw.report_iff u d
  case due_iff =>
    obtain ⟨rfl, hall⟩ := (hdue u).mp hu
    exact ⟨hwoken, by simpa [Wave.hear] using hall⟩

/-- Handling a message keeps the invariant. -/
theorem SoundUpTo.handle (hw : Sound T w) (v : V) : Sound T (w.handle T v) := by
  unfold Wave.handle
  split
  · exact hw
  · next rest hq =>
    have hwake := hw.wake hq
    split_ifs with hleaf
    · rw [if_pos hleaf] at hwake
      exact hwake.report
    · rwa [if_neg hleaf] at hwake
  · next c rest hq =>
    have hhear := hw.hear hq
    split_ifs with hfull
    · rw [if_pos hfull] at hhear
      exact hhear.report
    · rwa [if_neg hfull] at hhear

end Sound

/-! ### The end of the wave -/

/-- The number of messages handled so far. -/
def handled (w : Wave V) : ℕ := w.woken.length + ∑ v ∈ T.verts, (w.heard v).length

/-- No message waits. -/
def Quiet (w : Wave V) : Prop := ∀ v, w.queue v = []

section Quiet

variable {T} {w : Wave V} {v : V}

/-- Every handled message counts once. -/
theorem SoundUpTo.handled_handle (hw : Sound T w) (hq : w.queue v ≠ []) :
    handled T (w.handle T v) = handled T w + 1 := by
  have hreport : ∀ w : Wave V, handled T (w.report T v) = handled T w := fun _ ↦ rfl
  have hwake : ∀ rest, handled T (w.wake T v rest) = handled T w + 1 := fun rest ↦ by
    simp only [handled, Wave.wake, List.length_append, List.length_singleton]
    omega
  unfold Wave.handle
  split
  · next hnil => exact absurd hnil hq
  · split_ifs
    · rw [hreport, hwake]
    · exact hwake _
  · next c rest hcons =>
    have hhear : handled T (w.hear v c rest) = handled T w + 1 := by
      have hv : v ∈ T.verts := (T.parent_mem c v (hw.reported hcons).1).2.1
      have hlength : ∀ u, ((w.hear v c rest).heard u).length =
          (w.heard u).length + if u = v then 1 else 0 := fun u ↦ by
        simp only [Wave.hear]
        by_cases huv : u = v
        · subst huv
          simp
        · simp [huv]
      simp only [handled, hlength, Finset.sum_add_distrib, Finset.sum_ite_eq', if_pos hv]
      show w.woken.length + _ = _
      omega
    split_ifs
    · rw [hreport, hhear]
    · exact hhear

omit [DecidableEq V] in
theorem SoundUpTo.heard_subset {due : Option V} (hw : SoundUpTo T w due) (v : V) :
    w.heard v ⊆ T.children v :=
  fun c hc ↦ (T.mem_children v c).mpr (hw.heard_mem v c hc).1

omit [DecidableEq V] in
/-- A vertex that is complete has heard each child once. -/
theorem SoundUpTo.heard_perm {due : Option V} (hw : SoundUpTo T w due) (hfull : complete T w v) :
    (w.heard v).Perm (T.children v) :=
  ((hw.heard_nodup v).subperm (hw.heard_subset v)).perm_of_length_le hfull.ge

omit [DecidableEq V] in
theorem SoundUpTo.length_heard_le (hw : Sound T w) (v : V) :
    (w.heard v).length ≤ (T.children v).length :=
  (hw.heard_nodup v).length_le_of_subset (hw.heard_subset v)

omit [DecidableEq V] in
theorem SoundUpTo.length_woken_le (hw : Sound T w) : w.woken.length ≤ T.verts.card := by
  classical
  rw [← List.toFinset_card_of_nodup hw.woken_nodup]
  exact Finset.card_le_card fun v hv ↦ hw.woken_mem v (List.mem_toFinset.mp hv)

omit [DecidableEq V] in
/-- No schedule handles more messages than there are vertices and tree edges. -/
theorem SoundUpTo.handled_le (hw : Sound T w) : handled T w + 1 ≤ 2 * T.verts.card := by
  have hwoken := hw.length_woken_le
  have hheard : ∑ v ∈ T.verts, (w.heard v).length ≤ ∑ v ∈ T.verts, (T.children v).length :=
    Finset.sum_le_sum fun v _ ↦ hw.length_heard_le v
  have hchildren := T.sum_length_children
  unfold handled
  omega

omit [DecidableEq V] in
/-- When all messages are handled, every vertex was woken and has heard all its children. -/
theorem SoundUpTo.all_of_handled (hw : Sound T w) (hall : handled T w + 1 = 2 * T.verts.card)
    (hv : v ∈ T.verts) : v ∈ w.woken ∧ ∀ c ∈ T.children v, c ∈ w.heard v := by
  classical
  have hwoken := hw.length_woken_le
  have hheard : ∑ v ∈ T.verts, (w.heard v).length ≤ ∑ v ∈ T.verts, (T.children v).length :=
    Finset.sum_le_sum fun v _ ↦ hw.length_heard_le v
  have hchildren := T.sum_length_children
  unfold handled at hall
  constructor
  · have hset : w.woken.toFinset = T.verts := by
      refine Finset.eq_of_subset_of_card_le
        (fun u hu ↦ hw.woken_mem u (List.mem_toFinset.mp hu)) ?_
      rw [List.toFinset_card_of_nodup hw.woken_nodup]
      omega
    rw [← hset] at hv
    exact List.mem_toFinset.mp hv
  · have hsum : ∑ v ∈ T.verts, (w.heard v).length = ∑ v ∈ T.verts, (T.children v).length := by
      omega
    have heach := (Finset.sum_eq_sum_iff_of_le fun v _ ↦ hw.length_heard_le v).mp hsum v hv
    exact subset_of_length_le (hw.heard_nodup v) (hw.heard_subset v) heach.ge

omit [DecidableEq V] in
/-- Nothing waits outside the tree. -/
theorem SoundUpTo.queue_of_not_mem (hw : Sound T w) (hv : v ∉ T.verts) : w.queue v = [] := by
  refine List.eq_nil_iff_forall_not_mem.mpr fun m hm ↦ hv ?_
  cases m with
  | none => exact ((hw.call_iff v).mp hm).1
  | some c => exact (T.parent_mem c v ((hw.report_iff v c).mp hm).1).2.1

omit [DecidableEq V] in
/-- In a quiet wave every vertex has reported. -/
theorem SoundUpTo.sent_of_quiet (hw : Sound T w) (hquiet : Quiet w) (hv : v ∈ T.verts) :
    v ∈ w.sent := by
  have hwoken : ∀ v ∈ T.verts, v ∈ w.woken := fun v hv ↦ by
    refine T.parent_induction (P := fun v ↦ v ∈ w.woken) ?_ (fun p c hp ih ↦ ?_) hv
    · by_contra hnot
      have hcall : none ∈ w.queue T.root := (hw.call_iff T.root).mpr
        ⟨T.root_mem, hnot, by simp [(T.parent_eq_none _ T.root_mem).mpr rfl]⟩
      simp [hquiet T.root] at hcall
    · by_contra hnot
      have hcall : none ∈ w.queue c := (hw.call_iff c).mpr
        ⟨(T.parent_mem c p hp).1, hnot, fun q hq ↦ Option.some.inj (hp.symm.trans hq) ▸ ih⟩
      simp [hquiet c] at hcall
  refine T.child_induction (P := fun v ↦ v ∈ w.sent) (fun v hv ih ↦ ?_) hv
  refine (hw.sent_iff v).mpr ⟨hwoken v hv, fun c hc ↦ ?_, by simp⟩
  by_contra hnot
  have hwaits : some c ∈ w.queue v :=
    (hw.report_iff v c).mpr ⟨(T.mem_children v c).mp hc, ih c hc, hnot⟩
  simp [hquiet v] at hwaits

omit [DecidableEq V] in
/-- The root reports last: nothing waits any more. -/
theorem SoundUpTo.quiet_of_root_sent (hw : Sound T w) (hroot : T.root ∈ w.sent) : Quiet w := by
  have hsent : ∀ v ∈ T.verts, v ∈ w.sent ∧ ∀ p, T.parent v = some p → v ∈ w.heard p :=
    fun v hv ↦ by
      refine T.parent_induction
        (P := fun v ↦ v ∈ w.sent ∧ ∀ p, T.parent v = some p → v ∈ w.heard p) ?_
        (fun p c hp ih ↦ ?_) hv
      · exact ⟨hroot, by simp [(T.parent_eq_none _ T.root_mem).mpr rfl]⟩
      · have hheard := ((hw.sent_iff p).mp ih.1).2.1 c ((T.mem_children p c).mpr hp)
        refine ⟨(hw.heard_mem p c hheard).2, fun q hq ↦ ?_⟩
        rwa [← Option.some.inj (hp.symm.trans hq)]
  refine fun v ↦ List.eq_nil_iff_forall_not_mem.mpr fun m hm ↦ ?_
  cases m with
  | none =>
    obtain ⟨hv, hnot, -⟩ := (hw.call_iff v).mp hm
    exact hnot ((hw.sent_iff v).mp (hsent v hv).1).1
  | some c =>
    obtain ⟨hp, -, hnot⟩ := (hw.report_iff v c).mp hm
    exact hnot ((hsent c (T.parent_mem c v hp).1).2 v hp)

omit [DecidableEq V] in
/-- The wave is quiet exactly when all messages are handled. -/
theorem SoundUpTo.quiet_iff (hw : Sound T w) :
    Quiet w ↔ handled T w + 1 = 2 * T.verts.card := by
  constructor
  · intro hquiet
    have hwoken : T.verts.card ≤ w.woken.length := by
      classical
      rw [← List.toFinset_card_of_nodup hw.woken_nodup]
      refine Finset.card_le_card fun v hv ↦ List.mem_toFinset.mpr ?_
      exact ((hw.sent_iff v).mp (hw.sent_of_quiet hquiet hv)).1
    have hheard : ∑ v ∈ T.verts, (T.children v).length ≤ ∑ v ∈ T.verts, (w.heard v).length :=
      Finset.sum_le_sum fun v hv ↦ (T.children_nodup v).length_le_of_subset
        ((hw.sent_iff v).mp (hw.sent_of_quiet hquiet hv)).2.1
    have hchildren := T.sum_length_children
    have hle := hw.handled_le
    unfold handled at hle ⊢
    omega
  · intro hall
    obtain ⟨hwoken, hheard⟩ := hw.all_of_handled hall T.root_mem
    exact hw.quiet_of_root_sent ((hw.sent_iff T.root).mpr ⟨hwoken, hheard, by simp⟩)

end Quiet

end Wave

end WsServer.Foundations
