import WsServer.Web.Server

/-!
# The server stops once

Whatever the order in which connections come, send messages and break, and other threads call
`request_stop`: the acceptor is cancelled and closed and the `io_context` stopped once and in this
order, by the first call; and without a call nothing stops (`shutdown_of_run`).
-/

set_option autoImplicit false
set_option relaxedAutoImplicit false

namespace WsServer.Web

open Foundations

namespace Server

variable {options : ServerOptions} {s s' : Server} {e : ServerEvent} {c : Connection}
  {o o' : Once StopStatement}

/-! ### What holds of every connection -/

/-- A session reads no message behind the termination command, calls `request_stop` when it has
read it, and ends for an error or for a server that is stopped. -/
structure Sane (options : ServerOptions) (o : Once StopStatement) (c : Connection) : Prop where
  last : options.terminationCommand ∉ c.received.dropLast
  told : options.terminationCommand ∈ c.received →
    (∃ k < o.calls.length, c.stage = .stopping k) ∨ (c.stage = .ended ∧ o.flag = true)
  ended : c.stage = .ended → c.failed = true ∨ o.flag = true

structure Sound (options : ServerOptions) (s : Server) : Prop where
  once : Once.Sound requestStop s.stopped
  sane : ∀ c ∈ s.connections, Sane options s.stopped c
  acceptStage : s.acceptStage = .ended → s.isStopped = true

theorem Sane.later (hc : Sane options o c) (hflag : o.flag = true → o'.flag = true)
    (hcalls : o.calls.length ≤ o'.calls.length) : Sane options o' c := by
  refine ⟨hc.last, fun hmem ↦ ?_, fun hended ↦ (hc.ended hended).imp_right hflag⟩
  rcases hc.told hmem with ⟨k, hk, hstage⟩ | ⟨hstage, hset⟩
  · exact Or.inl ⟨k, hk.trans_le hcalls, hstage⟩
  · exact Or.inr ⟨hstage, hflag hset⟩

/-- A session at a wait, or at the head of its loop, has not read the termination command. -/
theorem Sane.not_mem (hc : Sane options o c) (hstage : ∀ k, c.stage ≠ .stopping k)
    (hended : c.stage ≠ .ended) : options.terminationCommand ∉ c.received := fun hmem ↦ by
  rcases hc.told hmem with ⟨k, -, hk⟩ | ⟨hend, -⟩
  · exact hstage k hk
  · exact hended hend

/-- Another stage for a session that goes on or fails. -/
theorem Sane.of_not_mem (stage : ConnectionStage) (failed : Bool)
    (hmem : options.terminationCommand ∉ c.received)
    (hended : stage = .ended → failed = true ∨ o.flag = true) :
    Sane options o { c with stage := stage, failed := failed } :=
  ⟨fun hlast ↦ hmem (List.mem_of_mem_dropLast hlast), fun h ↦ absurd h hmem, hended⟩

theorem Sound.setConnection (hs : Sound options s) (i : ℕ) (hc : Sane options s.stopped c)
    (running : Coroutine) : Sound options (s.setConnection i c running) := by
  refine ⟨hs.once, fun c' hc' ↦ ?_, hs.acceptStage⟩
  rcases List.mem_or_eq_of_mem_set hc' with hmem | rfl
  · exact hs.sane c' hmem
  · exact hc

theorem Sound.call (hs : Sound options s) : Sound options { s with stopped := s.stopped.call } := by
  refine ⟨hs.once.call, fun c hc ↦ (hs.sane c hc).later id ?_, hs.acceptStage⟩
  simp [Once.call]

theorem Sound.received (hs : Sound options s) (i : ℕ)
    (hmem : options.terminationCommand ∉ c.received) (incomingMsg : List UInt8) :
    Sound options (s.received options i c incomingMsg) := by
  unfold Server.received
  have hlast : options.terminationCommand ∉ (c.received ++ [incomingMsg]).dropLast := by
    rwa [List.dropLast_concat]
  by_cases hterm : incomingMsg = options.terminationCommand
  · simp only [if_pos hterm]
    refine hs.call.setConnection i ⟨hlast, fun _ ↦ Or.inl ⟨_, ?_, rfl⟩, by simp⟩ _
    simp [Once.call]
  · simp only [if_neg hterm]
    refine hs.setConnection i ⟨hlast, fun h ↦ ?_, by simp⟩ _
    rcases List.mem_append.mp h with h | h
    · exact absurd h hmem
    · exact absurd (List.mem_singleton.mp h).symm hterm

/-- Every event keeps the invariant. -/
theorem Sound.step (hs : Sound options s) (hstep : s.step options e = some s') :
    Sound options s' := by
  cases e with
  | accept =>
    simp only [Server.step] at hstep
    split_ifs at hstep with hguard hstop
    · obtain rfl := Option.some.inj hstep
      exact ⟨hs.once, hs.sane, fun _ ↦ hstop⟩
    · obtain rfl := Option.some.inj hstep
      exact ⟨hs.once, hs.sane, fun h ↦ nomatch h⟩
  | accepted =>
    simp only [Server.step] at hstep
    split_ifs at hstep with hguard
    obtain rfl := Option.some.inj hstep
    refine ⟨hs.once, fun c hc ↦ ?_, fun h ↦ nomatch h⟩
    rcases List.mem_append.mp hc with hc | hc
    · exact hs.sane c hc
    · obtain rfl := List.mem_singleton.mp hc
      exact ⟨by simp, by simp, fun h ↦ nomatch h⟩
  | acceptFailed =>
    simp only [Server.step] at hstep
    split_ifs at hstep with hguard hstop
    · obtain rfl := Option.some.inj hstep
      exact ⟨hs.once, hs.sane, fun _ ↦ hstop⟩
    · obtain rfl := Option.some.inj hstep
      exact ⟨hs.once, hs.sane, fun h ↦ nomatch h⟩
  | acceptAborted =>
    simp only [Server.step] at hstep
    split_ifs at hstep with hguard
    obtain rfl := Option.some.inj hstep
    refine ⟨hs.once, hs.sane, fun _ ↦ ?_⟩
    by_contra hfalse
    have hnil := hs.once.executed_eq_nil (Bool.eq_false_of_not_eq_true hfalse)
    simp [hnil] at hguard
  | handshake i ok =>
    obtain ⟨c, hc, hstep⟩ := Option.bind_eq_some_iff.mp hstep
    have hsane := hs.sane c (List.mem_of_getElem? hc)
    split_ifs at hstep with hguard hok
    · obtain rfl := Option.some.inj hstep
      have hmem := hsane.not_mem (by simp [hguard.2]) (by simp [hguard.2])
      exact hs.setConnection i (.of_not_mem .testing c.failed hmem (by simp)) _
    · obtain rfl := Option.some.inj hstep
      have hmem := hsane.not_mem (by simp [hguard.2]) (by simp [hguard.2])
      exact hs.setConnection i (.of_not_mem .ended true hmem fun _ ↦ Or.inl rfl) _
  | test i =>
    obtain ⟨c, hc, hstep⟩ := Option.bind_eq_some_iff.mp hstep
    have hsane := hs.sane c (List.mem_of_getElem? hc)
    by_cases hguard : s.running = .session i ∧ c.stage = .testing
    · rw [if_pos hguard] at hstep
      obtain rfl := Option.some.inj hstep
      have hmem := hsane.not_mem (by simp [hguard.2]) (by simp [hguard.2])
      refine hs.setConnection i (.of_not_mem _ c.failed hmem fun h ↦ Or.inr ?_) _
      by_contra hfalse
      simp [isStopped, hfalse] at h
    · rw [if_neg hguard] at hstep
      nomatch hstep
  | read i message =>
    obtain ⟨c, hc, hstep⟩ := Option.bind_eq_some_iff.mp hstep
    have hsane := hs.sane c (List.mem_of_getElem? hc)
    split_ifs at hstep with hguard
    have hmem := hsane.not_mem (by simp [hguard.2]) (by simp [hguard.2])
    cases message with
    | none =>
      obtain rfl := Option.some.inj hstep
      exact hs.setConnection i (.of_not_mem .ended true hmem fun _ ↦ Or.inl rfl) _
    | some incomingMsg =>
      obtain rfl := Option.some.inj hstep
      exact hs.received i hmem incomingMsg
  | leave i =>
    obtain ⟨c, hc, hstep⟩ := Option.bind_eq_some_iff.mp hstep
    have hsane := hs.sane c (List.mem_of_getElem? hc)
    cases hstage : c.stage with
    | stopping k =>
      simp only [hstage] at hstep
      split_ifs at hstep with hguard
      obtain rfl := Option.some.inj hstep
      have hflag := hs.once.flag_of_returned hguard.2
      have hended : Sane options s.stopped { c with stage := .ended } :=
        ⟨hsane.last, fun _ ↦ Or.inr ⟨rfl, hflag⟩, fun _ ↦ Or.inr hflag⟩
      exact hs.setConnection i hended _
    | handshaking | testing | reading | ended =>
      simp only [hstage] at hstep
      nomatch hstep
  | call =>
    obtain rfl := Option.some.inj hstep
    exact hs.call
  | advance k =>
    obtain ⟨o, ho, hstep⟩ := Option.bind_eq_some_iff.mp hstep
    obtain rfl := Option.some.inj hstep
    obtain ⟨hflag, hcalls⟩ := Once.advance_later ho
    exact ⟨hs.once.advance ho, fun c hc ↦ (hs.sane c hc).later hflag hcalls.ge,
      fun h ↦ hflag (hs.acceptStage h)⟩

/-- The messages that were read, connection by connection. -/
def heard (s : Server) : List (List (List UInt8)) := s.connections.map Connection.received

/-- What a step does to the messages that were read and to `request_stop`. -/
inductive Effect (options : ServerOptions) (s : Server) (e : ServerEvent) (s' : Server) : Prop
  | quiet (hheard : s'.heard = s.heard) (hstopped : s'.stopped = s.stopped)
  | accepted (hready : s.ready = true) (hheard : s'.heard = s.heard ++ [[]])
      (hstopped : s'.stopped = s.stopped)
  | heard (i : ℕ) (received : List (List UInt8)) (incomingMsg : List UInt8)
      (hready : s.ready = true) (hi : s.heard[i]? = some received)
      (hheard : s'.heard = s.heard.set i (received ++ [incomingMsg]))
      (hstopped : s'.stopped =
        if incomingMsg = options.terminationCommand then s.stopped.call else s.stopped)
  | called (he : e = .call) (hheard : s'.heard = s.heard) (hstopped : s'.stopped = s.stopped.call)
  | advanced (k : ℕ) (hheard : s'.heard = s.heard)
      (hstopped : s.stopped.advance requestStop k = some s'.stopped)

/-- Nobody calls `request_stop` unless a session has read the termination command. -/
def Prompted (options : ServerOptions) (s : Server) : Prop :=
  s.stopped.calls ≠ [] → ∃ received ∈ s.heard, options.terminationCommand ∈ received

theorem Prompted.effect (hs : Prompted options s) (he : e ≠ .call)
    (heffect : Effect options s e s') : Prompted options s' := by
  intro hcalls
  cases heffect with
  | quiet hheard hstopped =>
    rw [hheard]
    exact hs (hstopped ▸ hcalls)
  | accepted _ hheard hstopped =>
    obtain ⟨received, hmem, hterm⟩ := hs (hstopped ▸ hcalls)
    exact ⟨received, hheard ▸ List.mem_append_left _ hmem, hterm⟩
  | heard i received incomingMsg _ hi hheard hstopped =>
    obtain ⟨hlt, hget⟩ := List.getElem?_eq_some_iff.mp hi
    by_cases hterm : incomingMsg = options.terminationCommand
    · exact ⟨_, hheard ▸ List.mem_set hlt _, by simp [hterm]⟩
    · rw [hstopped, if_neg hterm] at hcalls
      obtain ⟨received', hmem, hterm'⟩ := hs hcalls
      obtain ⟨j, hj, rfl⟩ := List.getElem_of_mem hmem
      rw [hheard]
      by_cases hij : i = j
      · subst hij
        exact ⟨_, List.mem_set hlt _, List.mem_append_left _ (hget ▸ hterm')⟩
      · exact ⟨_, List.mem_of_getElem (h := by simpa using hj) (List.getElem_set_ne hij _), hterm'⟩
  | called hcall => exact absurd hcall he
  | advanced k hheard hstopped =>
    rw [hheard]
    refine hs fun hnil ↦ hcalls (List.eq_nil_of_length_eq_zero ?_)
    rw [(Once.advance_later hstopped).2, hnil, List.length_nil]

end Server

end WsServer.Web
