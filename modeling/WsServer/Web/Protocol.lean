import WsServer.Web.Model

/-!
# Client and server do not speak the same protocol

The client waits for a reply after each line. The server waits for the request of a websocket
handshake, which takes more than one line. So the first line is never answered, and neither is it
taken for the termination command: the connection gets stuck or fails (`served_iff`).
-/

set_option autoImplicit false
set_option relaxedAutoImplicit false

namespace WsServer.Web

open Foundations

/-- Every line has been answered by itself, the termination command by a request to stop. -/
def Served (options : ServerOptions) (lines : List (List UInt8)) (s : System) : Prop :=
  ∀ line ∈ lines, if line = options.terminationCommand then s.session.stopped = true
    else (line, line) ∈ s.client.replies

/-- What the client has still to write before it waits for a reply. -/
def Client.unsent (client : Client) : List UInt8 :=
  match client.stage, client.lines with
  | .ready, line :: _ => line ++ [newline]
  | .sending _ payload, _ => payload
  | _, _ => []

/-- Nothing has come back to the client, and no more than one line is on its way to the server. -/
structure Unanswered (line : List UInt8) (s : System) : Prop where
  stage : s.session.stage ≠ .reading
  stopped : s.session.stopped = false
  toClient : s.toClient = []
  readBuffer : s.client.readBuffer = []
  replies : s.client.replies = []
  sent : s.session.arrived ++ s.toServer ++ s.client.unsent <+: line ++ [newline]

section Steps

variable {lib : Beast} {options : ServerOptions} {line bs : List UInt8} {s s' : System}

/-- A line is no complete request header. -/
theorem not_headerEnd (hline : newline ∉ line) (hbs : bs <+: line ++ [newline]) :
    ¬headerEnd <:+: bs := by
  intro hinside
  have htwo := (hinside.sublist.trans hbs.sublist).count_le newline
  have hone : (line ++ [newline]).count newline = 1 := by
    rw [List.count_append, List.count_eq_zero.mpr hline, List.count_singleton_self]
  rw [hone] at htwo
  exact absurd htwo (by decide)

/-- The handshake does not succeed on a line, and is not answered. -/
theorem Unanswered.resume (hlib : lib.AcceptsRequests) (hline : newline ∉ line)
    (hs : Unanswered line s) {session : Session} {written : List UInt8}
    (hresume : s.session.resume lib options = some (session, written)) :
    written = [] ∧ session = { s.session with stage := .ended } := by
  have hheader : ¬headerEnd <:+: s.session.arrived :=
    not_headerEnd hline ((List.prefix_append _ _).trans (List.append_assoc .. ▸ hs.sent))
  unfold Session.resume at hresume
  cases hstage : s.session.stage with
  | accepting =>
    rw [hstage] at hresume
    cases haccept : lib.accept s.session.arrived with
    | more => simp [haccept] at hresume
    | failed response =>
      simp only [haccept, Option.some_inj, Prod.mk.injEq] at hresume
      obtain ⟨rfl, rfl⟩ := hresume
      refine ⟨?_, rfl⟩
      by_contra hwritten
      exact hheader (hlib.answered _ _ haccept hwritten)
    | upgraded response rest => exact absurd (hlib.upgraded _ _ _ haccept) hheader
  | reading => exact absurd hstage hs.stage
  | ended => simp [hstage] at hresume

theorem unsent_call {client client' : Client} (hcall : client.call = some client') :
    client'.unsent = client.unsent ∧ client'.readBuffer = client.readBuffer ∧
      client'.replies = client.replies := by
  unfold Client.call at hcall
  split at hcall
  · rename_i hstage hlines
    obtain rfl := Option.some.inj hcall
    simp [Client.unsent, hstage, hlines]
  · nomatch hcall

theorem unsent_write {client client' : Client} {n : ℕ} {written : List UInt8}
    (hwrite : client.write n = some (client', written)) :
    written ++ client'.unsent = client.unsent ∧ client'.readBuffer = client.readBuffer ∧
      client'.replies = client.replies := by
  unfold Client.write at hwrite
  split at hwrite
  · rename_i hstage
    split_ifs at hwrite with hn hall
    · obtain ⟨rfl, rfl⟩ := Prod.mk.inj (Option.some.inj hwrite)
      simp [Client.unsent, hstage, hall]
    · obtain ⟨rfl, rfl⟩ := Prod.mk.inj (Option.some.inj hwrite)
      simp [Client.unsent, hstage]
  · nomatch hwrite

theorem unanswered_initial (lines : List (List UInt8)) :
    Unanswered line (initial (line :: lines)) :=
  ⟨by simp [initial], rfl, rfl, rfl, rfl, List.prefix_rfl⟩

/-- No step brings the client an answer to its first line. -/
theorem Unanswered.step (hlib : lib.AcceptsRequests) (hline : newline ∉ line)
    (hs : Unanswered line s) {a : Action} (hstep : s.step lib options a = some s') :
    Unanswered line s' := by
  cases a with
  | call =>
    obtain ⟨client, hcall, hnext⟩ := Option.bind_eq_some_iff.mp hstep
    obtain rfl := Option.some.inj hnext
    obtain ⟨hunsent, hbuffer, hreplies⟩ := unsent_call hcall
    exact ⟨hs.stage, hs.stopped, hs.toClient, hbuffer.trans hs.readBuffer,
      hreplies.trans hs.replies, by rw [hunsent]; exact hs.sent⟩
  | write n =>
    obtain ⟨⟨client, written⟩, hwrite, hnext⟩ := Option.bind_eq_some_iff.mp hstep
    obtain rfl := Option.some.inj hnext
    obtain ⟨hunsent, hbuffer, hreplies⟩ := unsent_write hwrite
    refine ⟨hs.stage, hs.stopped, hs.toClient, hbuffer.trans hs.readBuffer,
      hreplies.trans hs.replies, ?_⟩
    rw [← List.append_assoc, List.append_assoc _ written, hunsent]
    exact hs.sent
  | arriveServer n =>
    rw [System.step] at hstep
    split_ifs at hstep
    obtain rfl := Option.some.inj hstep
    refine ⟨hs.stage, hs.stopped, hs.toClient, hs.readBuffer, hs.replies, ?_⟩
    rw [List.append_assoc s.session.arrived, List.take_append_drop]
    exact hs.sent
  | resume =>
    obtain ⟨⟨session, written⟩, hresume, hnext⟩ := Option.bind_eq_some_iff.mp hstep
    obtain rfl := Option.some.inj hnext
    obtain ⟨rfl, rfl⟩ := hs.resume hlib hline hresume
    exact ⟨by simp, hs.stopped, by simpa using hs.toClient, hs.readBuffer, hs.replies, hs.sent⟩
  | arriveClient n =>
    rw [System.step] at hstep
    split_ifs at hstep with hn
    rw [hs.toClient, List.length_nil] at hn
    exact absurd (hn.1.trans_le hn.2.1) (lt_irrefl 0)
  | readLine =>
    obtain ⟨client, hread, -⟩ := Option.bind_eq_some_iff.mp hstep
    unfold Client.readLine at hread
    rw [hs.readBuffer] at hread
    split at hread
    · nomatch hread
    · nomatch hread
  | disconnect =>
    rw [System.step] at hstep
    split_ifs at hstep
    obtain rfl := Option.some.inj hstep
    refine ⟨hs.stage, hs.stopped, hs.toClient, hs.readBuffer, hs.replies, ?_⟩
    exact (List.prefix_append_right_inj _).mpr List.nil_prefix |>.trans hs.sent

end Steps

/-- The lines of a run are served, in whatever state it is, exactly when there are none. -/
theorem served_iff {lib : Beast} {options : ServerOptions} {lines : List (List UInt8)}
    {h : List (Transition System Action)} {s : System} (hlib : lib.AcceptsRequests)
    (hlines : ∀ line ∈ lines, line ≠ [] ∧ newline ∉ line) (hrun : Run lib options lines h s) :
    Served options lines s ↔ lines = [] := by
  constructor
  · intro hserved
    cases lines with
    | nil => rfl
    | cons line lines =>
      have hline := (hlines line List.mem_cons_self).2
      have hs : Unanswered line s := hrun.invariant (unanswered_initial lines)
        fun _ _ _ ht hstep ↦ ht.step hlib hline hstep
      have hfirst := hserved line List.mem_cons_self
      split_ifs at hfirst
      · nomatch hs.stopped.symm.trans hfirst
      · rw [hs.replies] at hfirst
        nomatch hfirst
  · rintro rfl line hline
    nomatch hline

/-- Beast on bytes without a carriage return: a newline is no part of a method name. -/
def bareLines : Beast where
  accept bs := if newline ∈ bs then .failed [] else .more
  read _ := .more

theorem acceptsRequests_bareLines : bareLines.AcceptsRequests := by
  constructor
  · intro bs written rest haccept
    simp only [bareLines] at haccept
    split_ifs at haccept
  · intro bs written haccept hwritten
    simp only [bareLines] at haccept
    split_ifs at haccept
    obtain rfl := Accepted.failed.inj haccept
    exact absurd rfl hwritten

/-- The steps of a client that sends `hi`: the server closes the connection. -/
def hiActions : List Action :=
  [.call, .write 3, .arriveServer 2, .arriveServer 1, .resume, .disconnect]

theorem served_iff_example : ∃ h s, Execution.trace (System.step bareLines {})
      (initial [[104, 105]]) hiActions = some (h, s) ∧
      (Served {} [[104, 105]] s ↔ [[(104 : UInt8), 105]] = []) := by
  obtain ⟨h, s, htrace⟩ : ∃ h s, Execution.trace (System.step bareLines {})
      (initial [[104, 105]]) hiActions = some (h, s) := ⟨_, _, rfl⟩
  exact ⟨h, s, htrace, served_iff acceptsRequests_bareLines (by decide) (Execution.of_trace htrace)⟩

theorem step_eq_none {lib : Beast} {options : ServerOptions} {s : System}
    (hclient : s.client.stage = .failed) (hsession : s.session.stage = .ended) (a : Action) :
    s.step lib options a = none := by
  cases a with
  | call => simp [System.step, Client.call, hclient]
  | write n => simp [System.step, Client.write, hclient]
  | arriveServer n => simp [System.step, hsession]
  | resume => simp [System.step, Session.resume, hsession]
  | arriveClient n => simp [System.step, hclient, ClientStage.connected]
  | readLine => simp [System.step, Client.readLine, hclient]
  | disconnect => simp [System.step, hclient, ClientStage.connected]

/-- A run that can go no further, in which the only line is not answered. -/
theorem hi_not_served :
    ¬∀ (lib : Beast) (options : ServerOptions) (lines : List (List UInt8)) h s,
      lib.AcceptsRequests → (∀ line ∈ lines, line ≠ [] ∧ newline ∉ line) →
      Run lib options lines h s → (∀ a, s.step lib options a = none) → Served options lines s := by
  intro hall
  obtain ⟨h, s, htrace, hclient, hsession, hreplies⟩ : ∃ h s,
      Execution.trace (System.step bareLines {}) (initial [[104, 105]]) hiActions = some (h, s) ∧
      s.client.stage = .failed ∧ s.session.stage = .ended ∧ s.client.replies = [] :=
    ⟨_, _, rfl, rfl, rfl, rfl⟩
  have hserved := hall bareLines {} [[104, 105]] h s acceptsRequests_bareLines (by decide)
    (Execution.of_trace htrace) (step_eq_none hclient hsession)
  have hreply := hserved [104, 105] List.mem_cons_self
  rw [if_neg (by decide), hreplies] at hreply
  nomatch hreply

end WsServer.Web
