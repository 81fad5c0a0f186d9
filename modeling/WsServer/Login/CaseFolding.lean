import WsServer.Login.Outcomes

/-!
# Runs that differ in the case of user names

`LOGIN` and `CREATE` compare user names without regard to case, `DEL` compares them exactly. Two
runs on the same requests up to the case of the names keep their tables alike up to case
(`Alike.outcome`), and their answers are the same as long as each deletion meets an exact name in
both or in neither (`sameAnswers_iff`).
-/

set_option autoImplicit false
set_option relaxedAutoImplicit false

namespace WsServer.Login

open Foundations

/-- The credentials differ at most in the case of the username. -/
def LoginCredentials.Alike (a b : LoginCredentials) : Prop :=
  lower a.username = lower b.username ∧ a.password = b.password

instance (a b : LoginCredentials) : Decidable (a.Alike b) := inferInstanceAs (Decidable (_ ∧ _))

/-- What `LOGIN`, `CREATE` and `LOGOUT` look at agrees up to the case of the usernames. -/
structure Alike (s t : State) : Prop where
  entry : ∀ u, Option.Rel (fun a b ↦ a.1.Alike b.1) (s.entry u) (t.entry u)
  uuidTable_eq : s.uuidTable = t.uuidTable
  account_eq : s.session.account = t.session.account

/-! ### Two runs side by side -/

/-- Two requests are handled, each in its own run. -/
def StepBoth (s : State × State) (c : Call × Call) (t : State × State) : Prop :=
  Step s.1 c.1 t.1 ∧ Step s.2 c.2 t.2

/-- The requests recorded in `h` lead both runs from the initial tables to the states `s`. -/
abbrev RunBoth (g₁ g₂ : Uuid) (h : List (Transition (State × State) (Call × Call)))
    (s : State × State) : Prop :=
  Execution StepBoth (initial g₁ g₂, initial g₁ g₂) h s

/-- The requests differ at most in the case of the username, and in a uuid where both take it from
the answers to the same earlier request. The table is iterated in the same order, and the generator
and the prompt give the same; the tokens, which are made from the names, may differ. -/
structure SameRequest (h : List (Transition (State × State) (Call × Call)))
    (x : Transition (State × State) (Call × Call)) : Prop where
  cmd_eq : x.action.1.request.cmd = x.action.2.request.cmd
  cred : x.action.1.request.logCredentials.Alike x.action.2.request.logCredentials
  uuid : x.action.1.request.uuid = x.action.2.request.uuid ∨
    ∃ y ∈ h, x.action.1.request.uuid = y.action.1.response.uuid ∧
      x.action.2.request.uuid = y.action.2.response.uuid
  status_eq : x.action.1.request.status = x.action.2.request.status
  order_eq : x.action.1.env.order = x.action.2.env.order
  generated_eq : x.action.1.env.generated = x.action.2.env.generated
  reply_eq : x.action.1.env.reply = x.action.2.env.reply

/-- The answers have the same status and the same uuid. -/
def SameAnswer (x : Transition (State × State) (Call × Call)) : Prop :=
  x.action.1.response.status = x.action.2.response.status ∧
    x.action.1.response.uuid = x.action.2.response.uuid

/-- A deletion that is confirmed at the prompt is for a record with exactly the given username in
both runs or in neither. -/
def SameMatch (x : Transition (State × State) (Call × Call)) : Prop :=
  x.action.1.request.cmd = .del →
    (x.before.1.Deletes x.action.1.env x.action.1.request ↔
      x.before.2.Deletes x.action.2.env x.action.2.request)

section Search

variable {s t : State} {cred cred' : LoginCredentials}

theorem equal_congr {a b : LoginCredentials} (hab : a.Alike b) (hcred : cred.Alike cred') :
    a.equal cred = b.equal cred' := by
  rw [Bool.eq_iff_iff, equal_iff, equal_iff, hab.1, hab.2, hcred.1, hcred.2]

/-- The search, by the keys in their order. -/
theorem findIf_fst (s : State) (order : List Uuid) (cred : LoginCredentials) :
    (s.findIf order cred).map Prod.fst =
      order.find? fun u ↦ (s.entry u).any fun found ↦ found.1.equal cred := by
  unfold State.findIf
  induction order with
  | nil => rfl
  | cons u order ih =>
    cases hu : s.accountTable.lookup u with
    | none => simpa [State.entry, hu] using ih
    | some acc =>
      by_cases hequal : acc.loginCred.equal cred
      · simp [State.entry, hu, hequal]
      · simpa [State.entry, hu, hequal] using ih

/-- The search finds the same key in tables that are alike. -/
theorem Alike.findIf_fst_eq (h : Alike s t) (hcred : cred.Alike cred') (order : List Uuid) :
    (s.findIf order cred).map Prod.fst = (t.findIf order cred').map Prod.fst := by
  rw [findIf_fst, findIf_fst]
  congr 1
  funext u
  have hentry := h.entry u
  generalize s.entry u = a at hentry ⊢
  generalize t.entry u = b at hentry ⊢
  cases hentry with
  | none => rfl
  | some hab => exact equal_congr hab hcred

end Search

section Steps

variable {s t s' t' : State} {env env' : Environment} {cred cred' : LoginCredentials}
  {uuid : Uuid} {status : LogResult} {res res' : LoginRequest}

/-- Entries that are written alike at one key leave the tables alike. -/
theorem Alike.of_entry (h : Alike s t) {u : Uuid} {a b : LoginCredentials × Bool}
    (hab : a.1.Alike b.1) (hs : ∀ v, s'.entry v = if v = u then some a else s.entry v)
    (ht : ∀ v, t'.entry v = if v = u then some b else t.entry v)
    (huuid : s'.uuidTable = t'.uuidTable) (haccount : s'.session.account = t'.session.account) :
    Alike s' t' := by
  refine ⟨fun v ↦ ?_, huuid, haccount⟩
  rw [hs, ht]
  split_ifs with hvu
  · exact .some hab
  · exact h.entry v

theorem Alike.login (h : Alike s t) (hs : WellFormed s) (ht : WellFormed t)
    (hcred : cred.Alike cred') (horder : env.order = env'.order)
    (hrun : Login.login s env ⟨.login, cred, uuid, status⟩ = some (s', res))
    (hrun' : Login.login t env' ⟨.login, cred', uuid, status⟩ = some (t', res')) :
    (res.status = res'.status ∧ res.uuid = res'.uuid) ∧ Alike s' t' := by
  have hfind := h.findIf_fst_eq hcred env.order
  rcases login_cases hs hrun with ⟨p, it, hp, rfl, rfl⟩ | ⟨hp, rfl, rfl⟩
  · rcases login_cases ht hrun' with ⟨p', it', hp', rfl, rfl⟩ | ⟨hp', rfl, rfl⟩
    · rw [hp, horder, hp', Option.map_some, Option.map_some, Option.some_inj] at hfind
      obtain rfl : p = p' := hfind
      refine ⟨⟨rfl, rfl⟩, fun v ↦ ?_, h.uuidTable_eq, rfl⟩
      rw [entry_openSession (findIf_eq_some hp).1, entry_openSession (findIf_eq_some hp').1]
      exact h.entry v
    · rw [hp, horder, hp'] at hfind
      nomatch hfind
  · rcases login_cases ht hrun' with ⟨p', it', hp', rfl, rfl⟩ | ⟨hp', rfl, rfl⟩
    · rw [hp, horder, hp'] at hfind
      nomatch hfind
    · exact ⟨⟨rfl, rfl⟩, h⟩

theorem Alike.create (h : Alike s t) (hs : WellFormed s) (ht : WellFormed t)
    (hcred : cred.Alike cred') (horder : env.order = env'.order)
    (hgenerated : env.generated = env'.generated)
    (hrun : Login.login s env ⟨.create, cred, uuid, status⟩ = some (s', res))
    (hrun' : Login.login t env' ⟨.create, cred', uuid, status⟩ = some (t', res')) :
    (res.status = res'.status ∧ res.uuid = res'.uuid) ∧ Alike s' t' := by
  have hfind := h.findIf_fst_eq hcred env.order
  rcases create_cases hs hrun with ⟨found, hp, rfl, rfl⟩ | ⟨hp, u, hu, rfl, rfl⟩
  · rcases create_cases ht hrun' with ⟨found', hp', rfl, rfl⟩ | ⟨hp', u', hu', rfl, rfl⟩
    · exact ⟨⟨rfl, rfl⟩, h⟩
    · rw [hp, horder, hp'] at hfind
      nomatch hfind
  · rcases create_cases ht hrun' with ⟨found', hp', rfl, rfl⟩ | ⟨hp', u', hu', rfl, rfl⟩
    · rw [hp, horder, hp'] at hfind
      nomatch hfind
    · rw [h.uuidTable_eq, hgenerated, hu', Option.some_inj] at hu
      subst hu
      refine ⟨⟨rfl, rfl⟩, h.of_entry hcred (entry_addAccount u' cred) (entry_addAccount u' cred')
        ?_ h.account_eq⟩
      exact congrArg (· ++ [u']) h.uuidTable_eq

theorem Alike.logout (h : Alike s t) (hs : WellFormed s) (ht : WellFormed t)
    (hrun : Login.login s env ⟨.logout, cred, uuid, status⟩ = some (s', res))
    (hrun' : Login.login t env' ⟨.logout, cred', uuid, status⟩ = some (t', res')) :
    (res.status = res'.status ∧ res.uuid = res'.uuid) ∧ Alike s' t' := by
  have houtcome := outcome_of_logout hs hrun
  have houtcome' := outcome_of_logout ht hrun'
  obtain ⟨hstatus, hcases⟩ := houtcome.of_logout rfl
  obtain ⟨hstatus', hcases'⟩ := houtcome'.of_logout rfl
  have huuid : res.uuid = res'.uuid :=
    (houtcome.uuid_eq (by simp) (by simp)).trans (houtcome'.uuid_eq (by simp) (by simp)).symm
  refine ⟨⟨hstatus.trans hstatus'.symm, huuid⟩, ?_⟩
  rcases hcases with ⟨hcurrent, rfl⟩ | ⟨hother, rfl⟩
  · rcases hcases' with ⟨-, rfl⟩ | ⟨hother', rfl⟩
    · exact ⟨h.entry, h.uuidTable_eq, rfl⟩
    · exact absurd (h.account_eq.symm.trans hcurrent) hother'
  · rcases hcases' with ⟨hcurrent', rfl⟩ | ⟨-, rfl⟩
    · exact absurd (h.account_eq.trans hcurrent') hother
    · exact h

/-- A deletion is answered alike when its exact name is met in both runs or in neither. -/
theorem Alike.del (h : Alike s t)
    (hrun : Login.login s env ⟨.del, cred, uuid, status⟩ = some (s', res))
    (hrun' : Login.login t env' ⟨.del, cred', uuid, status⟩ = some (t', res')) :
    ((res.status = res'.status ∧ res.uuid = res'.uuid) ↔
      (s.Deletes env ⟨.del, cred, uuid, status⟩ ↔ t.Deletes env' ⟨.del, cred', uuid, status⟩)) ∧
    (res.status = res'.status → Alike s' t') := by
  have houtcome := outcome_of_del hrun
  have houtcome' := outcome_of_del hrun'
  have huuid : res.uuid = res'.uuid :=
    (houtcome.uuid_eq (by simp) (by simp)).trans (houtcome'.uuid_eq (by simp) (by simp)).symm
  rw [and_iff_left huuid]
  rcases houtcome.of_del rfl with ⟨hno, rfl, hfailure⟩ | ⟨hyes, hsuccess, it, hit, rfl⟩
  · rcases houtcome'.of_del rfl with ⟨hno', rfl, hfailure'⟩ | ⟨hyes', hsuccess', -⟩
    · rw [hfailure, hfailure']
      exact ⟨iff_of_true rfl (iff_of_false hno hno'), fun _ ↦ h⟩
    · rw [hfailure, hsuccess']
      exact ⟨iff_of_false nofun fun hiff ↦ hno (hiff.mpr hyes'), nofun⟩
  · rcases houtcome'.of_del rfl with ⟨hno', rfl, hfailure'⟩ | ⟨hyes', hsuccess', it', hit', rfl⟩
    · rw [hsuccess, hfailure']
      exact ⟨iff_of_false nofun fun hiff ↦ hno' (hiff.mp hyes), nofun⟩
    · rw [hsuccess, hsuccess']
      refine ⟨iff_of_true rfl (iff_of_true hyes hyes'), fun _ ↦ ?_⟩
      have hentry := h.entry uuid
      rw [entry_of_lookup hit, entry_of_lookup hit'] at hentry
      cases hentry with
      | some hab =>
        have hdead : LoginCredentials.Alike { it.loginCred with password := "TOMBSTONE" }
            { it'.loginCred with password := "TOMBSTONE" } := ⟨hab.1, rfl⟩
        exact h.of_entry (a := (_, false)) (b := (_, false)) hdead (entry_bury uuid it)
          (entry_bury uuid it') h.uuidTable_eq h.account_eq

/-- Requests that differ in the case of the username are answered alike when a deletion meets its
exact name in both runs or in neither, and then the tables stay alike. -/
theorem Alike.answer (h : Alike s t) (hs : WellFormed s) (ht : WellFormed t) {cmd : LogCmd}
    (hcred : cred.Alike cred') (horder : env.order = env'.order)
    (hgenerated : env.generated = env'.generated)
    (hrun : Login.login s env ⟨cmd, cred, uuid, status⟩ = some (s', res))
    (hrun' : Login.login t env' ⟨cmd, cred', uuid, status⟩ = some (t', res')) :
    ((res.status = res'.status ∧ res.uuid = res'.uuid) ↔ (cmd = .del →
      (s.Deletes env ⟨cmd, cred, uuid, status⟩ ↔ t.Deletes env' ⟨cmd, cred', uuid, status⟩))) ∧
    ((res.status = res'.status ∧ res.uuid = res'.uuid) → Alike s' t') := by
  have hother (hboth : (res.status = res'.status ∧ res.uuid = res'.uuid) ∧ Alike s' t')
      (hdel : cmd ≠ .del) : ((res.status = res'.status ∧ res.uuid = res'.uuid) ↔ (cmd = .del →
        (s.Deletes env ⟨cmd, cred, uuid, status⟩ ↔ t.Deletes env' ⟨cmd, cred', uuid, status⟩))) ∧
      ((res.status = res'.status ∧ res.uuid = res'.uuid) → Alike s' t') :=
    ⟨iff_of_true hboth.1 fun heq ↦ absurd heq hdel, fun _ ↦ hboth.2⟩
  cases cmd with
  | login => exact hother (h.login hs ht hcred horder hrun hrun') nofun
  | create => exact hother (h.create hs ht hcred horder hgenerated hrun hrun') nofun
  | logout => exact hother (h.logout hs ht hrun hrun') nofun
  | del =>
    obtain ⟨hiff, hkeeps⟩ := h.del hrun hrun'
    exact ⟨hiff.trans ⟨fun hmatch _ ↦ hmatch, fun hmatch ↦ hmatch rfl⟩,
      fun hanswer ↦ hkeeps hanswer.1⟩
  | other =>
    obtain ⟨rfl, rfl⟩ := Prod.mk.inj (Option.some.inj hrun)
    obtain ⟨rfl, rfl⟩ := Prod.mk.inj (Option.some.inj hrun')
    exact hother ⟨⟨rfl, rfl⟩, h⟩ nofun

end Steps

section Runs

variable {g₁ g₂ : Uuid} {h : List (Transition (State × State) (Call × Call))}
  {s t : State × State}

theorem alike_refl (s : State) : Alike s s := by
  refine ⟨fun u ↦ ?_, rfl, rfl⟩
  cases s.entry u with
  | none => exact .none
  | some found => exact .some ⟨rfl, rfl⟩

/-- After answers that were the same so far, the next requests carry the same uuid. -/
theorem SameRequest.uuid_eq {x : Transition (State × State) (Call × Call)}
    (hsame : SameRequest h x) (hanswers : ∀ y ∈ h, SameAnswer y) :
    x.action.1.request.uuid = x.action.2.request.uuid := by
  rcases hsame.uuid with heq | ⟨y, hy, heq, heq'⟩
  · exact heq
  · exact heq.trans ((hanswers y hy).2.trans heq'.symm)

theorem Alike.step {c : Call × Call} (halike : Alike s.1 s.2) (hs : WellFormed s.1)
    (ht : WellFormed s.2) (hsame : SameRequest h ⟨s, c, t⟩)
    (hanswers : ∀ y ∈ h, SameAnswer y) (hstep : StepBoth s c t) :
    (SameAnswer ⟨s, c, t⟩ ↔ SameMatch ⟨s, c, t⟩) ∧ (SameAnswer ⟨s, c, t⟩ → Alike t.1 t.2) := by
  have huuid := hsame.uuid_eq hanswers
  obtain ⟨⟨⟨cmd, cred, uuid, status⟩, env, res⟩, ⟨⟨cmd', cred', uuid', status'⟩, env', res'⟩⟩ := c
  obtain ⟨hcmd, hcred, -, hstatus, horder, hgenerated, -⟩ := hsame
  obtain rfl : cmd = cmd' := hcmd
  obtain rfl : uuid = uuid' := huuid
  obtain rfl : status = status' := hstatus
  exact halike.answer hs ht hcred horder hgenerated hstep.1.2 hstep.2.2

/-- In two runs on the same requests up to the case of the usernames, all answers have the same
status and the same uuid exactly when every deletion that is confirmed meets its exact username in
both runs or in neither. -/
theorem sameAnswers_iff (hrun : RunBoth g₁ g₂ h s) (hsame : Throughout SameRequest h) :
    (∀ x ∈ h, SameAnswer x) ↔ ∀ x ∈ h, SameMatch x := by
  rw [← throughout_iff_mem, ← throughout_iff_mem]
  refine Execution.throughout_iff
    (P := fun pre t ↦ (∀ y ∈ pre, SameAnswer y) ∧ WellFormed t.1 ∧ WellFormed t.2 ∧ Alike t.1 t.2)
    ⟨by simp, wellFormed_initial g₁ g₂, wellFormed_initial g₁ g₂, alike_refl _⟩
    (fun pre t c t' _ hx ⟨hanswers, hs, ht, halike⟩ hstep ↦
      (halike.step hs ht hx hanswers hstep).1)
    (fun pre t c t' ⟨hanswers, hs, ht, halike⟩ hx hstep hanswer ↦ ?_) hrun hsame
  refine ⟨?_, (hs.outcome hstep.1).wellFormed hs, (ht.outcome hstep.2).wellFormed ht,
    (halike.step hs ht hx hanswers hstep).2 hanswer⟩
  rw [List.forall_mem_append, List.forall_mem_singleton]
  exact ⟨hanswers, hanswer⟩

/-- Handling two lists of requests side by side. -/
def recordBoth (s : State × State) :
    List ((LoginRequest × Environment) × (LoginRequest × Environment)) →
      Option (List (Transition (State × State) (Call × Call)) × (State × State))
  | [] => some ([], s)
  | ((req, env), (req', env')) :: rest =>
    if env.order.Perm s.1.accountTable.keys ∧ env'.order.Perm s.2.accountTable.keys then do
      let (t, res) ← login s.1 env req
      let (t', res') ← login s.2 env' req'
      let (h, last) ← recordBoth (t, t') rest
      some (⟨s, (⟨req, env, res⟩, ⟨req', env', res'⟩), (t, t')⟩ :: h, last)
    else
      none

theorem execution_of_recordBoth
    {requests : List ((LoginRequest × Environment) × (LoginRequest × Environment))}
    (hrecord : recordBoth s requests = some (h, t)) : Execution StepBoth s h t := by
  induction requests generalizing s h with
  | nil =>
    obtain ⟨rfl, rfl⟩ := Prod.mk.inj (Option.some.inj hrecord)
    exact .start
  | cons request rest ih =>
    obtain ⟨⟨req, env⟩, ⟨req', env'⟩⟩ := request
    rw [recordBoth] at hrecord
    split_ifs at hrecord with horder
    simp only [bind, Option.bind_eq_some_iff, Option.some_inj, Prod.mk.injEq,
      Prod.exists] at hrecord
    obtain ⟨t₁, res, hlogin, t₁', res', hlogin', h', last, last', hrest, rfl, rfl⟩ := hrecord
    exact .cons ⟨⟨horder.1, hlogin⟩, ⟨horder.2, hlogin'⟩⟩ (ih hrest)

/-- Requests that give the same uuid themselves. -/
theorem throughout_sameRequest (hall : ∀ x ∈ h, x.action.1.request.cmd = x.action.2.request.cmd ∧
      x.action.1.request.logCredentials.Alike x.action.2.request.logCredentials ∧
      x.action.1.request.uuid = x.action.2.request.uuid ∧
      x.action.1.request.status = x.action.2.request.status ∧
      x.action.1.env.order = x.action.2.env.order ∧
      x.action.1.env.generated = x.action.2.env.generated ∧
      x.action.1.env.reply = x.action.2.env.reply) : Throughout SameRequest h := by
  rintro pre x post rfl
  obtain ⟨hcmd, hcred, huuid, hstatus, horder, hgenerated, hreply⟩ := hall x (by simp)
  exact ⟨hcmd, hcred, Or.inl huuid, hstatus, horder, hgenerated, hreply⟩

/-- `bob` and `Bob` are created, deleted and logged in to. -/
theorem sameAnswers_iff_example : ∃ h s, recordBoth (initial 0 1, initial 0 1)
      [(asksCreate "bob" "pw" [0] 2, asksCreate "Bob" "pw" [0] 2),
        (asksDel "bob" 2 [0, 2], asksDel "Bob" 2 [0, 2]),
        (asksLogin "BOB" "TOMBSTONE" [0, 2] "t", asksLogin "bob" "TOMBSTONE" [0, 2] "t'")] =
        some (h, s) ∧ ((∀ x ∈ h, SameAnswer x) ↔ ∀ x ∈ h, SameMatch x) := by
  obtain ⟨h, s, hrecord, hsame⟩ : ∃ h s, recordBoth (initial 0 1, initial 0 1)
      [(asksCreate "bob" "pw" [0] 2, asksCreate "Bob" "pw" [0] 2),
        (asksDel "bob" 2 [0, 2], asksDel "Bob" 2 [0, 2]),
        (asksLogin "BOB" "TOMBSTONE" [0, 2] "t", asksLogin "bob" "TOMBSTONE" [0, 2] "t'")] =
        some (h, s) ∧ Throughout SameRequest h :=
    ⟨_, _, rfl, throughout_sameRequest (by decide)⟩
  exact ⟨h, s, hrecord, sameAnswers_iff (execution_of_recordBoth hrecord) hsame⟩

/-- `DEL` for `bob` deletes the account that was created as `bob`, but not the one that was created
as `Bob`. -/
theorem answers_not_same :
    ¬∀ (g₁ g₂ : Uuid) h s, RunBoth g₁ g₂ h s → Throughout SameRequest h →
      ∀ x ∈ h, SameAnswer x := by
  intro hall
  obtain ⟨h, s, hrecord, hsame, x, hx, hstatus⟩ : ∃ h s, recordBoth (initial 0 1, initial 0 1)
      [(asksCreate "bob" "pw" [0] 2, asksCreate "Bob" "pw" [0] 2),
        (asksDel "bob" 2 [0, 2], asksDel "bob" 2 [0, 2])] = some (h, s) ∧
      Throughout SameRequest h ∧
      ∃ x ∈ h, x.action.1.response.status ≠ x.action.2.response.status :=
    ⟨_, _, rfl, throughout_sameRequest (by decide), by decide⟩
  exact hstatus (hall 0 1 h s (execution_of_recordBoth hrecord) hsame x hx).1

end Runs

end WsServer.Login
