import WsServer.Login.Deletion

/-!
# Session tokens

Every `LOGIN` adds a token to `activeSession`, but only one session is remembered: `LOGOUT` revokes
the token of that session, and only when it is a session of the account that logs out; `DEL` revokes
nothing. `revoked_iff` says for which requests all tokens of an account are revoked.
-/

set_option autoImplicit false
set_option relaxedAutoImplicit false

namespace WsServer.Login

open Foundations

/-! ### Tokens in a run -/

/-- A `LOGIN` to `u` that made the token `token`. -/
def Issues (x : Transition State Call) (u : Uuid) (token : String) : Prop :=
  LoggedIn x ∧ x.action.response.uuid = u ∧ x.action.env.token = token

/-- A `LOGOUT` with the uuid `u`, or a `DEL` of it, that ended with `SUCCESS`. -/
def Ends (x : Transition State Call) (u : Uuid) : Prop :=
  (x.action.request.cmd = .logout ∨ x.action.request.cmd = .del) ∧ x.action.request.uuid = u ∧
    x.action.response.status = .success

instance (x : Transition State Call) (u : Uuid) (token : String) : Decidable (Issues x u token) :=
  inferInstanceAs (Decidable (_ ∧ _))

instance (x : Transition State Call) (u : Uuid) : Decidable (Ends x u) :=
  inferInstanceAs (Decidable (_ ∧ _))

variable (h : List (Transition State Call))

def Issued (u : Uuid) (token : String) : Prop := ∃ x ∈ h, Issues x u token

/-- The token was issued to some account that was logged out or deleted after that. -/
def Revoked (token : String) : Prop :=
  ∃ pre x post u, h = pre ++ x :: post ∧ Issues x u token ∧ ∃ y ∈ post, Ends y u

def issuedTokens : List String :=
  h.filterMap fun x ↦ if LoggedIn x then some x.action.env.token else none

/-- No token that should be revoked is active. -/
def TokensRevoked (s : State) : Prop := ∀ token, Revoked h token → token ∉ s.activeSession

/-- A deleted account is not that of the session. -/
def SessionRevoked (x : Transition State Call) : Prop :=
  Deleted x → x.after.session.account ≠ some x.action.request.uuid

/-- At a `LOGOUT` the session is the only one of the account; at a `DEL` that goes through the
account has none. -/
def OnlySession (x : Transition State Call) : Prop :=
  (x.action.request.cmd = .logout → ∀ token, Issued h x.action.request.uuid token →
    token ∈ x.before.activeSession →
    x.before.session = { sessiontoken := token, account := some x.action.request.uuid }) ∧
  (x.action.request.cmd = .del → x.before.Deletes x.action.env x.action.request →
    (∀ token, Issued h x.action.request.uuid token → token ∉ x.before.activeSession) ∧
    x.before.session.account ≠ some x.action.request.uuid)

section Tokens

variable {h} {x : Transition State Call} {s s' : State} {u : Uuid} {token : String}
  {env : Environment} {req res : LoginRequest}

theorem Revoked.issued (hrevoked : Revoked h token) : ∃ u, Issued h u token := by
  obtain ⟨pre, x, post, u, rfl, hissues, -⟩ := hrevoked
  exact ⟨u, x, by simp, hissues⟩

theorem revoked_concat :
    Revoked (h ++ [x]) token ↔ Revoked h token ∨ ∃ u, Issued h u token ∧ Ends x u := by
  constructor
  · rintro ⟨pre, y, post, u, hsplit, hissues, z, hz, hends⟩
    rcases concat_eq_split hsplit with ⟨-, -, rfl⟩ | ⟨post', rfl, rfl⟩
    · exact absurd hz List.not_mem_nil
    · rcases List.mem_append.mp hz with hz | hz
      · exact Or.inl ⟨pre, y, post', u, rfl, hissues, z, hz, hends⟩
      · obtain rfl := List.mem_singleton.mp hz
        exact Or.inr ⟨u, ⟨y, by simp, hissues⟩, hends⟩
  · rintro (⟨pre, y, post, u, rfl, hissues, z, hz, hends⟩ | ⟨u, ⟨y, hy, hissues⟩, hends⟩)
    · exact ⟨pre, y, post ++ [x], u, by simp, hissues, z, by simp [hz], hends⟩
    · obtain ⟨pre, post, rfl⟩ := List.append_of_mem hy
      exact ⟨pre, y, post ++ [x], u, by simp, hissues, x, by simp, hends⟩

/-- Distinct tokens are new when they are issued. -/
theorem new_of_nodup (hfresh : (issuedTokens h).Nodup) :
    Throughout (fun pre x ↦ LoggedIn x → ∀ u, ¬Issued pre u x.action.env.token) h := by
  rintro pre x post rfl hlogin u ⟨y, hy, hylogin, -, htoken⟩
  have hmem : x.action.env.token ∈ issuedTokens pre :=
    List.mem_filterMap.mpr ⟨y, hy, by rw [if_pos hylogin, htoken]⟩
  rw [issuedTokens, List.filterMap_append, List.nodup_append] at hfresh
  exact hfresh.2.2 _ hmem _ (List.mem_filterMap.mpr ⟨x, List.mem_cons_self, if_pos hlogin⟩) rfl

/-- When a step adds no token that was issued before, only the tokens it ends matter. -/
theorem tokensRevoked_concat (hP : TokensRevoked h s)
    (hadd : ∀ token ∈ s'.activeSession, token ∈ s.activeSession ∨ ∀ u, ¬Issued h u token) :
    TokensRevoked (h ++ [x]) s' ↔
      ∀ u token, Ends x u → Issued h u token → token ∉ s'.activeSession := by
  unfold TokensRevoked
  constructor
  · exact fun hall u token hends hissued ↦
      hall token (revoked_concat.mpr (Or.inr ⟨u, hissued, hends⟩))
  · intro hall token hrevoked
    rcases revoked_concat.mp hrevoked with hold | ⟨u, hissued, hends⟩
    · intro hmem
      obtain ⟨u, hissued⟩ := hold.issued
      exact (hadd token hmem).elim (hP token hold) fun hnew ↦ hnew u hissued
    · exact hall u token hends hissued

/-- Tokens that are added were not issued before. -/
theorem Outcome.token_cases (houtcome : Outcome s env req s' res)
    (hnew : req.cmd = .login ∧ res.status = .success → ∀ u, ¬Issued h u env.token) :
    ∀ token ∈ s'.activeSession, token ∈ s.activeSession ∨ ∀ u, ¬Issued h u token := by
  cases houtcome with
  | loggedIn hcmd _ _ =>
    intro token htoken
    rcases List.mem_append.mp htoken with hold | hmade
    · exact Or.inl hold
    · rw [List.mem_singleton.mp hmade]
      exact Or.inr (hnew ⟨hcmd, rfl⟩)
  | loggedOut => exact fun token htoken ↦ Or.inl (List.mem_of_mem_filter htoken)
  | created | deleted | rejected | duplicate | notCurrent | refused | ignored =>
    exact fun token htoken ↦ Or.inl htoken

/-- A successful `LOGOUT` or `DEL` ends the tokens of its uuid. -/
theorem forall_ends_iff (hcmd : x.action.request.cmd = .logout ∨ x.action.request.cmd = .del)
    (hsuccess : x.action.response.status = .success) {Q : String → Prop} :
    (∀ u token, Ends x u → Issued h u token → Q token) ↔
      ∀ token, Issued h x.action.request.uuid token → Q token := by
  constructor
  · exact fun hall token hissued ↦ hall _ token ⟨hcmd, rfl, hsuccess⟩ hissued
  · rintro hall u token ⟨-, rfl, -⟩ hissued
    exact hall token hissued

/-- A `LOGOUT` revokes the tokens of its account exactly when it has no session but the current. -/
theorem Outcome.logout_revokes_iff (houtcome : Outcome s env req s' res)
    (hcmd : req.cmd = .logout) (token : String) :
    token ∉ s'.activeSession ↔ (token ∈ s.activeSession →
      s.session = { sessiontoken := token, account := some req.uuid }) := by
  rcases (houtcome.of_logout hcmd).2 with ⟨hsession, rfl⟩ | ⟨hsession, rfl⟩
  · have hcurrent : s.session = { sessiontoken := token, account := some req.uuid } ↔
        s.session.sessiontoken = token := by
      rw [Session.ext_iff]
      exact and_iff_left hsession
    rw [hcurrent]
    simp only [State.closeSession, List.mem_filter, ne_eq, decide_eq_true_eq, not_and, not_not,
      eq_comm (a := token)]
  · have hcurrent : s'.session ≠ { sessiontoken := token, account := some req.uuid } :=
      fun heq ↦ hsession (by rw [heq])
    exact ⟨fun hnot hmem ↦ absurd hmem hnot, fun himp hmem ↦ hcurrent (himp hmem)⟩

/-- A request revokes what it should exactly when it meets the only session. -/
theorem Outcome.onlySession_iff (hP : TokensRevoked h s)
    (hnew : LoggedIn ⟨s, ⟨req, env, res⟩, s'⟩ → ∀ u, ¬Issued h u env.token)
    (houtcome : Outcome s env req s' res) :
    (TokensRevoked (h ++ [⟨s, ⟨req, env, res⟩, s'⟩]) s' ∧
      SessionRevoked ⟨s, ⟨req, env, res⟩, s'⟩) ↔ OnlySession h ⟨s, ⟨req, env, res⟩, s'⟩ := by
  rw [tokensRevoked_concat hP (houtcome.token_cases hnew)]
  unfold SessionRevoked OnlySession
  by_cases hlogout : req.cmd = .logout
  · rw [forall_ends_iff (Or.inl hlogout) (houtcome.of_logout hlogout).1]
    simp only [Deleted, hlogout, reduceCtorEq, false_and, false_imp_iff, and_true, true_imp_iff,
      houtcome.logout_revokes_iff hlogout]
  · by_cases hdel : req.cmd = .del
    · rcases houtcome.of_del hdel with ⟨hdeletes, rfl, hstatus⟩ | ⟨hdeletes, hstatus, it, -, rfl⟩
      · refine iff_of_true ⟨fun u token hends ↦ ?_, fun hdeleted ↦ ?_⟩
          ⟨fun hcmd ↦ absurd hcmd hlogout, fun _ hyes ↦ absurd hyes hdeletes⟩
        · exact absurd (hstatus.symm.trans hends.2.2) (by simp)
        · exact absurd (hstatus.symm.trans hdeleted.2) (by simp)
      · rw [forall_ends_iff (Or.inr hdel) hstatus]
        simp [Deleted, hdel, hstatus, hdeletes, State.bury]
    · refine iff_of_true ⟨fun u token hends ↦ absurd hends.1 (not_or.mpr ⟨hlogout, hdel⟩),
        fun hdeleted ↦ absurd hdeleted.1 hdel⟩ ⟨fun hcmd ↦ absurd hcmd hlogout,
        fun hcmd ↦ absurd hcmd hdel⟩

/-- A dead account does not become that of the session. -/
theorem Outcome.session_ne (hs : WellFormed s) (houtcome : Outcome s env req s' res)
    (hnot : ¬PresentsTombstone s req) (hdead : ∃ cred, s.entry u = some (cred, false))
    (hsession : s.session.account ≠ some u) : s'.session.account ≠ some u := by
  by_cases hlogin : req.cmd = .login ∧ res.status = .success
  · obtain ⟨p, it, -, -, rfl, rfl⟩ := houtcome.of_login hlogin.1 hlogin.2
    obtain ⟨cred, hcred⟩ := houtcome.active_of_login hs hlogin.1 hlogin.2 hnot
    obtain ⟨cred', hcred'⟩ := hdead
    intro heq
    obtain rfl : res.uuid = u := Option.some.inj heq
    rw [hcred] at hcred'
    simp at hcred'
  · cases houtcome with
    | loggedIn hcmd _ _ => exact absurd ⟨hcmd, rfl⟩ hlogin
    | loggedOut => simp [State.closeSession]
    | created | deleted | rejected | duplicate | notCurrent | refused | ignored => exact hsession

end Tokens

section Runs

variable {g₁ g₂ : Uuid} {h : List (Transition State Call)} {s : State}

/-- A dead account stays out of the session for the rest of a run. -/
theorem session_after (hs : WellFormed s) {u : Uuid}
    (hdead : ∃ cred, s.entry u = some (cred, false)) (hsession : s.session.account ≠ some u)
    {s' : State} (hrun : Execution Step s h s')
    (hnot : ∀ x ∈ h, ¬PresentsTombstone x.before x.action.request) :
    s'.session.account ≠ some u := by
  have hall : WellFormed s' ∧ (∃ cred, s'.entry u = some (cred, false)) ∧
      s'.session.account ≠ some u := by
    refine hrun.invariant_of (P := fun t ↦ WellFormed t ∧
      (∃ cred, t.entry u = some (cred, false)) ∧ t.session.account ≠ some u)
      (C := fun t c ↦ ¬PresentsTombstone t c.request) ⟨hs, hdead, hsession⟩
      (fun t c t' ht hc hstep ↦ ?_) hnot
    obtain ⟨hwell, hdead, hsession⟩ := ht
    have houtcome := hwell.outcome hstep
    exact ⟨houtcome.wellFormed hwell, houtcome.dead_stays hwell hdead,
      houtcome.session_ne hwell hc hdead hsession⟩
  exact hall.2.2

/-- With fresh tokens, after every request of a run all tokens are revoked that should be, and no
`DEL` leaves the session with the account it deletes, exactly when every `LOGOUT` meets the only
session of its account and every `DEL` that goes through meets none. In such a run, and if no
`LOGIN` presents the password of a deleted account, a deleted account is never again that of the
session. -/
theorem revoked_iff (hrun : Run g₁ g₂ h s) (hfresh : (issuedTokens h).Nodup) :
    (Throughout (fun pre x ↦ TokensRevoked (pre ++ [x]) x.after ∧ SessionRevoked x) h ↔
      Throughout OnlySession h) ∧
    (Throughout OnlySession h → (∀ x ∈ h, ¬PresentsTombstone x.before x.action.request) →
      ∀ pre d post, h = pre ++ d :: post → Deleted d → ∀ x ∈ post,
        x.after.session.account ≠ some d.action.request.uuid) := by
  have hiff : Throughout (fun pre x ↦ TokensRevoked (pre ++ [x]) x.after ∧ SessionRevoked x) h ↔
      Throughout OnlySession h := by
    refine Execution.throughout_iff (P := TokensRevoked) (fun token hrevoked ↦ ?_)
      (fun pre t c t' hpre hnew ht hstep ↦ ?_) (fun _ _ _ _ _ _ _ hG ↦ hG.1) hrun
      (new_of_nodup hfresh)
    · obtain ⟨u, x, hx, -⟩ := hrevoked.issued
      exact absurd hx List.not_mem_nil
    · exact Outcome.onlySession_iff ht hnew ((wellFormed_of_run hpre).outcome hstep)
  refine ⟨hiff, fun honly hnot pre d post hsplit hdel x hx ↦ ?_⟩
  obtain ⟨hs, houtcome⟩ := outcome_of_run hrun (x := d) (by simp [hsplit])
  have hsession := (hiff.mpr honly pre d post hsplit).2 hdel
  obtain ⟨mid, hmid, hstep, hsub⟩ := hrun.between hsplit hx
  refine session_after (houtcome.wellFormed hs) (houtcome.dead_of_del hdel) hsession
    (hmid.snoc hstep) fun y hy ↦ hnot y ?_
  have hpost := hsub y hy
  simp [hsplit, hpost]

/-- Two users, one after the other. -/
theorem revoked_iff_example : ∃ h s, record (initial 0 1)
      [asksCreate "bob" "pw" [0] 2, asksLogin "Admin" "PASSWD" [2, 0] "a", asksLogout 0 [0, 2],
        asksLogin "bob" "pw" [0, 2] "b", asksLogout 2 [0, 2], asksDel "bob" 2 [0, 2]] =
        some (h, s) ∧
      (Throughout (fun pre x ↦ TokensRevoked (pre ++ [x]) x.after ∧ SessionRevoked x) h ↔
        Throughout OnlySession h) :=
  exists_record (P := fun h _ ↦ (issuedTokens h).Nodup) ⟨_, _, rfl, by decide⟩
    fun _ _ hrun hfresh ↦ (revoked_iff hrun hfresh).1

/-- After two logins of one user a `LOGOUT` leaves the first token active. -/
theorem tokens_not_revoked :
    ¬∀ (g₁ g₂ : Uuid) h s, Run g₁ g₂ h s → (issuedTokens h).Nodup →
      TokensRevoked h s ∧ ∀ x ∈ h, SessionRevoked x := by
  intro hall
  obtain ⟨x, y, z, s, hrecord, hfresh, hissues, hends, hactive⟩ : ∃ x y z s, record (initial 0 1)
      [asksLogin "Admin" "PASSWD" [0] "a", asksLogin "Admin" "PASSWD" [0] "b", asksLogout 0 [0]] =
        some ([x, y, z], s) ∧
      (issuedTokens [x, y, z]).Nodup ∧ Issues x 0 "a" ∧ Ends z 0 ∧ "a" ∈ s.activeSession :=
    ⟨_, _, _, _, rfl, by decide, by decide, by decide, by decide⟩
  have hrevoked : Revoked [x, y, z] "a" := ⟨[], x, [y, z], 0, rfl, hissues, z, by simp, hends⟩
  exact (hall 0 1 [x, y, z] s (execution_of_record hrecord) hfresh).1 "a" hrevoked hactive

end Runs

end WsServer.Login
