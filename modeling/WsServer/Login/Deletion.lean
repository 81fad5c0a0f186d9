import WsServer.Login.Outcomes

/-!
# Deleted accounts

A deletion clears `active` and overwrites the password, but `LOGIN` compares credentials only. So
the overwritten password is a password: whoever presents it for the name of a deleted account is
let in. As long as nobody does, deleted accounts stay out (`deleted_stay_out`).
-/

set_option autoImplicit false
set_option relaxedAutoImplicit false

namespace WsServer.Login

open Foundations

/-- A `LOGIN` that ended with `SUCCESS`. -/
def LoggedIn (x : Transition State Call) : Prop :=
  x.action.request.cmd = .login ∧ x.action.response.status = .success

instance (x : Transition State Call) : Decidable (LoggedIn x) :=
  inferInstanceAs (Decidable (_ ∧ _))

/-- A `DEL` that ended with `SUCCESS`. -/
def Deleted (x : Transition State Call) : Prop :=
  x.action.request.cmd = .del ∧ x.action.response.status = .success

/-- Every `LOGIN` that succeeds selects an active account, and none that was deleted before. -/
structure DeletedStayOut (h : List (Transition State Call)) : Prop where
  active : ∀ x ∈ h, LoggedIn x → ∃ cred, x.before.entry x.action.response.uuid = some (cred, true)
  never_again : ∀ pre d post, h = pre ++ d :: post → Deleted d → ∀ x ∈ post, LoggedIn x →
    x.action.response.uuid ≠ d.action.request.uuid

/-- A `LOGIN` with the password that `DEL` leaves behind, for the name of a deleted account. -/
def PresentsTombstone (s : State) (req : LoginRequest) : Prop :=
  req.cmd = .login ∧ req.logCredentials.password = "TOMBSTONE" ∧
    ∃ u cred, s.entry u = some (cred, false) ∧
      lower cred.username = lower req.logCredentials.username

section Deletion

variable {s s' : State} {env : Environment} {req res : LoginRequest} {u : Uuid}
  {cred : LoginCredentials}

/-- No request revives a deleted account. -/
theorem Outcome.dead_stays (hs : WellFormed s) (h : Outcome s env req s' res)
    (hu : ∃ cred, s.entry u = some (cred, false)) : ∃ cred, s'.entry u = some (cred, false) := by
  cases h with
  | loggedIn _ hit _ =>
    rw [entry_openSession hit]
    exact hu
  | @created v _ _ hnew =>
    obtain ⟨cred, hcred⟩ := hu
    have huv : u ≠ v := fun heq ↦ hnew (heq ▸ hs.mem_of_entry hcred)
    exact ⟨cred, by rw [entry_addAccount, if_neg huv, hcred]⟩
  | deleted _ hit _ =>
    rw [entry_bury]
    by_cases huv : u = req.uuid
    · rw [if_pos huv]
      exact ⟨_, rfl⟩
    · rwa [if_neg huv]
  | loggedOut | rejected | duplicate | notCurrent | refused | ignored => exact hu

/-- A deleted account is dead. -/
theorem Outcome.dead_of_del (h : Outcome s env req s' res)
    (hdel : req.cmd = .del ∧ res.status = .success) :
    ∃ cred, s'.entry req.uuid = some (cred, false) := by
  rcases h.of_del hdel.1 with ⟨-, -, hfailure⟩ | ⟨-, -, it, -, rfl⟩
  · exact absurd (hfailure.symm.trans hdel.2) (by simp)
  · exact ⟨_, by rw [entry_bury, if_pos rfl]⟩

/-- `LOGIN` selects an active account unless it presents the password of a deleted one. -/
theorem Outcome.active_of_login (hs : WellFormed s) (h : Outcome s env req s' res)
    (hcmd : req.cmd = .login) (hsuccess : res.status = .success) (hnot : ¬PresentsTombstone s req) :
    ∃ cred, s.entry res.uuid = some (cred, true) := by
  obtain ⟨p, it, hit, hequal, -, rfl⟩ := h.of_login hcmd hsuccess
  have hentry := entry_of_lookup hit
  cases hactive : it.active with
  | true => exact ⟨it.loginCred, by rw [hentry, hactive]⟩
  | false =>
    rw [hactive] at hentry
    obtain ⟨hname, hpassword⟩ := equal_iff.mp hequal
    rw [hs.password_of_dead hentry] at hpassword
    exact absurd ⟨hcmd, hpassword.symm, res.uuid, it.loginCred, hentry, hname⟩ hnot

/-- A `LOGIN` with the password of a deleted account succeeds on it when it comes first. -/
theorem login_dead (hs : WellFormed s) (hpresents : PresentsTombstone s req) (env : Environment) :
    ∃ order, order.Perm s.accountTable.keys ∧ ∃ s' res cred,
      login s { env with order := order } req = some (s', res) ∧ res.status = .success ∧
      s.entry res.uuid = some (cred, false) := by
  obtain ⟨hcmd, hpassword, u, cred, hu, hname⟩ := hpresents
  obtain ⟨acc, hacc, heq⟩ := Option.map_eq_some_iff.mp hu
  obtain ⟨rfl, hdead⟩ := Prod.mk.inj heq
  have hequal : acc.loginCred.equal req.logCredentials = true :=
    equal_iff.mpr ⟨hname, by rw [hs.dead u acc hacc hdead, hpassword]⟩
  have hkey : u ∈ s.accountTable.keys :=
    AList.mem_keys.mp (AList.lookup_isSome.mp (by simp [hacc]))
  have hfind : s.findIf (u :: s.accountTable.keys.erase u) req.logCredentials = some (u, acc) := by
    simp [State.findIf, hacc, hequal]
  refine ⟨u :: s.accountTable.keys.erase u, (List.perm_cons_erase hkey).symm,
    s.openSession u acc env.token, { req with uuid := u, status := .success }, acc.loginCred, ?_,
    rfl, hu⟩
  unfold login
  simp only [hcmd, hfind, hs.uuid_eq u acc hacc, State.openSession]

end Deletion

section Runs

variable {g₁ g₂ : Uuid} {h : List (Transition State Call)} {s : State}

/-- An account that is dead stays so over the rest of a run. -/
theorem dead_after (hs : WellFormed s) {u : Uuid} (hu : ∃ cred, s.entry u = some (cred, false))
    {s' : State} (hrun : Execution Step s h s') : ∃ cred, s'.entry u = some (cred, false) := by
  have hboth : WellFormed s' ∧ ∃ cred, s'.entry u = some (cred, false) := by
    refine hrun.invariant (P := fun t ↦ WellFormed t ∧ ∃ cred, t.entry u = some (cred, false))
      ⟨hs, hu⟩ fun t c t' ht hstep ↦ ?_
    have houtcome := ht.1.outcome hstep
    exact ⟨houtcome.wellFormed ht.1, houtcome.dead_stays ht.1 ht.2⟩
  exact hboth.2

/-- In every run in which no `LOGIN` presents the password that `DEL` leaves behind for the name of
a deleted account, deleted accounts stay out. And no weaker condition will do: a `LOGIN` that does
present it ends with `SUCCESS` on a deleted account, for a suitable order of the hash map. -/
theorem deleted_stay_out (hrun : Run g₁ g₂ h s) :
    ((∀ x ∈ h, ¬PresentsTombstone x.before x.action.request) → DeletedStayOut h) ∧
      ∀ req, PresentsTombstone s req → ∀ env : Environment, ∃ order : List Uuid,
        order.Perm s.accountTable.keys ∧ ∃ s' res cred,
          login s { env with order := order } req = some (s', res) ∧ res.status = .success ∧
          s.entry res.uuid = some (cred, false) := by
  refine ⟨fun hnot ↦ ?_, fun req hpresents env ↦ login_dead (wellFormed_of_run hrun) hpresents env⟩
  have hactive : ∀ x ∈ h, LoggedIn x →
      ∃ cred, x.before.entry x.action.response.uuid = some (cred, true) := fun x hx hlogin ↦ by
    obtain ⟨hs, houtcome⟩ := outcome_of_run hrun hx
    exact houtcome.active_of_login hs hlogin.1 hlogin.2 (hnot x hx)
  refine ⟨hactive, fun pre d post hsplit hdel x hx hlogin heq ↦ ?_⟩
  obtain ⟨hs, houtcome⟩ := outcome_of_run hrun (x := d) (by simp [hsplit])
  obtain ⟨mid, hmid, -⟩ := hrun.between hsplit hx
  obtain ⟨cred, hcred⟩ := dead_after (houtcome.wellFormed hs) (houtcome.dead_of_del hdel) hmid
  obtain ⟨cred', hcred'⟩ := hactive x (by simp [hsplit, hx]) hlogin
  rw [heq, hcred] at hcred'
  simp at hcred'

/-- A run in which the deleted account does not log in any more. -/
theorem deleted_stay_out_example : ∃ h s, record (initial 0 1)
      [asksCreate "bob" "pw" [0] 2, asksLogin "Bob" "pw" [0, 2] "t", asksDel "bob" 2 [0, 2],
        asksLogin "bob" "pw" [2, 0] "t"] = some (h, s) ∧ DeletedStayOut h := by
  refine exists_record (P := fun h _ ↦ ∀ x ∈ h,
      x.action.request.logCredentials.password ≠ "TOMBSTONE") ⟨_, _, rfl, by decide⟩
    fun h s hrun hall ↦ ?_
  exact (deleted_stay_out hrun).1 fun x hx hpresents ↦ hall x hx hpresents.2.1

/-- The account is created, deleted and logged in to with the password that `DEL` left behind. -/
theorem deleted_account_logs_in :
    ¬∀ (g₁ g₂ : Uuid) h s, Run g₁ g₂ h s → DeletedStayOut h := by
  intro hall
  obtain ⟨h, s, hrecord, x, hx, hlogin, hdead⟩ : ∃ h s,
      record (initial 0 1) [asksCreate "bob" "pw" [0] 2, asksDel "bob" 2 [0, 2],
        asksLogin "Bob" "TOMBSTONE" [0, 2] "t"] = some (h, s) ∧ ∃ x ∈ h, LoggedIn x ∧
        (x.before.entry x.action.response.uuid).map Prod.snd = some false :=
    ⟨_, _, rfl, by decide⟩
  obtain ⟨cred, hcred⟩ := (hall 0 1 h s (execution_of_record hrecord)).active x hx hlogin
  simp [hcred] at hdead

end Runs

end WsServer.Login
