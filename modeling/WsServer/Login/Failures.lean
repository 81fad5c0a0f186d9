import WsServer.Login.Outcomes

/-!
# What a request leaves alone

Every branch of `login` that ends with a failure has only looked at the tables, so that the state is
the one before (`Outcome.eq_of_failure`). `LOGIN` and `LOGOUT` write to the session, to the list of
active tokens and to the token of a record, and to nothing else.
-/

set_option autoImplicit false
set_option relaxedAutoImplicit false

namespace WsServer.Login

open Foundations

/-- The tables agree on names, credentials and active flags: they differ at most in the session, the
active tokens and the tokens of records. -/
structure SameAccounts (s s' : State) : Prop where
  uuidTable : s'.uuidTable = s.uuidTable
  nameToUUID : s'.nameToUUID = s.nameToUUID
  tombstonedAccountsTable : s'.tombstonedAccountsTable = s.tombstonedAccountsTable
  entry : ∀ u, s'.entry u = s.entry u

section Failures

variable {s s' : State} {env : Environment} {req res : LoginRequest}

theorem SameAccounts.refl (s : State) : SameAccounts s s :=
  ⟨rfl, rfl, rfl, fun _ ↦ rfl⟩

theorem sameAccounts_openSession {p : Uuid} {it : Account}
    (hit : s.accountTable.lookup p = some it) (token : String) :
    SameAccounts s (s.openSession p it token) :=
  ⟨rfl, rfl, rfl, fun u ↦ entry_openSession hit token u⟩

theorem sameAccounts_closeSession : SameAccounts s s.closeSession :=
  ⟨rfl, rfl, rfl, fun _ ↦ rfl⟩

/-- A request that fails has changed nothing. -/
theorem Outcome.eq_of_failure (h : Outcome s env req s' res) (hfailure : res.status = .failure) :
    s' = s := by
  cases h with
  | loggedIn | created | loggedOut | deleted => cases hfailure
  | rejected | duplicate | notCurrent | refused | ignored => rfl

theorem Outcome.sameAccounts (h : Outcome s env req s' res)
    (hcmd : req.cmd = .login ∨ req.cmd = .logout) : SameAccounts s s' := by
  cases h with
  | loggedIn _ hit _ => exact sameAccounts_openSession hit env.token
  | loggedOut => exact sameAccounts_closeSession
  | created hcreate => simp [hcreate] at hcmd
  | deleted hdel => simp [hdel] at hcmd
  | rejected | duplicate | notCurrent | refused | ignored => exact .refl s

end Failures

section Runs

variable {g₁ g₂ : Uuid} {h : List (Transition State Call)} {s : State}

/-- In every run, a request of any kind that fails leaves the state as it is, and `LOGIN` and
`LOGOUT` leave names, credentials and active flags alone, whatever their status. -/
theorem failure_changes_nothing (hrun : Run g₁ g₂ h s) {x : Transition State Call} (hx : x ∈ h) :
    (x.action.response.status = .failure → x.after = x.before) ∧
      (x.action.request.cmd = .login ∨ x.action.request.cmd = .logout →
        SameAccounts x.before x.after) := by
  obtain ⟨-, houtcome⟩ := outcome_of_run hrun hx
  exact ⟨houtcome.eq_of_failure, houtcome.sameAccounts⟩

/-- A run with a request of each kind that fails; the deletion meets the end of the input. -/
theorem failure_changes_nothing_example : ∃ h s, record (initial 0 1)
      [asksLogin "bob" "pw" [0] "t", asksCreate "bob" "pw" [0] 2, asksCreate "BOB" "pw" [0, 2] 3,
        asksLogout 2 [0, 2],
        ({ cmd := .del, logCredentials := { username := "bob", password := "" }, uuid := 2 },
          { order := [2, 0], generated := [], token := "", reply := none })] = some (h, s) ∧
      (h.map fun x ↦ x.action.response.status) =
        [.failure, .success, .failure, .success, .failure] ∧
      ∀ x ∈ h, x.action.response.status = .failure → x.after = x.before :=
  exists_record (P := fun h _ ↦ (h.map fun x ↦ x.action.response.status) =
      [.failure, .success, .failure, .success, .failure]) ⟨_, _, rfl, rfl⟩
    fun _ _ hrun hstatus ↦ ⟨hstatus, fun _ hx ↦ (failure_changes_nothing hrun hx).1⟩

end Runs

end WsServer.Login
