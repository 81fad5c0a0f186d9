import WsServer.Login.Deletion

/-!
# The current session

`LOGIN` writes one token to four places: the record, the session, the list of active tokens and,
through the pointer, the account of the session. `LOGOUT` takes it from the session and the list at
once. No other request touches them, so that they agree in every state (`coherent_of_run`).
-/

set_option autoImplicit false
set_option relaxedAutoImplicit false

namespace WsServer.Login

open Foundations

/-- The session has an account exactly when it has a token, and then the account is in the table
with this token, which is active. -/
structure Coherent (s : State) : Prop where
  null_iff : s.session.account = none ↔ s.session.sessiontoken = ""
  designates : ∀ p, s.session.account = some p → ∃ acc, s.accountTable.lookup p = some acc ∧
    acc.sessionToken = s.session.sessiontoken ∧ s.session.sessiontoken ∈ s.activeSession

section Coherent

variable {s s' : State} {env : Environment} {req res : LoginRequest}

theorem coherent_initial (g₁ g₂ : Uuid) : Coherent (initial g₁ g₂) :=
  ⟨iff_of_true rfl rfl, nofun⟩

theorem coherent_openSession {p : Uuid} {it : Account} {token : String} (htoken : token ≠ "") :
    Coherent (s.openSession p it token) := by
  refine ⟨iff_of_false nofun htoken, fun q hq ↦ ?_⟩
  obtain rfl := Option.some.inj hq
  exact ⟨_, AList.lookup_insert _, rfl,
    List.mem_append_right _ (List.mem_singleton_self _)⟩

theorem coherent_closeSession : Coherent s.closeSession :=
  ⟨iff_of_true rfl rfl, nofun⟩

/-- Writing a record keeps the session coherent when it keeps the token of a record that was
there. -/
theorem Coherent.of_insert (hs : Coherent s) {t : State} {u : Uuid} {acc : Account}
    (htable : t.accountTable = s.accountTable.insert u acc) (hsession : t.session = s.session)
    (hactive : t.activeSession = s.activeSession)
    (htoken : ∀ old, s.accountTable.lookup u = some old → acc.sessionToken = old.sessionToken) :
    Coherent t := by
  refine ⟨by rw [hsession]; exact hs.null_iff, fun p hp ↦ ?_⟩
  rw [hsession] at hp
  obtain ⟨old, hold, heq, hmem⟩ := hs.designates p hp
  rw [hsession, hactive, htable, lookup_insert_ite]
  by_cases hpu : p = u
  · subst hpu
    exact ⟨acc, if_pos rfl, (htoken old hold).trans heq, hmem⟩
  · exact ⟨old, (if_neg hpu).trans hold, heq, hmem⟩

/-- Every request keeps the session coherent. -/
theorem Outcome.coherent (hwell : WellFormed s) (hs : Coherent s) (h : Outcome s env req s' res)
    (htoken : req.cmd = .login ∧ res.status = .success → env.token ≠ "") : Coherent s' := by
  cases h with
  | loggedIn hcmd _ _ => exact coherent_openSession (htoken ⟨hcmd, rfl⟩)
  | loggedOut _ _ => exact coherent_closeSession
  | created _ _ hnew =>
    refine hs.of_insert rfl rfl rfl fun old hold ↦ ?_
    exact absurd (hwell.mem_uuidTable _ old hold) hnew
  | deleted _ hit _ =>
    refine hs.of_insert rfl rfl rfl fun old hold ↦ ?_
    obtain rfl := Option.some.inj (hit.symm.trans hold)
    rfl
  | rejected | duplicate | notCurrent | refused | ignored => exact hs

end Coherent

section Runs

variable {g₁ g₂ : Uuid} {h : List (Transition State Call)} {s : State}

/-- In every run with tokens that are not empty, the session is coherent in every state. -/
theorem coherent_of_run (hrun : Run g₁ g₂ h s)
    (htokens : ∀ x ∈ h, LoggedIn x → x.action.env.token ≠ "") : Coherent s := by
  have hboth : WellFormed s ∧ Coherent s := by
    refine hrun.invariant_of (P := fun s ↦ WellFormed s ∧ Coherent s)
      (C := fun _ c ↦ c.request.cmd = .login ∧ c.response.status = .success → c.env.token ≠ "")
      ⟨wellFormed_initial g₁ g₂, coherent_initial g₁ g₂⟩ (fun t c t' ⟨hwell, ht⟩ hc hstep ↦ ?_)
      htokens
    have houtcome := hwell.outcome hstep
    exact ⟨houtcome.wellFormed hwell, houtcome.coherent hwell ht hc⟩
  exact hboth.2

/-- Two users log in to one session with equal tokens; one of them is deleted and one logs out. -/
theorem coherent_of_run_example : ∃ h s, record (initial 0 1)
      [asksCreate "bob" "pw" [0] 2, asksLogin "Admin" "PASSWD" [2, 0] "t",
        asksLogin "bob" "pw" [0, 2] "t", asksDel "bob" 2 [0, 2], asksLogout 2 [0, 2]] =
        some (h, s) ∧ Coherent s :=
  exists_record (P := fun h _ ↦ ∀ x ∈ h, LoggedIn x → x.action.env.token ≠ "")
    ⟨_, _, rfl, by decide⟩ fun _ _ hrun htokens ↦ coherent_of_run hrun htokens

end Runs

end WsServer.Login
