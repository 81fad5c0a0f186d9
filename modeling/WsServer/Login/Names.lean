import WsServer.Login.Outcomes

/-!
# Names of active accounts

`CREATE` looks for a record with the requested name and password, deleted records included, where it
should look for an active account with the name; and `DEL` erases the index entry of a name without
looking whose entry it is. `uniqueNames_iff` and `indexed_iff` say for which requests this makes no
difference.
-/

set_option autoImplicit false
set_option relaxedAutoImplicit false

namespace WsServer.Login

open Foundations

/-! ### Names up to case -/

/-- An active account has this name, up to case. -/
def ActiveName (s : State) (name : String) : Prop :=
  ∃ u cred, s.entry u = some (cred, true) ∧ lower cred.username = lower name

/-- Active accounts differ in their names, up to case. -/
def UniqueNames (s : State) : Prop :=
  ∀ u v a b, s.entry u = some (a, true) → s.entry v = some (b, true) →
    lower a.username = lower b.username → u = v

/-- A `CREATE` fails and changes nothing exactly when an active account has the name. -/
def CreateDecides (x : Transition State Call) : Prop :=
  x.action.request.cmd = .create →
    ((x.action.response.status = .failure ∧ x.after = x.before) ↔
      ActiveName x.before x.action.request.logCredentials.username)

/-- The comparison of credentials tells what the comparison with the names of active accounts would
tell: when an active account has the name, some record of that name has the password; when none has,
the password is not that of a deleted record of that name. -/
def PasswordTells (s : State) (req : LoginRequest) : Prop :=
  req.cmd = .create →
    (ActiveName s req.logCredentials.username → s.Known req.logCredentials) ∧
    (¬ActiveName s req.logCredentials.username → req.logCredentials.password = "TOMBSTONE" →
      ∀ u found, s.entry u = some found →
        lower found.1.username ≠ lower req.logCredentials.username)

section UniqueNames

variable {s s' : State} {env : Environment} {req res : LoginRequest} {cred : LoginCredentials}

/-- Active accounts that keep their names stay apart. -/
theorem UniqueNames.mono (hunique : UniqueNames s)
    (hactive : ∀ v b, s'.entry v = some (b, true) → s.entry v = some (b, true)) : UniqueNames s' :=
  fun u v a b hu hv ↦ hunique u v a b (hactive u a hu) (hactive v b hv)

theorem uniqueNames_initial (g₁ g₂ : Uuid) : UniqueNames (initial g₁ g₂) := by
  intro u v a b hu hv _
  rw [eq_of_entry_initial hu, eq_of_entry_initial hv]

/-- A new account keeps the names apart when no active account has its name. -/
theorem uniqueNames_addAccount (hs : WellFormed s) (hunique : UniqueNames s) {u : Uuid}
    (hnew : u ∉ s.uuidTable) :
    UniqueNames (s.addAccount u cred) ↔ ¬ActiveName s cred.username := by
  have hne : ∀ v found, s.entry v = some found → v ≠ u := fun v found hv heq ↦
    hnew (heq ▸ hs.mem_of_entry hv)
  constructor
  · rintro hafter ⟨v, b, hv, hname⟩
    have hvu := hne v _ hv
    refine hvu (hafter v u b cred ?_ ?_ hname)
    · rw [entry_addAccount, if_neg hvu, hv]
    · rw [entry_addAccount, if_pos rfl]
  · intro hnone v w a b hv hw hname
    rw [entry_addAccount] at hv hw
    by_cases hvu : v = u
    · by_cases hwu : w = u
      · rw [hvu, hwu]
      · rw [if_pos hvu, Option.some_inj, Prod.mk.injEq] at hv
        rw [if_neg hwu] at hw
        exact absurd ⟨w, b, hw, by rw [← hname, hv.1]⟩ hnone
    · rw [if_neg hvu] at hv
      by_cases hwu : w = u
      · rw [if_pos hwu, Option.some_inj, Prod.mk.injEq] at hw
        exact absurd ⟨v, a, hv, by rw [hname, hw.1]⟩ hnone
      · rw [if_neg hwu] at hw
        exact hunique v w a b hv hw hname

/-- A request other than `CREATE` keeps the names apart. -/
theorem Outcome.uniqueNames (h : Outcome s env req s' res) (hcmd : req.cmd ≠ .create)
    (hunique : UniqueNames s) : UniqueNames s' := by
  cases h with
  | loggedIn _ hit _ => exact hunique.mono fun v b hv ↦ by rwa [entry_openSession hit] at hv
  | created hcreate => exact absurd hcreate hcmd
  | deleted =>
    apply hunique.mono
    intro v b hv
    rw [entry_bury] at hv
    split_ifs at hv with hvu
    · simp at hv
    · exact hv
  | loggedOut | rejected | duplicate | notCurrent | refused | ignored => exact hunique

/-- A record with the name of no active account is known by the password of the deleted. -/
theorem WellFormed.not_known_iff (hs : WellFormed s) (hnone : ¬ActiveName s cred.username) :
    ¬s.Known cred ↔ (cred.password = "TOMBSTONE" →
      ∀ u found, s.entry u = some found → lower found.1.username ≠ lower cred.username) := by
  have hdead : ∀ u (found : LoginCredentials × Bool), s.entry u = some found →
      lower found.1.username = lower cred.username → found.1.password = "TOMBSTONE" := by
    rintro u ⟨b, active⟩ hu hname
    cases active with
    | true => exact absurd ⟨u, b, hu, hname⟩ hnone
    | false => exact hs.password_of_dead hu
  constructor
  · intro hknown hpassword u found hu hname
    refine hknown ⟨u, found, hu, equal_iff.mpr ⟨hname, ?_⟩⟩
    rw [hdead u found hu hname, hpassword]
  · rintro htells ⟨u, found, hu, hequal⟩
    obtain ⟨hname, hpassword⟩ := equal_iff.mp hequal
    exact htells (by rw [← hpassword, hdead u found hu hname]) u found hu hname

/-- A request keeps the names apart and decides as it should exactly when the password tells. -/
theorem Outcome.passwordTells_iff (hs : WellFormed s) (hunique : UniqueNames s)
    (h : Outcome s env req s' res) :
    (UniqueNames s' ∧ (req.cmd = .create → ((res.status = .failure ∧ s' = s) ↔
      ActiveName s req.logCredentials.username))) ↔ PasswordTells s req := by
  by_cases hcmd : req.cmd = .create
  · unfold PasswordTells
    simp only [hcmd, true_imp_iff]
    rcases h.of_create hcmd with ⟨hknown, rfl, hstatus⟩ | ⟨hknown, hstatus, hnew, rfl⟩
    · by_cases hactive : ActiveName s' req.logCredentials.username
      · exact iff_of_true ⟨hunique, iff_of_true ⟨hstatus, rfl⟩ hactive⟩
          ⟨fun _ ↦ hknown, fun hnone ↦ absurd hactive hnone⟩
      · refine iff_of_false (fun hall ↦ hactive (hall.2.mp ⟨hstatus, rfl⟩)) fun htells ↦ ?_
        exact (hs.not_known_iff hactive).mpr (htells.2 hactive) hknown
    · have hstatus' : res.status ≠ .failure := by simp [hstatus]
      rw [uniqueNames_addAccount hs hunique hnew]
      by_cases hactive : ActiveName s req.logCredentials.username
      · exact iff_of_false (fun hall ↦ hall.1 hactive) fun htells ↦ hknown (htells.1 hactive)
      · refine iff_of_true ⟨hactive, iff_of_false (fun hfails ↦ hstatus' hfails.1) hactive⟩
          ⟨fun hyes ↦ absurd hyes hactive, fun _ ↦ (hs.not_known_iff hactive).mp hknown⟩
  · exact iff_of_true ⟨h.uniqueNames hcmd hunique, fun hcreate ↦ absurd hcreate hcmd⟩
      fun hcreate ↦ absurd hcreate hcmd

end UniqueNames

section Runs

variable {g₁ g₂ : Uuid} {h : List (Transition State Call)} {s : State}

/-- In a run the names of active accounts are unique in every state, and `CREATE` fails exactly on
the names in use, exactly when the password of every `CREATE` tells whether its name is in use. -/
theorem uniqueNames_iff (hrun : Run g₁ g₂ h s) :
    (UniqueNames (initial g₁ g₂) ∧ ∀ x ∈ h, UniqueNames x.after ∧ CreateDecides x) ↔
      ∀ x ∈ h, PasswordTells x.before x.action.request := by
  rw [← throughout_iff_mem, ← throughout_iff_mem, and_iff_right (uniqueNames_initial g₁ g₂)]
  refine Execution.throughout_iff (P := fun _ t ↦ UniqueNames t) (uniqueNames_initial g₁ g₂)
    (fun pre t c t' hpre _ ht hstep ↦ ?_) (fun _ _ _ _ _ _ _ hG ↦ hG.1) hrun throughout_true
  have hwell := wellFormed_of_run hpre
  exact (hwell.outcome hstep).passwordTells_iff hwell ht

/-- A run with a rejected duplicate and a reused name. -/
theorem uniqueNames_iff_example : ∃ h s, record (initial 0 1)
      [asksCreate "bob" "pw" [0] 2, asksCreate "Bob" "pw" [0, 2] 3, asksDel "bob" 2 [0, 2],
        asksCreate "bob" "pw" [2, 0] 3] = some (h, s) ∧
      ((UniqueNames (initial 0 1) ∧ ∀ x ∈ h, UniqueNames x.after ∧ CreateDecides x) ↔
        ∀ x ∈ h, PasswordTells x.before x.action.request) :=
  exists_record (P := fun _ _ ↦ True) ⟨_, _, rfl, trivial⟩ fun _ _ hrun _ ↦ uniqueNames_iff hrun

/-- The name `bob` is taken twice, with different passwords. -/
theorem names_not_unique :
    ¬∀ (g₁ g₂ : Uuid) h s, Run g₁ g₂ h s →
      UniqueNames (initial g₁ g₂) ∧ ∀ x ∈ h, UniqueNames x.after ∧ CreateDecides x := by
  intro hall
  obtain ⟨h, s, hrecord, x, hx, hbob, hBOB⟩ : ∃ h s, record (initial 0 1)
      [asksCreate "bob" "pw" [0] 2, asksCreate "BOB" "other" [0, 2] 3] = some (h, s) ∧
      ∃ x ∈ h, x.after.entry 2 = some ({ username := "bob", password := "pw" }, true) ∧
        x.after.entry 3 = some ({ username := "BOB", password := "other" }, true) :=
    ⟨_, _, rfl, by decide⟩
  have hunique := ((hall 0 1 h s (execution_of_record hrecord)).2 x hx).1
  exact absurd (hunique 2 3 _ _ hbob hBOB (by decide)) (by decide)

end Runs

end WsServer.Login
