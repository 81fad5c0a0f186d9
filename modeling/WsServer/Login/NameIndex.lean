import WsServer.Login.Outcomes

/-!
# The index of names

`nameToUUID` is meant to list the active accounts under their names. `CREATE` overwrites the entry
of a name and `DEL` erases it, in both cases without a look at whose entry it is. `indexed_iff`
says for which requests the index stays exact.
-/

set_option autoImplicit false
set_option relaxedAutoImplicit false

namespace WsServer.Login

open Foundations

/-- The account `u` is active and has exactly this name. -/
def Named (s : State) (name : String) (u : Uuid) : Prop :=
  ∃ cred, s.entry u = some (cred, true) ∧ cred.username = name

/-- The index holds the active accounts under their names and nothing else. -/
def Indexed (s : State) : Prop := ∀ name u, s.nameToUUID.lookup name = some u ↔ Named s name u

/-- A `DEL` leaves the index entries of the other active accounts alone. -/
def DelSpares (x : Transition State Call) : Prop :=
  x.action.request.cmd = .del → ∀ name v cred, v ≠ x.action.request.uuid →
    x.before.entry v = some (cred, true) → x.before.nameToUUID.lookup name = some v →
    x.after.nameToUUID.lookup name = some v

/-- A `CREATE` that finds no record with its credentials meets no active account of exactly its
name, and a `DEL` that goes through meets none but the account it deletes. -/
def NameFree (s : State) (env : Environment) (req : LoginRequest) : Prop :=
  (req.cmd = .create → ¬s.Known req.logCredentials → ∀ v, ¬Named s req.logCredentials.username v) ∧
    (req.cmd = .del → s.Deletes env req →
      ∀ v, v ≠ req.uuid → ¬Named s req.logCredentials.username v)

section Index

variable {s s' : State} {env : Environment} {req res : LoginRequest} {cred : LoginCredentials}
  {it : Account} {u v : Uuid} {name : String}

theorem named_congr (hentry : ∀ v, s'.entry v = s.entry v) : Named s' name u ↔ Named s name u := by
  unfold Named
  rw [hentry u]

theorem named_addAccount : Named (s.addAccount u cred) name v ↔
    if v = u then cred.username = name else Named s name v := by
  unfold Named
  rw [entry_addAccount]
  by_cases hvu : v = u <;> simp [hvu]

theorem named_bury : Named (s.bury u it) name v ↔ v ≠ u ∧ Named s name v := by
  unfold Named
  rw [entry_bury]
  by_cases hvu : v = u <;> simp [hvu]

theorem WellFormed.mem_of_named (hs : WellFormed s) (hv : Named s name v) : v ∈ s.uuidTable := by
  obtain ⟨cred, hcred, -⟩ := hv
  exact hs.mem_of_entry hcred

theorem indexed_initial (g₁ g₂ : Uuid) : Indexed (initial g₁ g₂) := by
  intro name u
  unfold Named State.entry initial
  rw [lookup_singleton_ite, lookup_singleton_ite]
  by_cases hu : u = g₁
  · simp [hu, eq_comm]
  · simp [hu, Ne.symm hu]

/-- A new account is indexed well exactly when its name was free. -/
theorem indexed_addAccount (hs : WellFormed s) (hindexed : Indexed s) (hnew : u ∉ s.uuidTable) :
    Indexed (s.addAccount u cred) ↔ ∀ v, ¬Named s cred.username v := by
  have hlookup : ∀ name, (s.addAccount u cred).nameToUUID.lookup name =
      if name = cred.username then some u else s.nameToUUID.lookup name :=
    fun name ↦ lookup_insert_ite s.nameToUUID cred.username name u
  constructor
  · intro hafter v hv
    have hvu : v ≠ u := fun heq ↦ hnew (heq ▸ hs.mem_of_named hv)
    have hentry := (hafter cred.username v).mpr (named_addAccount.mpr (by rwa [if_neg hvu]))
    rw [hlookup, if_pos rfl] at hentry
    exact hvu (Option.some.inj hentry).symm
  · intro hfree name v
    rw [hlookup, named_addAccount]
    by_cases hname : name = cred.username
    · subst hname
      by_cases hvu : v = u
      · simp [hvu]
      · simp [hvu, hfree v, Ne.symm hvu]
    · by_cases hvu : v = u
      · subst hvu
        rw [if_neg hname, if_pos rfl]
        refine iff_of_false (fun hold ↦ ?_) (Ne.symm hname)
        exact hnew (hs.mem_of_named ((hindexed name v).mp hold))
      · rw [if_neg hname, if_neg hvu]
        exact hindexed name v

/-- After a deletion the index is exact when no other active account had the name. -/
theorem indexed_bury (hindexed : Indexed s) (hit : s.accountTable.lookup u = some it) :
    Indexed (s.bury u it) ↔ ∀ v, v ≠ u → ¬Named s it.loginCred.username v := by
  have hlookup : ∀ name, (s.bury u it).nameToUUID.lookup name =
      if name = it.loginCred.username then none else s.nameToUUID.lookup name :=
    fun name ↦ lookup_erase_ite s.nameToUUID it.loginCred.username name
  constructor
  · intro hafter v hvu hv
    have hentry := (hafter it.loginCred.username v).mpr (named_bury.mpr ⟨hvu, hv⟩)
    rw [hlookup, if_pos rfl] at hentry
    simp at hentry
  · intro hfree name v
    rw [hlookup, named_bury]
    by_cases hname : name = it.loginCred.username
    · subst hname
      rw [if_pos rfl]
      exact iff_of_false (by simp) fun hnamed ↦ hfree v hnamed.1 hnamed.2
    · rw [if_neg hname, hindexed name v]
      refine ⟨fun hv ↦ ⟨fun hvu ↦ hname ?_, hv⟩, fun hv ↦ hv.2⟩
      obtain ⟨cred, hcred, hnamed⟩ := hv
      rw [hvu, entry_of_lookup hit, Option.some_inj, Prod.mk.injEq] at hcred
      rw [← hnamed, ← hcred.1]

/-- Requests that change no names keep the index. -/
theorem Indexed.congr (hindexed : Indexed s) (hindex : s'.nameToUUID = s.nameToUUID)
    (hentry : ∀ v, s'.entry v = s.entry v) : Indexed s' := fun name u ↦ by
  rw [hindex, named_congr hentry]
  exact hindexed name u

/-- A request keeps the index exact exactly when its name is free. -/
theorem Outcome.nameFree_iff (hs : WellFormed s) (hindexed : Indexed s)
    (h : Outcome s env req s' res) : Indexed s' ↔ NameFree s env req := by
  unfold NameFree
  cases h with
  | created hcmd hknown hnew =>
    rw [indexed_addAccount hs hindexed hnew]
    simp [hcmd, hknown]
  | @deleted it hcmd hit hdeletes =>
    obtain ⟨found, hfound, hname⟩ := hdeletes.1
    rw [entry_of_lookup hit, Option.some_inj] at hfound
    subst hfound
    rw [indexed_bury hindexed hit, hname]
    simp [hcmd, hdeletes]
  | duplicate hcmd hknown => exact iff_of_true hindexed (by simp [hcmd, hknown])
  | refused hcmd hdeletes => exact iff_of_true hindexed (by simp [hcmd, hdeletes])
  | loggedIn hcmd hit _ =>
    exact iff_of_true (hindexed.congr rfl (entry_openSession hit env.token)) (by simp [hcmd])
  | loggedOut hcmd _ => exact iff_of_true (hindexed.congr rfl fun _ ↦ rfl) (by simp [hcmd])
  | rejected hcmd _ => exact iff_of_true hindexed (by simp [hcmd])
  | notCurrent hcmd _ => exact iff_of_true hindexed (by simp [hcmd])
  | ignored hcmd => exact iff_of_true hindexed (by simp [hcmd])

/-- As long as the index is exact, a deletion removes no entry of another active account. -/
theorem Outcome.spares (hindexed : Indexed s) (hindexed' : Indexed s')
    (h : Outcome s env req s' res) (hcmd : req.cmd = .del) (hvu : v ≠ req.uuid)
    (hlookup : s.nameToUUID.lookup name = some v) : s'.nameToUUID.lookup name = some v := by
  rcases h.of_del hcmd with ⟨-, rfl, -⟩ | ⟨-, -, it, -, rfl⟩
  · exact hlookup
  · exact (hindexed' name v).mpr (named_bury.mpr ⟨hvu, (hindexed name v).mp hlookup⟩)

end Index

section Runs

variable {g₁ g₂ : Uuid} {h : List (Transition State Call)} {s : State}

/-- In a run the index holds exactly the active accounts in every state, and no `DEL` removes the
entry of another active account, exactly when every `CREATE` that stores an account and every `DEL`
that goes through finds its name free of other active accounts. -/
theorem indexed_iff (hrun : Run g₁ g₂ h s) :
    (Indexed (initial g₁ g₂) ∧ ∀ x ∈ h, Indexed x.after ∧ DelSpares x) ↔
      ∀ x ∈ h, NameFree x.before x.action.env x.action.request := by
  rw [← throughout_iff_mem, ← throughout_iff_mem, and_iff_right (indexed_initial g₁ g₂)]
  refine Execution.throughout_iff (P := fun _ t ↦ Indexed t) (indexed_initial g₁ g₂)
    (fun pre t c t' hpre _ ht hstep ↦ ?_) (fun _ _ _ _ _ _ _ hG ↦ hG.1) hrun throughout_true
  have hwell := wellFormed_of_run hpre
  have houtcome := hwell.outcome hstep
  rw [← houtcome.nameFree_iff hwell ht]
  refine and_iff_left_of_imp fun ht' hcmd name v cred hvu _ hlookup ↦ ?_
  exact houtcome.spares ht ht' hcmd hvu hlookup

/-- A run in which a name is used again after a deletion. -/
theorem indexed_iff_example : ∃ h s, record (initial 0 1)
      [asksCreate "bob" "pw" [0] 2, asksDel "bob" 2 [0, 2], asksCreate "bob" "pw" [2, 0] 3] =
        some (h, s) ∧
      ((Indexed (initial 0 1) ∧ ∀ x ∈ h, Indexed x.after ∧ DelSpares x) ↔
        ∀ x ∈ h, NameFree x.before x.action.env x.action.request) :=
  exists_record (P := fun _ _ ↦ True) ⟨_, _, rfl, trivial⟩ fun _ _ hrun _ ↦ indexed_iff hrun

/-- A second deletion of an account erases the entry of the account that has its name by now. -/
theorem not_indexed :
    ¬∀ (g₁ g₂ : Uuid) h s, Run g₁ g₂ h s →
      Indexed (initial g₁ g₂) ∧ ∀ x ∈ h, Indexed x.after ∧ DelSpares x := by
  intro hall
  obtain ⟨h, s, hrecord, x, hx, hbob, hnone⟩ : ∃ h s, record (initial 0 1)
      [asksCreate "bob" "pw" [0] 2, asksDel "bob" 2 [0, 2], asksCreate "bob" "pw" [2, 0] 3,
        asksDel "bob" 2 [0, 3, 2]] = some (h, s) ∧
      ∃ x ∈ h, x.after.entry 3 = some ({ username := "bob", password := "pw" }, true) ∧
        x.after.nameToUUID.lookup "bob" = none :=
    ⟨_, _, rfl, by decide⟩
  have hindexed := ((hall 0 1 h s (execution_of_record hrecord)).2 x hx).1
  have hentry := (hindexed "bob" 3).mpr ⟨_, hbob, rfl⟩
  rw [hnone] at hentry
  simp at hentry

end Runs

end WsServer.Login
