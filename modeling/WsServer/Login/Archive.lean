import WsServer.Login.Deletion
import WsServer.Login.Records

/-!
# The archive of deleted accounts

`DEL` stores the record in `tombstonedAccountsTable` before it overwrites it, and `emplace` keeps
what is stored there when the same uuid is deleted again. So the archive has every deleted account
as it was before its first deletion (`archived_of_run`).
-/

set_option autoImplicit false
set_option relaxedAutoImplicit false

namespace WsServer.Login

open Foundations

/-- A `CREATE` that ended with `SUCCESS`. -/
def Created (x : Transition State Call) : Prop :=
  x.action.request.cmd = .create ∧ x.action.response.status = .success

/-- A `DEL` of `u` that ended with `SUCCESS`. -/
def DeletedAs (u : Uuid) (x : Transition State Call) : Prop :=
  Deleted x ∧ x.action.request.uuid = u

/-- The first deletion of `u` met the record `old`. -/
def FirstDeleted (h : List (Transition State Call)) (u : Uuid) (old : Account) : Prop :=
  ∃ pre d post, h = pre ++ d :: post ∧ DeletedAs u d ∧ (∀ y ∈ pre, ¬DeletedAs u y) ∧
    d.before.accountTable.lookup u = some old

/-- The archive has the account `u` exactly when it is deleted, with the credentials that it was
created with, as an active account, and as its first deletion met it. -/
structure Archived (h : List (Transition State Call)) (s : State) (u : Uuid)
    (cred : LoginCredentials) : Prop where
  mem_iff : u ∈ s.tombstonedAccountsTable ↔
    ∃ acc, s.accountTable.lookup u = some acc ∧ acc.active = false
  record : ∀ old, s.tombstonedAccountsTable.lookup u = some old →
    old.loginCred = cred ∧ old.active = true ∧ FirstDeleted h u old

section Steps

variable {s s' : State} {env : Environment} {req res : LoginRequest} {u : Uuid} {acc : Account}

theorem lookup_emplace {K V : Type} [DecidableEq K] (t : AList fun _ : K ↦ V) (k k' : K) (v : V) :
    (emplace t k v).lookup k' = if k' = k then some ((t.lookup k).getD v) else t.lookup k' := by
  unfold emplace
  by_cases hk : k ∈ t
  · obtain ⟨old, hold⟩ := Option.isSome_iff_exists.mp (AList.lookup_isSome.mpr hk)
    rw [if_pos hk]
    split_ifs with hkk
    · rw [hkk, hold, Option.getD_some]
    · rfl
  · rw [if_neg hk, lookup_insert_ite, AList.lookup_eq_none.mpr hk, Option.getD_none]

/-- A deletion archives the record unless the archive has one, and marks it as deleted. -/
theorem Outcome.archives (h : Outcome s env req s' res)
    (hdel : req.cmd = .del ∧ res.status = .success)
    (hu : s.accountTable.lookup req.uuid = some acc) :
    s'.accountTable.lookup req.uuid = some { acc with
      loginCred := { acc.loginCred with password := "TOMBSTONE" }, active := false } ∧
    s'.tombstonedAccountsTable.lookup req.uuid =
      some ((s.tombstonedAccountsTable.lookup req.uuid).getD acc) := by
  rcases h.of_del hdel.1 with ⟨-, -, hfailure⟩ | ⟨-, -, it, hit, rfl⟩
  · exact absurd (hfailure.symm.trans hdel.2) (by simp)
  · obtain rfl := Option.some.inj (hu.symm.trans hit)
    exact ⟨AList.lookup_insert _, by simp only [State.bury, lookup_emplace, if_true]⟩

/-- Any other request leaves the archived record as it is, and changes at most the token of the
account. -/
theorem Outcome.keeps_account (hs : WellFormed s) (h : Outcome s env req s' res)
    (hdel : ¬((req.cmd = .del ∧ res.status = .success) ∧ req.uuid = u))
    (hu : s.accountTable.lookup u = some acc) :
    (∃ token, s'.accountTable.lookup u = some { acc with sessionToken := token }) ∧
      s'.tombstonedAccountsTable.lookup u = s.tombstonedAccountsTable.lookup u := by
  cases h with
  | @loggedIn p it _ hit _ =>
    refine ⟨?_, rfl⟩
    by_cases hup : u = p
    · subst hup
      obtain rfl := Option.some.inj (hu.symm.trans hit)
      exact ⟨env.token, AList.lookup_insert _⟩
    · exact ⟨acc.sessionToken, (AList.lookup_insert_ne hup).trans hu⟩
  | @created v _ _ hnew =>
    have huv : u ≠ v := fun heq ↦ hnew (heq ▸ hs.mem_uuidTable u acc hu)
    exact ⟨⟨acc.sessionToken, (AList.lookup_insert_ne huv).trans hu⟩, rfl⟩
  | deleted hcmd _ _ =>
    have hne : u ≠ req.uuid := fun heq ↦ hdel ⟨⟨hcmd, rfl⟩, heq.symm⟩
    exact ⟨⟨acc.sessionToken, (AList.lookup_insert_ne hne).trans hu⟩,
      by simp only [State.bury, lookup_emplace, if_neg hne]⟩
  | loggedOut | rejected | duplicate | notCurrent | refused | ignored =>
    exact ⟨⟨acc.sessionToken, hu⟩, rfl⟩

/-- What is in the archive has been in `uuidTable`. -/
theorem Outcome.archive_mem (hs : WellFormed s) (h : Outcome s env req s' res)
    (harchive : ∀ u ∈ s.tombstonedAccountsTable, u ∈ s.uuidTable) :
    ∀ u ∈ s'.tombstonedAccountsTable, u ∈ s'.uuidTable := by
  intro u hu
  cases h with
  | deleted _ hit _ =>
    have hsome := AList.lookup_isSome.mpr hu
    simp only [State.bury, lookup_emplace] at hsome
    split_ifs at hsome with heq
    · rw [heq]
      exact hs.mem_uuidTable _ _ hit
    · exact harchive u (AList.lookup_isSome.mp hsome)
  | created => exact List.mem_append_left _ (harchive u hu)
  | loggedIn | loggedOut | rejected | duplicate | notCurrent | refused | ignored =>
    exact harchive u hu

end Steps

section Runs

variable {g₁ g₂ : Uuid} {h : List (Transition State Call)} {s s' : State} {u : Uuid}
  {cred : LoginCredentials}

/-- An account that was created with the credentials `cred` and not deleted since, or was deleted
and is archived. -/
inductive Archive (h : List (Transition State Call)) (s : State) (u : Uuid)
    (cred : LoginCredentials) : Prop
  | alive (acc : Account) (hacc : s.accountTable.lookup u = some acc) (hcred : acc.loginCred = cred)
      (hactive : acc.active = true) (hout : s.tombstonedAccountsTable.lookup u = none)
      (hnever : ∀ y ∈ h, ¬DeletedAs u y)
  | dead (acc old : Account) (hacc : s.accountTable.lookup u = some acc)
      (hdead : acc.active = false) (hold : s.tombstonedAccountsTable.lookup u = some old)
      (hcred : old.loginCred = cred) (hactive : old.active = true) (hfirst : FirstDeleted h u old)

theorem Archive.archived (harchive : Archive h s u cred) : Archived h s u cred := by
  cases harchive with
  | alive acc hacc hcred hactive hout hnever =>
    refine ⟨iff_of_false (AList.lookup_eq_none.mp hout) ?_, fun old hold ↦ ?_⟩
    · rintro ⟨acc', hacc', hdead⟩
      obtain rfl := Option.some.inj (hacc.symm.trans hacc')
      exact Bool.noConfusion (hactive.symm.trans hdead)
    · nomatch hout.symm.trans hold
  | dead acc old hacc hdead hold hcred hactive hfirst =>
    refine ⟨iff_of_true (AList.lookup_isSome.mp (by simp [hold])) ⟨acc, hacc, hdead⟩,
      fun old' hold' ↦ ?_⟩
    obtain rfl := Option.some.inj (hold.symm.trans hold')
    exact ⟨hcred, hactive, hfirst⟩

theorem FirstDeleted.concat {old : Account} {x : Transition State Call}
    (hfirst : FirstDeleted h u old) : FirstDeleted (h ++ [x]) u old := by
  obtain ⟨pre, d, post, rfl, hdel, hnever, hold⟩ := hfirst
  exact ⟨pre, d, post ++ [x], by simp, hdel, hnever, hold⟩

/-- A request keeps an account in the archive, or puts it there. -/
theorem Archive.step (harchive : Archive h s u cred) (hs : WellFormed s) {c : Call}
    (hstep : Step s c s') : Archive (h ++ [⟨s, c, s'⟩]) s' u cred := by
  have houtcome := hs.outcome hstep
  by_cases hdel : DeletedAs u ⟨s, c, s'⟩
  · have huuid : c.request.uuid = u := hdel.2
    cases harchive with
    | alive acc hacc hcred hactive hout hnever =>
      obtain ⟨hafter, harchived⟩ := houtcome.archives hdel.1 (huuid ▸ hacc)
      rw [huuid] at hafter harchived
      rw [hout, Option.getD_none] at harchived
      exact .dead _ acc hafter rfl harchived hcred hactive
        ⟨h, _, [], rfl, hdel, hnever, hacc⟩
    | dead acc old hacc hdead hold hcred hactive hfirst =>
      obtain ⟨hafter, harchived⟩ := houtcome.archives hdel.1 (huuid ▸ hacc)
      rw [huuid] at hafter harchived
      rw [hold, Option.getD_some] at harchived
      exact .dead _ old hafter rfl harchived hcred hactive hfirst.concat
  · cases harchive with
    | alive acc hacc hcred hactive hout hnever =>
      obtain ⟨⟨token, hafter⟩, harchived⟩ := houtcome.keeps_account hs hdel hacc
      refine .alive _ hafter hcred hactive (harchived.trans hout) ?_
      rw [List.forall_mem_append, List.forall_mem_singleton]
      exact ⟨hnever, hdel⟩
    | dead acc old hacc hdead hold hcred hactive hfirst =>
      obtain ⟨⟨token, hafter⟩, harchived⟩ := houtcome.keeps_account hs hdel hacc
      exact .dead _ old hafter hdead (harchived.trans hold) hcred hactive hfirst.concat

theorem archive_mem_of_run (hrun : Run g₁ g₂ h s) :
    ∀ u ∈ s.tombstonedAccountsTable, u ∈ s.uuidTable := by
  have hboth := hrun.invariant
    (P := fun s ↦ WellFormed s ∧ ∀ u ∈ s.tombstonedAccountsTable, u ∈ s.uuidTable)
    ⟨wellFormed_initial g₁ g₂, fun u hu ↦ ?_⟩ fun _ _ _ ⟨hs, harchive⟩ hstep ↦
      ⟨(hs.outcome hstep).wellFormed hs, (hs.outcome hstep).archive_mem hs harchive⟩
  · exact hboth.2
  · have hsome := AList.lookup_isSome.mpr hu
    rw [initial, lookup_singleton_ite] at hsome
    split_ifs at hsome with heq
    · rw [heq]
      exact List.mem_cons_self
    · exact absurd hsome Bool.false_ne_true

/-- A uuid that is new has not been deleted before. -/
theorem not_deletedAs_of_run (hrun : Run g₁ g₂ h s) (hu : u ∉ s.uuidTable) :
    ∀ y ∈ h, ¬DeletedAs u y := by
  rintro y hy ⟨hdel, rfl⟩
  obtain ⟨hs, houtcome⟩ := outcome_of_run hrun hy
  rcases houtcome.of_del hdel.1 with ⟨-, -, hfailure⟩ | ⟨-, -, it, hit, -⟩
  · exact absurd (hfailure.symm.trans hdel.2) (by simp)
  · exact hu (uuidTable_subset_of_run hrun y hy (hs.mem_uuidTable _ it hit))

/-- A new account is in the state before its deletion. -/
theorem archive_of_created (hrun : Run g₁ g₂ h s) {c : Call} (hstep : Step s c s')
    (hcreated : Created ⟨s, c, s'⟩) : Archive (h ++ [⟨s, c, s'⟩]) s' c.response.uuid
      c.request.logCredentials := by
  have hs := wellFormed_of_run hrun
  rcases (hs.outcome hstep).of_create hcreated.1 with ⟨-, -, hfailure⟩ | ⟨-, -, hnew, rfl⟩
  · exact absurd (hfailure.symm.trans hcreated.2) (by simp)
  · refine .alive _ (AList.lookup_insert _) rfl rfl
      (AList.lookup_eq_none.mpr fun hmem ↦ hnew (archive_mem_of_run hrun _ hmem)) ?_
    rw [List.forall_mem_append, List.forall_mem_singleton]
    refine ⟨not_deletedAs_of_run hrun hnew, fun hdel ↦ ?_⟩
    exact absurd (hcreated.1.symm.trans hdel.1.1) (by simp)

/-- In every run, the archive has an account made by `CREATE` exactly when the account is deleted,
and then as it was created and as the first deletion met it. -/
theorem archived_of_run (hrun : Run g₁ g₂ h s) :
    ∀ c ∈ h, Created c → Archived h s c.action.response.uuid c.action.request.logCredentials := by
  suffices harchive : ∀ c ∈ h, Created c →
      Archive h s c.action.response.uuid c.action.request.logCredentials from
    fun c hc hcreated ↦ (harchive c hc hcreated).archived
  induction hrun with
  | start => simp
  | snoc hrun hstep ih =>
    rw [List.forall_mem_append, List.forall_mem_singleton]
    exact ⟨fun c hc hcreated ↦ (ih c hc hcreated).step (wellFormed_of_run hrun) hstep,
      archive_of_created hrun hstep⟩

/-- An account is created, deleted twice, logged in to and created again. -/
theorem archived_of_run_example : ∃ h s, record (initial 0 1)
      [asksCreate "bob" "pw" [0] 2, asksDel "bob" 2 [0, 2], asksDel "bob" 2 [0, 2],
        asksLogin "bob" "TOMBSTONE" [0, 2] "t", asksCreate "bob" "pw" [2, 0] 3] = some (h, s) ∧
      ∀ c ∈ h, Created c → Archived h s c.action.response.uuid c.action.request.logCredentials :=
  exists_record (P := fun _ _ ↦ True) ⟨_, _, rfl, trivial⟩ fun _ _ hrun _ ↦ archived_of_run hrun

end Runs

end WsServer.Login
