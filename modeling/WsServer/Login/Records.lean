import WsServer.Login.Outcomes

/-!
# Records are kept

`emplace` does nothing on a key that is there already. That a successful `CREATE` stores its account
all the same rests on two facts about every run: the keys of the account table are in `uuidTable`,
and `uuidTable` only grows, so that a uuid it does not have is new.
-/

set_option autoImplicit false
set_option relaxedAutoImplicit false

namespace WsServer.Login

open Foundations

/-- Every record carries its key as uuid and has it in `uuidTable`. -/
def Keyed (s : State) : Prop :=
  ∀ u acc, s.accountTable.lookup u = some acc → acc.uuid = u ∧ u ∈ s.uuidTable

/-- A request removes no record and changes none but that of the uuid it is answered with. -/
def OthersKept (x : Transition State Call) : Prop :=
  (∀ u ∈ x.before.accountTable, u ∈ x.after.accountTable) ∧
    ∀ u, u ≠ x.action.response.uuid →
      x.after.accountTable.lookup u = x.before.accountTable.lookup u

/-- The requests `LOGIN`, `LOGOUT` and `DEL` add no record. -/
def NoneAdded (x : Transition State Call) : Prop :=
  x.action.request.cmd ≠ .create → ∀ u ∈ x.after.accountTable, u ∈ x.before.accountTable

/-- A successful `CREATE` adds a record with the requested credentials under a uuid that `uuidTable`
has never had. -/
def StoredFresh (pre : List (Transition State Call)) (x : Transition State Call) : Prop :=
  x.action.request.cmd = .create → x.action.response.status = .success →
    (∀ y ∈ pre ++ [x], x.action.response.uuid ∉ y.before.uuidTable) ∧
    x.action.response.uuid ∉ x.before.accountTable ∧
    x.after.accountTable.lookup x.action.response.uuid = some
      { loginCred := x.action.request.logCredentials, uuid := x.action.response.uuid }

section Records

variable {s s' : State} {env : Environment} {req res : LoginRequest}

theorem WellFormed.keyed (hs : WellFormed s) : Keyed s :=
  fun u acc hu ↦ ⟨hs.uuid_eq u acc hu, hs.mem_uuidTable u acc hu⟩

/-- The account table changes at most at the uuid of the answer. -/
theorem Outcome.lookup_of_ne (h : Outcome s env req s' res) {u : Uuid} (hu : u ≠ res.uuid) :
    s'.accountTable.lookup u = s.accountTable.lookup u := by
  cases h with
  | loggedIn | created | deleted => exact AList.lookup_insert_ne hu
  | loggedOut | rejected | duplicate | notCurrent | refused | ignored => rfl

theorem Outcome.mem_of_mem (h : Outcome s env req s' res) {u : Uuid} (hu : u ∈ s.accountTable) :
    u ∈ s'.accountTable := by
  cases h with
  | loggedIn | created | deleted => exact (AList.mem_insert _).mpr (Or.inr hu)
  | loggedOut | rejected | duplicate | notCurrent | refused | ignored => exact hu

theorem Outcome.mem_of_mem_after (h : Outcome s env req s' res) (hcmd : req.cmd ≠ .create)
    {u : Uuid} (hu : u ∈ s'.accountTable) : u ∈ s.accountTable := by
  have hold : ∀ {p : Uuid} {it acc : Account}, s.accountTable.lookup p = some it →
      u ∈ s.accountTable.insert p acc → u ∈ s.accountTable := fun {p it acc} hit hmem ↦ by
    rcases (AList.mem_insert _).mp hmem with rfl | hmem
    · exact AList.lookup_isSome.mp (by simp [hit])
    · exact hmem
  cases h with
  | loggedIn _ hit _ => exact hold hit hu
  | created hcreate => exact absurd hcreate hcmd
  | deleted _ hit _ => exact hold hit hu
  | loggedOut | rejected | duplicate | notCurrent | refused | ignored => exact hu

theorem Outcome.uuidTable_subset (h : Outcome s env req s' res) : s.uuidTable ⊆ s'.uuidTable := by
  cases h with
  | created => exact List.subset_append_left _ _
  | loggedIn | deleted | loggedOut | rejected | duplicate | notCurrent | refused | ignored =>
    exact List.Subset.refl _

end Records

section Runs

variable {g₁ g₂ : Uuid} {h : List (Transition State Call)} {s : State}

/-- Whatever was in `uuidTable` before some request of a run, is in it at the end. -/
theorem uuidTable_subset_of_run (hrun : Run g₁ g₂ h s) :
    ∀ y ∈ h, y.before.uuidTable ⊆ s.uuidTable := by
  induction hrun with
  | start => simp
  | snoc hrun hstep ih =>
    have hgrows := ((wellFormed_of_run hrun).outcome hstep).uuidTable_subset
    rw [List.forall_mem_append, List.forall_mem_singleton]
    exact ⟨fun y hy ↦ List.Subset.trans (ih y hy) hgrows, hgrows⟩

/-- In every run all records carry their keys, which are in `uuidTable`; no request removes a record
or changes one that it is not about, and a successful `CREATE` stores a record under a new key. -/
theorem records_kept (hrun : Run g₁ g₂ h s) :
    Keyed s ∧ Throughout (fun pre x ↦ OthersKept x ∧ NoneAdded x ∧ StoredFresh pre x) h := by
  refine ⟨(wellFormed_of_run hrun).keyed, fun pre x post hsplit ↦ ?_⟩
  obtain ⟨hpre, hstep⟩ := hrun.throughout pre x post hsplit
  have hs := wellFormed_of_run hpre
  have houtcome := hs.outcome hstep
  refine ⟨⟨fun u hu ↦ houtcome.mem_of_mem hu, fun u hu ↦ houtcome.lookup_of_ne hu⟩,
    fun hcmd u hu ↦ houtcome.mem_of_mem_after hcmd hu, fun hcmd hsuccess ↦ ?_⟩
  rcases houtcome.of_create hcmd with ⟨-, -, hfailure⟩ | ⟨-, -, hnew, hafter⟩
  · exact absurd (hfailure.symm.trans hsuccess) (by simp)
  · refine ⟨?_, hs.not_mem hnew, ?_⟩
    · rw [List.forall_mem_append, List.forall_mem_singleton]
      exact ⟨fun y hy hmem ↦ hnew (uuidTable_subset_of_run hpre y hy hmem), hnew⟩
    · rw [hafter]
      exact AList.lookup_insert _

/-- A run whose generator repeats a uuid that is taken. -/
theorem records_kept_example : ∃ h s, record (initial 0 1)
      [asksCreate "bob" "pw" [0] 2, asksLogin "Bob" "pw" [2, 0] "t", asksDel "bob" 2 [0, 2],
        ({ cmd := .create, logCredentials := { username := "bob", password := "pw" }, uuid := 0 },
          { order := [0, 2], generated := [2, 1, 0, 3], token := "", reply := none })] =
        some (h, s) ∧
      Keyed s ∧ Throughout (fun pre x ↦ OthersKept x ∧ NoneAdded x ∧ StoredFresh pre x) h :=
  exists_record (P := fun _ _ ↦ True) ⟨_, _, rfl, trivial⟩ fun _ _ hrun _ ↦ records_kept hrun

end Runs

end WsServer.Login
