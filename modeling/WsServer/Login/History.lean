import WsServer.Login.Archive

/-!
# The answers are told by the history

The tables are out of a client's sight. `Stands` says from the requests and answers so far alone
which accounts there are, with what credentials: an account is made by a `CREATE` that succeeds and
has the credentials of that request until a `DEL` of it succeeds. The account table agrees
(`told_of_run`), so the history tells how every request is answered (`answers_of_run`).
-/

set_option autoImplicit false
set_option relaxedAutoImplicit false

namespace WsServer.Login

open Foundations

variable {g₁ g₂ : Uuid} {h : List (Transition State Call)} {s s' : State} {u : Uuid}
  {cred : LoginCredentials} {found : LoginCredentials × Bool} {x : Transition State Call}

/-- The account `u` was made with the credentials `cred`: before the first request, or by a
`CREATE`. -/
def Made (g₁ : Uuid) (h : List (Transition State Call)) (u : Uuid) (cred : LoginCredentials) :
    Prop :=
  (u = g₁ ∧ cred = ⟨"Admin", "PASSWD"⟩) ∨
    ∃ c ∈ h, Created c ∧ c.action.response.uuid = u ∧ c.action.request.logCredentials = cred

/-- The credentials of an account after the requests `h`, and whether it is active. -/
inductive Stands (g₁ : Uuid) (h : List (Transition State Call)) (u : Uuid) :
    LoginCredentials × Bool → Prop
  | alive {cred : LoginCredentials} (hmade : Made g₁ h u cred)
      (hnever : ∀ d ∈ h, ¬DeletedAs u d) : Stands g₁ h u (cred, true)
  | dead {cred : LoginCredentials} (hmade : Made g₁ h u cred)
      (hdeleted : ∃ d ∈ h, DeletedAs u d) :
      Stands g₁ h u ({ cred with password := "TOMBSTONE" }, false)

/-- The credentials are those of the account `u`, up to the case of the name. -/
def Opens (g₁ : Uuid) (h : List (Transition State Call)) (u : Uuid) (cred : LoginCredentials) :
    Prop :=
  ∃ found, Stands g₁ h u found ∧ found.1.equal cred

/-- The account was made under the exact name of the request, which is confirmed at the prompt. -/
def MayDelete (g₁ : Uuid) (pre : List (Transition State Call)) (x : Transition State Call) : Prop :=
  (∃ cred, Made g₁ pre x.action.request.uuid cred ∧
    cred.username = x.action.request.logCredentials.username) ∧
  (x.action.env.reply = some 'y' ∨ x.action.env.reply = some 'Y')

/-- How the request `x` is answered after the requests `pre`. -/
structure Answered (g₁ : Uuid) (pre : List (Transition State Call)) (x : Transition State Call) :
    Prop where
  login : x.action.request.cmd = .login →
    (x.action.response.status = .success ∧
      Opens g₁ pre x.action.response.uuid x.action.request.logCredentials) ∨
    (x.action.response.status = .failure ∧ ∀ u, ¬Opens g₁ pre u x.action.request.logCredentials)
  create : x.action.request.cmd = .create →
    (x.action.response.status = .failure ∧ ∃ u, Opens g₁ pre u x.action.request.logCredentials) ∨
    (x.action.response.status = .success ∧
      (∀ u, ¬Opens g₁ pre u x.action.request.logCredentials) ∧
      ∀ found, ¬Stands g₁ pre x.action.response.uuid found)
  logout : x.action.request.cmd = .logout → x.action.response.status = .success
  del : x.action.request.cmd = .del →
    (x.action.response.status = .success ∧ MayDelete g₁ pre x) ∨
    (x.action.response.status = .failure ∧ ¬MayDelete g₁ pre x)
  other : x.action.request.cmd = .other → x.action.response = x.action.request

/-! ### One request more -/

theorem made_concat : Made g₁ (h ++ [x]) u cred ↔ Made g₁ h u cred ∨
    (Created x ∧ x.action.response.uuid = u ∧ x.action.request.logCredentials = cred) := by
  simp only [Made, List.mem_append, List.mem_singleton, or_and_right, exists_or,
    exists_eq_left, or_assoc]

theorem deletedAs_concat : (∃ d ∈ h ++ [x], DeletedAs u d) ↔
    (∃ d ∈ h, DeletedAs u d) ∨ DeletedAs u x := by
  simp only [List.mem_append, List.mem_singleton, or_and_right, exists_or, exists_eq_left]

/-- A made account stands under the name it was made with. -/
theorem exists_stands_iff {name : String} :
    (∃ found, Stands g₁ h u found ∧ found.1.username = name) ↔
      ∃ cred, Made g₁ h u cred ∧ cred.username = name := by
  constructor
  · rintro ⟨found, hfound, hname⟩
    cases hfound with
    | alive hmade _ => exact ⟨_, hmade, hname⟩
    | dead hmade _ => exact ⟨_, hmade, hname⟩
  · rintro ⟨cred, hmade, hname⟩
    by_cases hdeleted : ∃ d ∈ h, DeletedAs u d
    · exact ⟨_, .dead hmade hdeleted, hname⟩
    · exact ⟨_, .alive hmade fun d hd hdel ↦ hdeleted ⟨d, hd, hdel⟩, hname⟩

/-- A request that neither makes nor deletes the account changes nothing of it. -/
theorem stands_concat_of_not (hcreated : Created x → x.action.response.uuid ≠ u)
    (hdel : ¬DeletedAs u x) : Stands g₁ (h ++ [x]) u found ↔ Stands g₁ h u found := by
  have hmade : ∀ cred, Made g₁ (h ++ [x]) u cred ↔ Made g₁ h u cred := fun cred ↦ by
    rw [made_concat, or_iff_left]
    exact fun hlast ↦ hcreated hlast.1 hlast.2.1
  have hdeleted : (∃ d ∈ h ++ [x], DeletedAs u d) ↔ ∃ d ∈ h, DeletedAs u d := by
    rw [deletedAs_concat, or_iff_left hdel]
  have hnever : (∀ d ∈ h ++ [x], ¬DeletedAs u d) ↔ ∀ d ∈ h, ¬DeletedAs u d := by
    simpa only [not_exists, not_and] using not_congr hdeleted
  constructor
  · intro hstands
    cases hstands with
    | alive hm hn => exact .alive ((hmade _).mp hm) (hnever.mp hn)
    | dead hm hd => exact .dead ((hmade _).mp hm) (hdeleted.mp hd)
  · intro hstands
    cases hstands with
    | alive hm hn => exact .alive ((hmade _).mpr hm) (hnever.mpr hn)
    | dead hm hd => exact .dead ((hmade _).mpr hm) (hdeleted.mpr hd)

/-! ### The account table -/

/-- The account table has the accounts that stand. -/
def Told (g₁ : Uuid) (h : List (Transition State Call)) (s : State) : Prop :=
  ∀ u found, s.entry u = some found ↔ Stands g₁ h u found

theorem told_initial (g₁ g₂ : Uuid) : Told g₁ [] (initial g₁ g₂) := fun u found ↦ by
  have hmade : ∀ cred, Made g₁ [] u cred ↔ u = g₁ ∧ cred = ⟨"Admin", "PASSWD"⟩ := by simp [Made]
  constructor
  · intro hentry
    obtain rfl := eq_of_entry_initial hentry
    rw [entry_initial, if_pos rfl] at hentry
    obtain rfl := Option.some.inj hentry
    exact .alive ((hmade _).mpr ⟨rfl, rfl⟩) (by simp)
  · intro hstands
    cases hstands with
    | alive hm _ =>
      obtain ⟨rfl, rfl⟩ := (hmade _).mp hm
      rw [entry_initial, if_pos rfl]
    | dead _ hd => simp at hd

/-- The new account stands under no history before. -/
theorem Told.not_stands (htold : Told g₁ h s) (hs : WellFormed s) (hnew : u ∉ s.uuidTable) :
    ¬Stands g₁ h u found := fun hstands ↦ hnew (hs.mem_of_entry ((htold u found).mpr hstands))

theorem Told.not_made (htold : Told g₁ h s) (hs : WellFormed s) (hnew : u ∉ s.uuidTable) :
    ¬Made g₁ h u cred := fun hmade ↦ by
  obtain ⟨found, hfound, -⟩ := exists_stands_iff.mpr ⟨cred, hmade, rfl⟩
  exact htold.not_stands hs hnew hfound

theorem stands_of_created (hcreated : Created x) (hmade : ∀ cred, ¬Made g₁ h u cred)
    (hnever : ∀ d ∈ h, ¬DeletedAs u d) (hu : x.action.response.uuid = u) :
    Stands g₁ (h ++ [x]) u found ↔ found = (x.action.request.logCredentials, true) := by
  have hmade' : ∀ cred, Made g₁ (h ++ [x]) u cred ↔ cred = x.action.request.logCredentials :=
    fun cred ↦ by rw [made_concat, or_iff_right (hmade cred), eq_comm]; tauto
  have hnever' : ∀ d ∈ h ++ [x], ¬DeletedAs u d := by
    rw [List.forall_mem_append, List.forall_mem_singleton]
    exact ⟨hnever, fun hdel ↦ LogCmd.noConfusion (hcreated.1.symm.trans hdel.1.1)⟩
  constructor
  · intro hstands
    cases hstands with
    | alive hm _ => rw [(hmade' _).mp hm]
    | dead _ hd =>
      obtain ⟨d, hd, hdel⟩ := hd
      exact absurd hdel (hnever' d hd)
  · rintro rfl
    exact .alive ((hmade' _).mpr rfl) hnever'

/-- After a deletion the record that was met stands without its password. -/
theorem stands_of_deleted (hdel : DeletedAs u x) {met : LoginCredentials × Bool}
    (hmet : Stands g₁ h u met) (hone : ∀ found, Stands g₁ h u found → found = met) :
    Stands g₁ (h ++ [x]) u found ↔
      found = ({ met.1 with password := "TOMBSTONE" }, false) := by
  have hnot : ¬Created x := fun hcreated ↦ LogCmd.noConfusion (hcreated.1.symm.trans hdel.1.1)
  have hmade : ∀ cred, Made g₁ (h ++ [x]) u cred ↔ Made g₁ h u cred := fun cred ↦ by
    rw [made_concat, or_iff_left fun hlast ↦ hnot hlast.1]
  constructor
  · intro hstands
    cases hstands with
    | alive _ hnever => exact absurd hdel (hnever x (by simp))
    | dead hm _ =>
      obtain ⟨found, hfound, hname⟩ := exists_stands_iff.mpr ⟨_, (hmade _).mp hm, rfl⟩
      rw [← hone found hfound, ← hname]
  · rintro rfl
    obtain ⟨cred, hm, hname⟩ := exists_stands_iff.mp ⟨met, hmet, rfl⟩
    have hsame : ({ met.1 with password := "TOMBSTONE" } : LoginCredentials) =
        { cred with password := "TOMBSTONE" } := by rw [hname]
    rw [hsame]
    exact .dead ((hmade cred).mpr hm) ⟨x, by simp, hdel⟩

/-- A request that neither makes nor deletes the account leaves its entry. -/
theorem Outcome.entry_eq {env : Environment} {req res : LoginRequest}
    (houtcome : Outcome s env req s' res)
    (hcreated : ¬((req.cmd = .create ∧ res.status = .success) ∧ res.uuid = u))
    (hdel : ¬((req.cmd = .del ∧ res.status = .success) ∧ req.uuid = u)) :
    s'.entry u = s.entry u := by
  cases houtcome with
  | loggedIn _ hit _ => exact entry_openSession hit _ u
  | created hcmd _ _ =>
    rw [entry_addAccount, if_neg fun hu ↦ hcreated ⟨⟨hcmd, rfl⟩, hu.symm⟩]
  | deleted hcmd _ _ =>
    rw [entry_bury, if_neg fun hu ↦ hdel ⟨⟨hcmd, rfl⟩, hu.symm⟩]
  | loggedOut | rejected | duplicate | notCurrent | refused | ignored => rfl

/-- One request keeps the agreement. -/
theorem Told.step (htold : Told g₁ h s) (hrun : Run g₁ g₂ h s) {c : Call} (hstep : Step s c s') :
    Told g₁ (h ++ [⟨s, c, s'⟩]) s' := fun u found ↦ by
  have hs := wellFormed_of_run hrun
  have houtcome := hs.outcome hstep
  by_cases hcreated : Created ⟨s, c, s'⟩ ∧ c.response.uuid = u
  · obtain ⟨hcreated, rfl⟩ := hcreated
    rcases houtcome.of_create hcreated.1 with ⟨-, -, hfailure⟩ | ⟨-, -, hnew, rfl⟩
    · exact LogResult.noConfusion (hfailure.symm.trans hcreated.2)
    rw [entry_addAccount, if_pos rfl, Option.some_inj, eq_comm,
      stands_of_created hcreated (fun _ ↦ htold.not_made hs hnew) (not_deletedAs_of_run hrun hnew)
        rfl]
  by_cases hdel : DeletedAs u ⟨s, c, s'⟩
  · obtain ⟨⟨hcmd, hsuccess⟩, huuid⟩ := id hdel
    obtain rfl : c.request.uuid = u := huuid
    rcases houtcome.of_del hcmd with ⟨-, -, hfailure⟩ | ⟨-, -, it, hit, rfl⟩
    · exact LogResult.noConfusion (hfailure.symm.trans hsuccess)
    have hentry := entry_of_lookup hit
    rw [entry_bury, if_pos rfl, Option.some_inj, eq_comm,
      stands_of_deleted hdel ((htold _ _).mp hentry) fun found hfound ↦
        Option.some.inj (((htold _ _).mpr hfound).symm.trans hentry)]
  rw [stands_concat_of_not (fun hc hu ↦ hcreated ⟨hc, hu⟩) hdel, ← htold u found,
    houtcome.entry_eq hcreated hdel]

theorem told_of_run (hrun : Run g₁ g₂ h s) : Told g₁ h s := by
  induction hrun with
  | start => exact told_initial g₁ g₂
  | snoc hrun hstep ih => exact ih.step hrun hstep

/-! ### The answers -/

theorem Told.known_iff (htold : Told g₁ h s) : s.Known cred ↔ ∃ u, Opens g₁ h u cred := by
  simp only [State.Known, Opens, htold _ _]

theorem Told.deletes_iff (htold : Told g₁ h x.before) :
    x.before.Deletes x.action.env x.action.request ↔ MayDelete g₁ h x := by
  simp only [State.Deletes, MayDelete, htold _ _, ← exists_stands_iff]

theorem Outcome.login_answer {env : Environment} {req res : LoginRequest}
    (houtcome : Outcome s env req s' res) (hcmd : req.cmd = .login) :
    (res.status = .success ∧ ∃ found, s.entry res.uuid = some found ∧
      found.1.equal req.logCredentials) ∨
    (res.status = .failure ∧ ¬s.Known req.logCredentials) := by
  cases houtcome with
  | loggedIn _ hit hequal => exact Or.inl ⟨rfl, _, entry_of_lookup hit, hequal⟩
  | rejected _ hknown => exact Or.inr ⟨rfl, hknown⟩
  | created hcmd' | duplicate hcmd' | loggedOut hcmd' | notCurrent hcmd' | deleted hcmd'
  | refused hcmd' | ignored hcmd' => exact LogCmd.noConfusion (hcmd.symm.trans hcmd')

theorem Told.answered (htold : Told g₁ h x.before) (hs : WellFormed x.before)
    (houtcome : Outcome x.before x.action.env x.action.request x.after x.action.response) :
    Answered g₁ h x where
  login hcmd := by
    rcases houtcome.login_answer hcmd with ⟨hsuccess, found, hentry, hequal⟩ | ⟨hfailure, hknown⟩
    · exact Or.inl ⟨hsuccess, found, (htold _ _).mp hentry, hequal⟩
    · exact Or.inr ⟨hfailure, not_exists.mp (htold.known_iff.not.mp hknown)⟩
  create hcmd := by
    rcases houtcome.of_create hcmd with ⟨hknown, -, hfailure⟩ | ⟨hknown, hsuccess, hnew, -⟩
    · exact Or.inl ⟨hfailure, htold.known_iff.mp hknown⟩
    · exact Or.inr ⟨hsuccess, not_exists.mp (htold.known_iff.not.mp hknown),
        fun _ ↦ htold.not_stands hs hnew⟩
  logout hcmd := (houtcome.of_logout hcmd).1
  del hcmd := by
    rcases houtcome.of_del hcmd with ⟨hdeletes, -, hfailure⟩ | ⟨hdeletes, hsuccess, -⟩
    · exact Or.inr ⟨hfailure, htold.deletes_iff.not.mp hdeletes⟩
    · exact Or.inl ⟨hsuccess, htold.deletes_iff.mp hdeletes⟩
  other hcmd := (houtcome.of_other hcmd).1

/-- In every run, each answer is told by the requests and answers before it: `LOGIN` succeeds
exactly for the credentials of an account that stands and names such an account, `CREATE` exactly
for others and names a new account, `DEL` exactly for the name that the account was made under. -/
theorem answers_of_run (hrun : Run g₁ g₂ h s) : Throughout (Answered g₁) h := by
  intro pre x post hsplit
  obtain ⟨hbefore, hstep⟩ := hrun.throughout pre x post hsplit
  have hs := wellFormed_of_run hbefore
  exact (told_of_run hbefore).answered hs (hs.outcome hstep)

/-- An account is created, logged in to in other letters, deleted, not found any more and created
again. -/
theorem answers_of_run_example : ∃ h s, record (initial 0 1)
      [asksCreate "bob" "pw" [0] 2, asksLogin "Bob" "pw" [0, 2] "t", asksDel "bob" 2 [0, 2],
        asksLogin "bob" "pw" [0, 2] "t", asksCreate "BOB" "pw" [2, 0] 3] = some (h, s) ∧
      Throughout (Answered 0) h :=
  exists_record (P := fun _ _ ↦ True) ⟨_, _, rfl, trivial⟩ fun _ _ hrun _ ↦ answers_of_run hrun

end WsServer.Login
