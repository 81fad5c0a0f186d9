import WsServer.Login.Model
import WsServer.Foundations.Runs

/-!
# What a request does

`Outcome` lists what `login` can do to the tables, with what it has checked before; every request on
a well-formed state ends with one of these (`login_outcome`). Names, passwords and deletions are
read off `State.entry`, on which only two outcomes have an effect.
-/

set_option autoImplicit false
set_option relaxedAutoImplicit false

namespace WsServer.Login

open Foundations

/-! ### Changes of the tables -/

namespace State

variable (s : State)

/-- The credentials of an account and whether it is active. -/
def entry (u : Uuid) : Option (LoginCredentials × Bool) :=
  (s.accountTable.lookup u).map fun acc ↦ (acc.loginCred, acc.active)

/-- The account `p` is given a token, which becomes that of the session. -/
def openSession (p : Uuid) (it : Account) (token : String) : State :=
  { s with
    accountTable := s.accountTable.insert p { it with sessionToken := token }
    session := { sessiontoken := token, account := some p }
    activeSession := s.activeSession ++ [token] }

/-- A new account. -/
def addAccount (u : Uuid) (cred : LoginCredentials) : State :=
  { s with
    uuidTable := s.uuidTable ++ [u]
    accountTable := s.accountTable.insert u { loginCred := cred, uuid := u }
    nameToUUID := s.nameToUUID.insert cred.username u }

/-- The session ends. -/
def closeSession : State :=
  { s with
    activeSession := s.activeSession.filter (· ≠ s.session.sessiontoken)
    session := { sessiontoken := "", account := none } }

/-- The account `u` is deleted. -/
def bury (u : Uuid) (it : Account) : State :=
  { s with
    tombstonedAccountsTable := emplace s.tombstonedAccountsTable u it
    accountTable := s.accountTable.insert u { it with
      loginCred := { it.loginCred with password := "TOMBSTONE" }, active := false }
    nameToUUID := s.nameToUUID.erase it.loginCred.username }

end State

section Tables

variable {s : State} {u p : Uuid} {it acc : Account} {cred : LoginCredentials}

theorem lookup_insert_ite {K V : Type} [DecidableEq K] (t : AList fun _ : K ↦ V) (k k' : K)
    (v : V) : (t.insert k v).lookup k' = if k' = k then some v else t.lookup k' := by
  by_cases hk : k' = k
  · rw [hk, AList.lookup_insert, if_pos rfl]
  · rw [AList.lookup_insert_ne hk, if_neg hk]

theorem lookup_singleton_ite {K V : Type} [DecidableEq K] (k k' : K) (v : V) :
    (AList.singleton k v : AList fun _ : K ↦ V).lookup k' = if k' = k then some v else none := by
  rw [← AList.insert_empty, lookup_insert_ite, AList.lookup_empty]

theorem lookup_erase_ite {K V : Type} [DecidableEq K] (t : AList fun _ : K ↦ V) (k k' : K) :
    (t.erase k).lookup k' = if k' = k then none else t.lookup k' := by
  by_cases hk : k' = k
  · rw [hk, AList.lookup_erase, if_pos rfl]
  · rw [AList.lookup_erase_ne hk, if_neg hk]

theorem entry_of_lookup (hu : s.accountTable.lookup u = some acc) :
    s.entry u = some (acc.loginCred, acc.active) := by
  rw [State.entry, hu, Option.map_some]

theorem entry_openSession (hit : s.accountTable.lookup p = some it) (token : String) (u : Uuid) :
    (s.openSession p it token).entry u = s.entry u := by
  simp only [State.entry, State.openSession, lookup_insert_ite]
  by_cases hu : u = p
  · rw [if_pos hu, hu, hit, Option.map_some, Option.map_some]
  · rw [if_neg hu]

theorem entry_addAccount (u : Uuid) (cred : LoginCredentials) (v : Uuid) :
    (s.addAccount u cred).entry v = if v = u then some (cred, true) else s.entry v := by
  simp only [State.entry, State.addAccount, lookup_insert_ite]
  by_cases hv : v = u
  · rw [if_pos hv, if_pos hv, Option.map_some]
  · rw [if_neg hv, if_neg hv]

theorem entry_bury (u : Uuid) (it : Account) (v : Uuid) :
    (s.bury u it).entry v =
      if v = u then some ({ it.loginCred with password := "TOMBSTONE" }, false) else s.entry v := by
  simp only [State.entry, State.bury, lookup_insert_ite]
  by_cases hv : v = u
  · rw [if_pos hv, if_pos hv, Option.map_some]
  · rw [if_neg hv, if_neg hv]

/-! ### The search for credentials -/

theorem equal_iff {lhs rhs : LoginCredentials} : lhs.equal rhs = true ↔
    lower lhs.username = lower rhs.username ∧ lhs.password = rhs.password := by
  simp [LoginCredentials.equal]

theorem findIf_eq_some {order : List Uuid} (hfind : s.findIf order cred = some (p, it)) :
    s.accountTable.lookup p = some it ∧ it.loginCred.equal cred := by
  unfold State.findIf at hfind
  have hequal := List.find?_some hfind
  have hmem := List.mem_of_find?_eq_some hfind
  obtain ⟨u, -, hu⟩ := List.mem_filterMap.mp hmem
  obtain ⟨acc, hacc, hpair⟩ := Option.map_eq_some_iff.mp hu
  obtain ⟨rfl, rfl⟩ := Prod.mk.inj hpair
  exact ⟨hacc, hequal⟩

theorem findIf_eq_none {order : List Uuid} (horder : order.Perm s.accountTable.keys)
    (hfind : s.findIf order cred = none) (hu : s.accountTable.lookup u = some acc) :
    acc.loginCred.equal cred = false := by
  have hkey : u ∈ order :=
    horder.mem_iff.mpr (AList.mem_keys.mp (AList.lookup_isSome.mp (by simp [hu])))
  have hmem : (u, acc) ∈
      order.filterMap fun u ↦ (s.accountTable.lookup u).map fun acc ↦ (u, acc) :=
    List.mem_filterMap.mpr ⟨u, hkey, by simp [hu]⟩
  simpa using List.find?_eq_none.mp hfind _ hmem

theorem not_mem_of_generateUuid {idTable generated : List Uuid}
    (hnew : generateUuid idTable generated = some u) : u ∉ idTable := by
  induction generated with
  | nil => simp [generateUuid] at hnew
  | cons id generated ih =>
    rw [generateUuid] at hnew
    split_ifs at hnew with hid
    · obtain rfl := Option.some.inj hnew
      intro hmem
      simp only [isNew, Option.isNone_iff_eq_none, List.find?_eq_none] at hid
      exact hid id hmem (by simp)
    · exact ih hnew

theorem exists_generateUuid {idTable generated : List Uuid}
    (hnew : ∃ u ∈ generated, u ∉ idTable) : ∃ u, generateUuid idTable generated = some u := by
  induction generated with
  | nil => simp at hnew
  | cons id generated ih =>
    rw [generateUuid]
    split_ifs with hid
    · exact ⟨id, rfl⟩
    · obtain ⟨u, hu, hout⟩ := hnew
      refine ih ⟨u, (List.mem_cons.mp hu).resolve_left fun heq ↦ hid ?_, hout⟩
      rw [← heq, isNew, Option.isNone_iff_eq_none, List.find?_eq_none]
      exact fun v hv hvu ↦ hout (by simpa [of_decide_eq_true hvu] using hv)

end Tables

/-! ### Outcomes -/

/-- Records carry their key as uuid and have it in `uuidTable`, deleted accounts have the password
that `DEL` leaves behind, and the session designates a record. -/
structure WellFormed (s : State) : Prop where
  uuid_eq : ∀ u acc, s.accountTable.lookup u = some acc → acc.uuid = u
  mem_uuidTable : ∀ u acc, s.accountTable.lookup u = some acc → u ∈ s.uuidTable
  dead : ∀ u acc, s.accountTable.lookup u = some acc → acc.active = false →
    acc.loginCred.password = "TOMBSTONE"
  session : ∀ p, s.session.account = some p → ∃ acc, s.accountTable.lookup p = some acc

/-- Some account, active or not, is found for the credentials. -/
def State.Known (s : State) (cred : LoginCredentials) : Prop :=
  ∃ u found, s.entry u = some found ∧ found.1.equal cred

/-- A deletion finds the account, its exact name and the consent at the prompt. -/
def State.Deletes (s : State) (env : Environment) (req : LoginRequest) : Prop :=
  (∃ found, s.entry req.uuid = some found ∧ found.1.username = req.logCredentials.username) ∧
    (env.reply = some 'y' ∨ env.reply = some 'Y')

/-- What a request can do: its effect and its answer, with what was checked before. -/
inductive Outcome (s : State) (env : Environment) (req : LoginRequest) :
    State → LoginRequest → Prop
  | loggedIn {p : Uuid} {it : Account} (hcmd : req.cmd = .login)
      (hit : s.accountTable.lookup p = some it) (hequal : it.loginCred.equal req.logCredentials) :
      Outcome s env req (s.openSession p it env.token) { req with uuid := p, status := .success }
  | rejected (hcmd : req.cmd = .login) (hknown : ¬s.Known req.logCredentials) :
      Outcome s env req s { req with status := .failure }
  | created {u : Uuid} (hcmd : req.cmd = .create) (hknown : ¬s.Known req.logCredentials)
      (hnew : u ∉ s.uuidTable) :
      Outcome s env req (s.addAccount u req.logCredentials)
        { req with uuid := u, status := .success }
  | duplicate (hcmd : req.cmd = .create) (hknown : s.Known req.logCredentials) :
      Outcome s env req s { req with status := .failure }
  | loggedOut (hcmd : req.cmd = .logout) (hsession : s.session.account = some req.uuid) :
      Outcome s env req s.closeSession { req with status := .success }
  | notCurrent (hcmd : req.cmd = .logout) (hsession : s.session.account ≠ some req.uuid) :
      Outcome s env req s { req with status := .success }
  | deleted {it : Account} (hcmd : req.cmd = .del) (hit : s.accountTable.lookup req.uuid = some it)
      (hdeletes : s.Deletes env req) :
      Outcome s env req (s.bury req.uuid it) { req with status := .success }
  | refused (hcmd : req.cmd = .del) (hdeletes : ¬s.Deletes env req) :
      Outcome s env req s { req with status := .failure }
  | ignored (hcmd : req.cmd = .other) : Outcome s env req s req

section Outcomes

variable {s : State} {cred : LoginCredentials} {env : Environment} {req : LoginRequest}

theorem known_of_findIf {p : Uuid} {it : Account} {order : List Uuid}
    (hfind : s.findIf order cred = some (p, it)) : s.Known cred := by
  obtain ⟨hit, hequal⟩ := findIf_eq_some hfind
  exact ⟨p, _, entry_of_lookup hit, hequal⟩

theorem not_known_of_findIf {order : List Uuid} (horder : order.Perm s.accountTable.keys)
    (hfind : s.findIf order cred = none) : ¬s.Known cred := by
  rintro ⟨u, found, hfound, hequal⟩
  obtain ⟨acc, hacc, rfl⟩ := Option.map_eq_some_iff.mp hfound
  rw [findIf_eq_none horder hfind hacc] at hequal
  exact Bool.false_ne_true hequal

theorem WellFormed.not_mem (hs : WellFormed s) {u : Uuid} (hu : u ∉ s.uuidTable) :
    u ∉ s.accountTable := fun hmem ↦ by
  obtain ⟨acc, hacc⟩ := Option.isSome_iff_exists.mp (AList.lookup_isSome.mpr hmem)
  exact hu (hs.mem_uuidTable u acc hacc)

section Commands

variable {uuid : Uuid} {status : LogResult} {s' : State} {res : LoginRequest}

/-- A `LOGIN` takes the record that the search finds. -/
theorem login_cases (hs : WellFormed s)
    (hrun : login s env ⟨.login, cred, uuid, status⟩ = some (s', res)) :
    (∃ p it, s.findIf env.order cred = some (p, it) ∧ s' = s.openSession p it env.token ∧
      res = ⟨.login, cred, p, .success⟩) ∨
    (s.findIf env.order cred = none ∧ s' = s ∧ res = ⟨.login, cred, uuid, .failure⟩) := by
  unfold login at hrun
  cases hfind : s.findIf env.order cred with
  | some found =>
    obtain ⟨p, it⟩ := found
    obtain rfl := hs.uuid_eq p it (findIf_eq_some hfind).1
    simp only [hfind, Option.some_inj, Prod.mk.injEq] at hrun
    obtain ⟨rfl, rfl⟩ := hrun
    exact Or.inl ⟨_, it, rfl, rfl, rfl⟩
  | none =>
    simp only [hfind, Option.some_inj, Prod.mk.injEq] at hrun
    obtain ⟨rfl, rfl⟩ := hrun
    exact Or.inr ⟨rfl, rfl, rfl⟩

/-- A `CREATE` for which the search finds nothing takes the first new uuid. -/
theorem create_cases (hs : WellFormed s)
    (hrun : login s env ⟨.create, cred, uuid, status⟩ = some (s', res)) :
    (∃ found, s.findIf env.order cred = some found ∧ s' = s ∧
      res = ⟨.create, cred, uuid, .failure⟩) ∨
    (s.findIf env.order cred = none ∧ ∃ u, generateUuid s.uuidTable env.generated = some u ∧
      s' = s.addAccount u cred ∧ res = ⟨.create, cred, u, .success⟩) := by
  unfold login at hrun
  cases hfind : s.findIf env.order cred with
  | some found =>
    simp only [hfind, Option.some_inj, Prod.mk.injEq] at hrun
    obtain ⟨rfl, rfl⟩ := hrun
    exact Or.inl ⟨found, rfl, rfl, rfl⟩
  | none =>
    simp only [hfind, createAccount, bind, Option.bind] at hrun
    cases hnew : generateUuid s.uuidTable env.generated with
    | none => simp [hnew] at hrun
    | some u =>
      have hu := not_mem_of_generateUuid hnew
      simp only [hnew, Option.some_inj, Prod.mk.injEq, emplace, if_neg (hs.not_mem hu)] at hrun
      obtain ⟨rfl, rfl⟩ := hrun
      exact Or.inr ⟨rfl, u, rfl, rfl, rfl⟩

theorem outcome_of_login (hs : WellFormed s) (horder : env.order.Perm s.accountTable.keys)
    (hrun : login s env ⟨.login, cred, uuid, status⟩ = some (s', res)) :
    Outcome s env ⟨.login, cred, uuid, status⟩ s' res := by
  rcases login_cases hs hrun with ⟨p, it, hfind, rfl, rfl⟩ | ⟨hfind, rfl, rfl⟩
  · obtain ⟨hit, hequal⟩ := findIf_eq_some hfind
    exact .loggedIn rfl hit hequal
  · exact .rejected rfl (not_known_of_findIf horder hfind)

theorem outcome_of_create (hs : WellFormed s) (horder : env.order.Perm s.accountTable.keys)
    (hrun : login s env ⟨.create, cred, uuid, status⟩ = some (s', res)) :
    Outcome s env ⟨.create, cred, uuid, status⟩ s' res := by
  rcases create_cases hs hrun with ⟨found, hfind, rfl, rfl⟩ | ⟨hfind, u, hnew, rfl, rfl⟩
  · exact .duplicate rfl (known_of_findIf hfind)
  · exact .created rfl (not_known_of_findIf horder hfind) (not_mem_of_generateUuid hnew)

theorem outcome_of_logout (hs : WellFormed s)
    (hrun : login s env ⟨.logout, cred, uuid, status⟩ = some (s', res)) :
    Outcome s env ⟨.logout, cred, uuid, status⟩ s' res := by
  unfold login at hrun
  cases hsession : s.session.account with
  | none =>
    simp only [hsession, Option.some_inj, Prod.mk.injEq] at hrun
    obtain ⟨rfl, rfl⟩ := hrun
    exact .notCurrent rfl (by simp [hsession])
  | some p =>
    obtain ⟨acc, hacc⟩ := hs.session p hsession
    simp only [hsession, hacc, bind, Option.bind, hs.uuid_eq p acc hacc] at hrun
    by_cases hp : p = uuid
    · simp only [if_pos hp, Option.some_inj, Prod.mk.injEq] at hrun
      obtain ⟨rfl, rfl⟩ := hrun
      exact .loggedOut rfl (by rw [hsession, hp])
    · simp only [if_neg hp, Option.some_inj, Prod.mk.injEq] at hrun
      obtain ⟨rfl, rfl⟩ := hrun
      exact .notCurrent rfl (by simpa [hsession] using hp)

/-- The checks of a deletion whose account exists. -/
theorem deletes_iff {it : Account} (hit : s.accountTable.lookup req.uuid = some it) :
    s.Deletes env req ↔ it.loginCred.username = req.logCredentials.username ∧
      (env.reply.getD 'N' = 'y' ∨ env.reply.getD 'N' = 'Y') := by
  cases hreply : env.reply <;> simp [State.Deletes, State.entry, hit, hreply]

theorem outcome_of_del (hrun : login s env ⟨.del, cred, uuid, status⟩ = some (s', res)) :
    Outcome s env ⟨.del, cred, uuid, status⟩ s' res := by
  unfold login at hrun
  cases hit : s.accountTable.lookup uuid with
  | none =>
    simp only [hit, Option.some_inj, Prod.mk.injEq] at hrun
    obtain ⟨rfl, rfl⟩ := hrun
    exact .refused rfl fun hdeletes ↦ by simp [State.Deletes, State.entry, hit] at hdeletes
  | some it =>
    simp only [hit, ite_not, ← ite_and] at hrun
    by_cases hyes : it.loginCred.username = cred.username ∧
        (env.reply.getD 'N' = 'y' ∨ env.reply.getD 'N' = 'Y')
    · simp only [if_pos hyes, Option.some_inj, Prod.mk.injEq] at hrun
      obtain ⟨rfl, rfl⟩ := hrun
      exact .deleted rfl hit ((deletes_iff hit).mpr hyes)
    · simp only [if_neg hyes, Option.some_inj, Prod.mk.injEq] at hrun
      obtain ⟨rfl, rfl⟩ := hrun
      exact .refused rfl (mt (deletes_iff hit).mp hyes)

end Commands

/-- The effects of `login`. -/
theorem login_outcome (hs : WellFormed s) (horder : env.order.Perm s.accountTable.keys)
    {s' : State} {res : LoginRequest} (hrun : login s env req = some (s', res)) :
    Outcome s env req s' res := by
  obtain ⟨cmd, cred, uuid, status⟩ := req
  cases cmd with
  | login => exact outcome_of_login hs horder hrun
  | create => exact outcome_of_create hs horder hrun
  | logout => exact outcome_of_logout hs hrun
  | del => exact outcome_of_del hrun
  | other =>
    obtain ⟨rfl, rfl⟩ := Prod.mk.inj (Option.some.inj hrun)
    exact .ignored rfl

/-- Every request is answered, a `CREATE` as long as the generator returns a new uuid. -/
theorem WellFormed.login_returns (hs : WellFormed s)
    (hnew : req.cmd = .create → ∃ u ∈ env.generated, u ∉ s.uuidTable) :
    ∃ s' res, login s env req = some (s', res) := by
  obtain ⟨cmd, cred, uuid, status⟩ := req
  unfold login
  cases cmd with
  | login => cases s.findIf env.order cred <;> exact ⟨_, _, rfl⟩
  | create =>
    cases s.findIf env.order cred with
    | some found => exact ⟨_, _, rfl⟩
    | none =>
      obtain ⟨u, hu⟩ := exists_generateUuid (hnew rfl)
      simp only [createAccount, hu, bind, Option.bind]
      exact ⟨_, _, rfl⟩
  | logout =>
    cases hsession : s.session.account with
    | none => exact ⟨_, _, rfl⟩
    | some p =>
      obtain ⟨acc, hacc⟩ := hs.session p hsession
      simp only [hacc, bind, Option.bind]
      split_ifs <;> exact ⟨_, _, rfl⟩
  | del =>
    cases s.accountTable.lookup uuid with
    | none => exact ⟨_, _, rfl⟩
    | some it =>
      simp only
      split_ifs <;> exact ⟨_, _, rfl⟩
  | other => exact ⟨_, _, rfl⟩

theorem WellFormed.password_of_dead (hs : WellFormed s) {u : Uuid}
    (hu : s.entry u = some (cred, false)) : cred.password = "TOMBSTONE" := by
  obtain ⟨acc, hacc, heq⟩ := Option.map_eq_some_iff.mp hu
  obtain ⟨rfl, hdead⟩ := Prod.mk.inj heq
  exact hs.dead u acc hacc hdead

theorem WellFormed.mem_of_entry (hs : WellFormed s) {u : Uuid} {found : LoginCredentials × Bool}
    (hu : s.entry u = some found) : u ∈ s.uuidTable := by
  obtain ⟨acc, hacc, -⟩ := Option.map_eq_some_iff.mp hu
  exact hs.mem_uuidTable u acc hacc

/-- The account of the administrator is the only one at the start. -/
theorem entry_initial (g₁ g₂ u : Uuid) : (initial g₁ g₂).entry u =
    if u = g₁ then some ({ username := "Admin", password := "PASSWD" }, true) else none := by
  rw [State.entry, initial, lookup_singleton_ite]
  split_ifs <;> rfl

theorem eq_of_entry_initial {g₁ g₂ u : Uuid} {found : LoginCredentials × Bool}
    (hu : (initial g₁ g₂).entry u = some found) : u = g₁ := by
  rw [entry_initial] at hu
  by_contra hne
  simp [hne] at hu

theorem wellFormed_initial (g₁ g₂ : Uuid) : WellFormed (initial g₁ g₂) := by
  have hadmin : ∀ u acc, (initial g₁ g₂).accountTable.lookup u = some acc →
      u = g₁ ∧ acc.uuid = g₁ ∧ acc.active = true := fun u acc hu ↦ by
    rw [initial, lookup_singleton_ite] at hu
    split_ifs at hu with hug
    obtain rfl := Option.some.inj hu
    exact ⟨hug, rfl, rfl⟩
  refine ⟨fun u acc hu ↦ ?_, fun u acc hu ↦ ?_, fun u acc hu hdead ↦ ?_, by simp [initial]⟩
  · obtain ⟨hu, hacc, -⟩ := hadmin u acc hu
    rw [hacc, hu]
  · rw [(hadmin u acc hu).1]
    exact List.mem_cons_self
  · simp [(hadmin u acc hu).2.2] at hdead

/-- Writing the record `acc` to the key `u`. -/
theorem WellFormed.of_insert (hs : WellFormed s) {t : State} {u : Uuid} {acc : Account}
    (htable : t.accountTable = s.accountTable.insert u acc)
    (hgrows : ∀ v ∈ s.uuidTable, v ∈ t.uuidTable) (huuid : acc.uuid = u) (hmem : u ∈ t.uuidTable)
    (hdead : acc.active = false → acc.loginCred.password = "TOMBSTONE")
    (hsession : ∀ p, t.session.account = some p → p = u ∨ s.session.account = some p) :
    WellFormed t := by
  have hcases : ∀ v a, t.accountTable.lookup v = some a →
      (v = u ∧ a = acc) ∨ s.accountTable.lookup v = some a := fun v a hv ↦ by
    rw [htable, lookup_insert_ite] at hv
    split_ifs at hv with hvu
    · exact Or.inl ⟨hvu, (Option.some.inj hv).symm⟩
    · exact Or.inr hv
  refine ⟨fun v a hv ↦ ?_, fun v a hv ↦ ?_, fun v a hv hfalse ↦ ?_, fun p hp ↦ ?_⟩
  · rcases hcases v a hv with ⟨rfl, rfl⟩ | hold
    · exact huuid
    · exact hs.uuid_eq v a hold
  · rcases hcases v a hv with ⟨rfl, rfl⟩ | hold
    · exact hmem
    · exact hgrows v (hs.mem_uuidTable v a hold)
  · rcases hcases v a hv with ⟨rfl, rfl⟩ | hold
    · exact hdead hfalse
    · exact hs.dead v a hold hfalse
  · rw [htable, lookup_insert_ite]
    by_cases hpu : p = u
    · exact ⟨acc, if_pos hpu⟩
    · rw [if_neg hpu]
      exact hs.session p ((hsession p hp).resolve_left hpu)

theorem Outcome.wellFormed {s' : State} {res : LoginRequest} (hs : WellFormed s)
    (h : Outcome s env req s' res) : WellFormed s' := by
  cases h with
  | @loggedIn p it hcmd hit hequal =>
    exact hs.of_insert rfl (fun _ hv ↦ hv) (show it.uuid = p from hs.uuid_eq p it hit)
      (hs.mem_uuidTable p it hit) (fun hfalse ↦ hs.dead p it hit hfalse)
      fun q hq ↦ Or.inl (Option.some.inj hq).symm
  | created hcmd hknown hnew =>
    exact hs.of_insert rfl (fun _ hv ↦ List.mem_append_left _ hv) rfl
      (List.mem_append_right _ (List.mem_singleton_self _)) (fun hfalse ↦ by simp at hfalse)
      fun p hp ↦ Or.inr hp
  | @deleted it hcmd hit hdeletes =>
    exact hs.of_insert rfl (fun _ hv ↦ hv) (show it.uuid = req.uuid from hs.uuid_eq _ it hit)
      (hs.mem_uuidTable _ it hit) (fun _ ↦ rfl) fun q hq ↦ Or.inr hq
  | loggedOut hcmd hsession =>
    exact ⟨hs.uuid_eq, hs.mem_uuidTable, hs.dead, fun p hp ↦ by simp [State.closeSession] at hp⟩
  | rejected | duplicate | notCurrent | refused | ignored => exact hs

end Outcomes

/-! ### Successful requests -/

section Success

variable {s s' : State} {env : Environment} {req res : LoginRequest}

theorem Outcome.of_login (h : Outcome s env req s' res) (hcmd : req.cmd = .login)
    (hsuccess : res.status = .success) : ∃ p it, s.accountTable.lookup p = some it ∧
      it.loginCred.equal req.logCredentials ∧ s' = s.openSession p it env.token ∧ res.uuid = p := by
  cases h with
  | loggedIn _ hit hequal => exact ⟨_, _, hit, hequal, rfl, rfl⟩
  | _ => simp_all

theorem Outcome.of_create (h : Outcome s env req s' res) (hcmd : req.cmd = .create) :
    (s.Known req.logCredentials ∧ s' = s ∧ res.status = .failure) ∨
      (¬s.Known req.logCredentials ∧ res.status = .success ∧ res.uuid ∉ s.uuidTable ∧
        s' = s.addAccount res.uuid req.logCredentials) := by
  cases h with
  | created _ hknown hnew => exact Or.inr ⟨hknown, rfl, hnew, rfl⟩
  | duplicate _ hknown => exact Or.inl ⟨hknown, rfl, rfl⟩
  | _ => simp_all

theorem Outcome.of_logout (h : Outcome s env req s' res) (hcmd : req.cmd = .logout) :
    res.status = .success ∧ ((s.session.account = some req.uuid ∧ s' = s.closeSession) ∨
      (s.session.account ≠ some req.uuid ∧ s' = s)) := by
  cases h with
  | loggedOut _ hsession => exact ⟨rfl, Or.inl ⟨hsession, rfl⟩⟩
  | notCurrent _ hsession => exact ⟨rfl, Or.inr ⟨hsession, rfl⟩⟩
  | _ => simp_all

theorem Outcome.of_del (h : Outcome s env req s' res) (hcmd : req.cmd = .del) :
    (¬s.Deletes env req ∧ s' = s ∧ res.status = .failure) ∨
      (s.Deletes env req ∧ res.status = .success ∧
        ∃ it, s.accountTable.lookup req.uuid = some it ∧ s' = s.bury req.uuid it) := by
  cases h with
  | deleted _ hit hdeletes => exact Or.inr ⟨hdeletes, rfl, _, hit, rfl⟩
  | refused _ hdeletes => exact Or.inl ⟨hdeletes, rfl, rfl⟩
  | _ => simp_all

theorem Outcome.of_other (h : Outcome s env req s' res) (hcmd : req.cmd = .other) :
    res = req ∧ s' = s := by
  cases h with
  | ignored => exact ⟨rfl, rfl⟩
  | _ => simp_all

/-- Only `LOGIN` and `CREATE` answer with another uuid. -/
theorem Outcome.uuid_eq (h : Outcome s env req s' res) (hlogin : req.cmd ≠ .login)
    (hcreate : req.cmd ≠ .create) : res.uuid = req.uuid := by
  cases h with
  | loggedIn hcmd => exact absurd hcmd hlogin
  | created hcmd => exact absurd hcmd hcreate
  | rejected | duplicate | loggedOut | notCurrent | deleted | refused | ignored => rfl

end Success

/-! ### Runs -/

/-- A request with what it met and its answer. -/
structure Call where
  request : LoginRequest
  env : Environment
  response : LoginRequest

/-- A request is handled. -/
def Step (s : State) (c : Call) (s' : State) : Prop :=
  c.env.order.Perm s.accountTable.keys ∧ login s c.env c.request = some (s', c.response)

/-- The requests recorded in `h` lead from the initial tables to `s`. -/
abbrev Run (g₁ g₂ : Uuid) (h : List (Transition State Call)) (s : State) : Prop :=
  Execution Step (initial g₁ g₂) h s

section Runs

variable {g₁ g₂ : Uuid} {h : List (Transition State Call)} {s s' : State} {c : Call}

theorem WellFormed.outcome (hs : WellFormed s) (hstep : Step s c s') :
    Outcome s c.env c.request s' c.response :=
  login_outcome hs hstep.1 hstep.2

/-- Handling requests one after the other, each with what it meets. -/
def record (s : State) : List (LoginRequest × Environment) →
    Option (List (Transition State Call) × State)
  | [] => some ([], s)
  | (req, env) :: rest =>
    if env.order.Perm s.accountTable.keys then do
      let (s', res) ← login s env req
      let (h, last) ← record s' rest
      some (⟨s, ⟨req, env, res⟩, s'⟩ :: h, last)
    else
      none

theorem execution_of_record {requests : List (LoginRequest × Environment)}
    (hrecord : record s requests = some (h, s')) : Execution Step s h s' := by
  induction requests generalizing s h with
  | nil =>
    obtain ⟨rfl, rfl⟩ := Prod.mk.inj (Option.some.inj hrecord)
    exact .start
  | cons request rest ih =>
    obtain ⟨req, env⟩ := request
    rw [record] at hrecord
    split_ifs at hrecord with horder
    simp only [bind, Option.bind_eq_some_iff, Option.some_inj, Prod.mk.injEq,
      Prod.exists] at hrecord
    obtain ⟨s₁, res, hlogin, h', last, hrest, rfl, rfl⟩ := hrecord
    exact .cons ⟨horder, hlogin⟩ (ih hrest)

/-- What holds of every run with a property `P`, holds of a recorded run that has it. -/
theorem exists_record {requests : List (LoginRequest × Environment)}
    {P Q : List (Transition State Call) → State → Prop}
    (hrecord : ∃ h s', record s requests = some (h, s') ∧ P h s')
    (hall : ∀ h s', Execution Step s h s' → P h s' → Q h s') :
    ∃ h s', record s requests = some (h, s') ∧ Q h s' := by
  obtain ⟨h, s', hrun, hP⟩ := hrecord
  exact ⟨h, s', hrun, hall h s' (execution_of_record hrun) hP⟩

/-! The requests of a client, with the order of the hash map. -/

def asksLogin (username password : String) (order : List Uuid) (token : String) :
    LoginRequest × Environment :=
  ({ cmd := .login, logCredentials := { username := username, password := password }, uuid := 0 },
    { order := order, generated := [], token := token, reply := none })

def asksCreate (username password : String) (order : List Uuid) (u : Uuid) :
    LoginRequest × Environment :=
  ({ cmd := .create, logCredentials := { username := username, password := password }, uuid := 0 },
    { order := order, generated := [u], token := "", reply := none })

def asksLogout (u : Uuid) (order : List Uuid) : LoginRequest × Environment :=
  ({ cmd := .logout, logCredentials := { username := "", password := "" }, uuid := u },
    { order := order, generated := [], token := "", reply := none })

def asksDel (username : String) (u : Uuid) (order : List Uuid) : LoginRequest × Environment :=
  ({ cmd := .del, logCredentials := { username := username, password := "" }, uuid := u },
    { order := order, generated := [], token := "", reply := some 'y' })

theorem wellFormed_of_run (hrun : Run g₁ g₂ h s) : WellFormed s :=
  hrun.invariant (wellFormed_initial g₁ g₂) fun _ _ _ hs hstep ↦ (hs.outcome hstep).wellFormed hs

theorem outcome_of_run (hrun : Run g₁ g₂ h s) {x : Transition State Call} (hx : x ∈ h) :
    WellFormed x.before ∧
      Outcome x.before x.action.env x.action.request x.after x.action.response := by
  obtain ⟨pre, post, hsplit⟩ := List.append_of_mem hx
  obtain ⟨hbefore, hstep⟩ := hrun.throughout pre x post hsplit
  have hs := wellFormed_of_run hbefore
  exact ⟨hs, hs.outcome hstep⟩

end Runs

end WsServer.Login
