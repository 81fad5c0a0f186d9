import WsServer.Login.Outcomes

/-!
# Credentials that designate one record

`LOGIN` takes the first record that has the credentials, in the order in which the hash map is
iterated. `CREATE` lets no two records have the same credentials, but `DEL` gives all records of one
name the same password. `orderFree_iff` says for which requests the answer to a `LOGIN` is still
independent of the order.
-/

set_option autoImplicit false
set_option relaxedAutoImplicit false

namespace WsServer.Login

open Foundations

/-- At most one record compares equal to any credentials. -/
def Distinguished (s : State) : Prop :=
  ∀ cred u v a b, s.entry u = some a → s.entry v = some b → a.1.equal cred → b.1.equal cred → u = v

/-- The status and the uuid that a request is answered with. -/
def answer (s : State) (env : Environment) (req : LoginRequest) : Option (LogResult × Uuid) :=
  (login s env req).map fun r ↦ (r.2.status, r.2.uuid)

/-- The answer to a `LOGIN` is the same for all orders of the account table. -/
def OrderFree (s : State) : Prop :=
  ∀ (req : LoginRequest) (env : Environment) (order order' : List Uuid), req.cmd = .login →
    order.Perm s.accountTable.keys → order'.Perm s.accountTable.keys →
    answer s { env with order := order } req = answer s { env with order := order' } req

/-- A deletion that goes through meets no other record, active or deleted, that has the name and the
password which it leaves behind. -/
def TombstoneFree (s : State) (env : Environment) (req : LoginRequest) : Prop :=
  req.cmd = .del → s.Deletes env req → ∀ v found, v ≠ req.uuid → s.entry v = some found →
    lower found.1.username = lower req.logCredentials.username → found.1.password ≠ "TOMBSTONE"

section Search

variable {s s' : State} {env : Environment} {req res : LoginRequest} {cred : LoginCredentials}
  {it : Account} {u : Uuid}

theorem equal_self (cred : LoginCredentials) : cred.equal cred := equal_iff.mpr ⟨rfl, rfl⟩

/-- Two credentials that compare equal to a third compare equal to each other. -/
theorem equal_of_equal {a b : LoginCredentials} (ha : a.equal cred) (hb : b.equal cred) :
    b.equal a := by
  obtain ⟨haname, hapassword⟩ := equal_iff.mp ha
  obtain ⟨hbname, hbpassword⟩ := equal_iff.mp hb
  exact equal_iff.mpr ⟨hbname.trans haname.symm, hbpassword.trans hapassword.symm⟩

/-- Where credentials designate at most one record, the search finds the same in every order. -/
theorem Distinguished.findIf_eq (hs : Distinguished s) {order order' : List Uuid}
    (horder : order.Perm s.accountTable.keys) (horder' : order'.Perm s.accountTable.keys) :
    s.findIf order cred = s.findIf order' cred := by
  cases hfind : s.findIf order cred with
  | none =>
    cases hfind' : s.findIf order' cred with
    | none => rfl
    | some found => exact absurd (known_of_findIf hfind') (not_known_of_findIf horder hfind)
  | some found =>
    cases hfind' : s.findIf order' cred with
    | none => exact absurd (known_of_findIf hfind) (not_known_of_findIf horder' hfind')
    | some found' =>
      obtain ⟨hit, hequal⟩ := findIf_eq_some hfind
      obtain ⟨hit', hequal'⟩ := findIf_eq_some hfind'
      have hkey : found.1 = found'.1 :=
        hs cred _ _ _ _ (entry_of_lookup hit) (entry_of_lookup hit') hequal hequal'
      rw [hkey, hit'] at hit
      exact congrArg some (Prod.ext hkey (Option.some.inj hit).symm)

theorem Distinguished.orderFree (hs : Distinguished s) : OrderFree s := by
  intro req env order order' hcmd horder horder'
  unfold answer login
  simp only [hcmd, hs.findIf_eq horder horder']

/-- Records that keep their credentials stay apart. -/
theorem Distinguished.congr (hs : Distinguished s) (hentry : ∀ v, s'.entry v = s.entry v) :
    Distinguished s' := fun cred u v a b hu hv ↦ by
  rw [hentry] at hu hv
  exact hs cred u v a b hu hv

theorem distinguished_initial (g₁ g₂ : Uuid) : Distinguished (initial g₁ g₂) := by
  intro cred u v a b hu hv _ _
  rw [eq_of_entry_initial hu, eq_of_entry_initial hv]

/-- A record with new credentials keeps the records apart exactly when no other has them. -/
theorem distinguished_of_entry {found : LoginCredentials × Bool} (hs : Distinguished s)
    (hentry : ∀ v, s'.entry v = if v = u then some found else s.entry v) :
    Distinguished s' ↔ ∀ v b, v ≠ u → s.entry v = some b → ¬b.1.equal found.1 := by
  have hothers : ∀ v, v ≠ u → s'.entry v = s.entry v := fun v hv ↦ by rw [hentry, if_neg hv]
  have hself : s'.entry u = some found := by rw [hentry, if_pos rfl]
  constructor
  · intro hafter v b hvu hv hequal
    rw [← hothers v hvu] at hv
    exact hvu (hafter found.1 v u b found hv hself hequal (equal_self found.1))
  · intro hnone cred v w a b hv hw ha hb
    by_cases hvu : v = u
    · by_cases hwu : w = u
      · rw [hvu, hwu]
      · rw [hvu, hself, Option.some_inj] at hv
        subst hv
        rw [hothers w hwu] at hw
        exact absurd (equal_of_equal ha hb) (hnone w b hwu hw)
    · rw [hothers v hvu] at hv
      by_cases hwu : w = u
      · rw [hwu, hself, Option.some_inj] at hw
        subst hw
        exact absurd (equal_of_equal hb ha) (hnone v a hvu hv)
      · rw [hothers w hwu] at hw
        exact hs cred v w a b hv hw ha hb

/-- A request keeps the records apart exactly when it leaves no second record with one name and the
password of the deleted. -/
theorem Outcome.tombstoneFree_iff (hapart : Distinguished s) (h : Outcome s env req s' res) :
    Distinguished s' ↔ TombstoneFree s env req := by
  unfold TombstoneFree
  cases h with
  | @created u hcmd hknown hnew =>
    rw [distinguished_of_entry hapart (entry_addAccount u req.logCredentials)]
    refine iff_of_true (fun v b _ hv hequal ↦ hknown ⟨v, b, hv, hequal⟩) ?_
    simp [hcmd]
  | @deleted it hcmd hit hdeletes =>
    have hname := ((deletes_iff hit).mp hdeletes).1
    rw [distinguished_of_entry hapart (entry_bury req.uuid it)]
    simp only [hcmd, hdeletes, true_imp_iff, equal_iff, hname, not_and, ne_eq]
  | refused hcmd hdeletes => exact iff_of_true hapart (by simp [hcmd, hdeletes])
  | loggedIn hcmd hit _ =>
    exact iff_of_true (hapart.congr (entry_openSession hit env.token)) (by simp [hcmd])
  | loggedOut hcmd _ => exact iff_of_true (hapart.congr fun _ ↦ rfl) (by simp [hcmd])
  | duplicate hcmd _ => exact iff_of_true hapart (by simp [hcmd])
  | rejected hcmd _ => exact iff_of_true hapart (by simp [hcmd])
  | notCurrent hcmd _ => exact iff_of_true hapart (by simp [hcmd])
  | ignored hcmd => exact iff_of_true hapart (by simp [hcmd])

end Search

section Runs

variable {g₁ g₂ : Uuid} {h : List (Transition State Call)} {s : State}

/-- In a run credentials designate at most one record in every state, and so the answer to a `LOGIN`
does not depend on the order of the account table, exactly when no deletion makes the credentials of
its account those of another record. -/
theorem orderFree_iff (hrun : Run g₁ g₂ h s) :
    ((Distinguished (initial g₁ g₂) ∧ OrderFree (initial g₁ g₂)) ∧
        ∀ x ∈ h, Distinguished x.after ∧ OrderFree x.after) ↔
      ∀ x ∈ h, TombstoneFree x.before x.action.env x.action.request := by
  have hinitial := distinguished_initial g₁ g₂
  rw [← throughout_iff_mem, ← throughout_iff_mem, and_iff_right ⟨hinitial, hinitial.orderFree⟩]
  refine Execution.throughout_iff (P := fun _ t ↦ Distinguished t) hinitial
    (fun pre t c t' hpre _ ht hstep ↦ ?_) (fun _ _ _ _ _ _ _ hG ↦ hG.1) hrun throughout_true
  rw [and_iff_left_of_imp Distinguished.orderFree]
  exact ((wellFormed_of_run hpre).outcome hstep).tombstoneFree_iff ht

/-- A run in which two accounts of different names are deleted. -/
theorem orderFree_iff_example : ∃ h s, record (initial 0 1)
      [asksCreate "bob" "pw" [0] 2, asksCreate "eve" "pw" [0, 2] 3, asksDel "bob" 2 [0, 2, 3],
        asksDel "eve" 3 [3, 2, 0]] = some (h, s) ∧
      (((Distinguished (initial 0 1) ∧ OrderFree (initial 0 1)) ∧
          ∀ x ∈ h, Distinguished x.after ∧ OrderFree x.after) ↔
        ∀ x ∈ h, TombstoneFree x.before x.action.env x.action.request) :=
  exists_record (P := fun _ _ ↦ True) ⟨_, _, rfl, trivial⟩ fun _ _ hrun _ ↦ orderFree_iff hrun

/-- Two deleted accounts of one name have the same password; which of them a `LOGIN` selects depends
on the order. -/
theorem not_orderFree :
    ¬∀ (g₁ g₂ : Uuid) h s, Run g₁ g₂ h s →
      (Distinguished (initial g₁ g₂) ∧ OrderFree (initial g₁ g₂)) ∧
        ∀ x ∈ h, Distinguished x.after ∧ OrderFree x.after := by
  intro hall
  obtain ⟨h, s, hrecord, x, hx, hkeys, hfirst, hsecond⟩ : ∃ h s, record (initial 0 1)
      [asksCreate "bob" "pw" [0] 2, asksDel "bob" 2 [0, 2], asksCreate "bob" "pw" [2, 0] 3,
        asksDel "bob" 3 [0, 3, 2]] = some (h, s) ∧
      ∃ x ∈ h, [0, 2, 3].Perm x.after.accountTable.keys ∧
        answer x.after (asksLogin "bob" "TOMBSTONE" [0, 2, 3] "t").2
          (asksLogin "bob" "TOMBSTONE" [0, 2, 3] "t").1 = some (.success, 2) ∧
        answer x.after (asksLogin "bob" "TOMBSTONE" [0, 3, 2] "t").2
          (asksLogin "bob" "TOMBSTONE" [0, 2, 3] "t").1 = some (.success, 3) :=
    ⟨_, _, rfl, by decide⟩
  have hfree := ((hall 0 1 h s (execution_of_record hrecord)).2 x hx).2
  have hsame := hfree (asksLogin "bob" "TOMBSTONE" [0, 2, 3] "t").1
    (asksLogin "bob" "TOMBSTONE" [0, 2, 3] "t").2 [0, 2, 3] [0, 3, 2] rfl hkeys
    ((List.Perm.swap 2 3 []).cons 0 |>.trans hkeys)
  have heq := hfirst.symm.trans (hsame.trans hsecond)
  simp at heq

end Runs

end WsServer.Login
