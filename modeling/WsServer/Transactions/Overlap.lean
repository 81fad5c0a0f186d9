import WsServer.Transactions.Model

/-!
# Overlapping transactions

The destructor of a transaction that is not committed writes back the balance of its construction.
That undoes whatever other transactions have committed since. `balance_right_iff` says for which
runs nothing is undone, when all log writes succeed.
-/

set_option autoImplicit false
set_option relaxedAutoImplicit false

namespace WsServer.Transactions

open Foundations

/-- The log writes of an action succeed. -/
def Action.logged : Action → Bool
  | .construct _ opens flushes => opens && flushes
  | .commit _ flushes => flushes
  | .destroy _ flushes => flushes

/-- The balance is the initial one with all that has been committed. -/
def Right (balance : ℤ) (s : System) : Prop := s.shared.balance = balance + s.credited

/-- The object that an action destroys without a call of `commit` having returned. -/
def rolledBack (x : Transition System Action) : Option Object :=
  match x.action with
  | .destroy i _ => x.before.objects[i]?.filter fun o ↦ !o.returned
  | _ => none

/-- When a transaction is rolled back, the modifications that others have committed since its
construction add up to zero. -/
def Undisturbed (x : Transition System Action) : Prop :=
  ∀ o ∈ rolledBack x, x.before.credited = o.creditedBefore

instance (x : Transition System Action) : Decidable (Undisturbed x) :=
  inferInstanceAs (Decidable (∀ o ∈ rolledBack x, x.before.credited = o.creditedBefore))

/-- An object while all log writes succeed: its stream is good and idle, and its snapshot is the
balance of the transactions that were committed at its construction. -/
structure Healthy (balance : ℤ) (o : Object) : Prop where
  stream_eq : o.tx.stream = { isOpen := true, failed := false, pending := [] }
  committed_eq : o.tx.committed = o.returned
  original_eq : o.tx.originalState = balance + o.creditedBefore

theorem right_initial (balance : ℤ) : Right balance (initial balance) := (add_zero balance).symm

section Logged

variable {balance : ℤ} {w : Shared} {tx : Transaction} {s s' : System} {a : Action}

theorem construct_logged (modification : ℤ) :
    construct w modification true true =
      ({ w with log := w.log ++ [.start w.balance modification] },
        some { stream := { isOpen := true, failed := false, pending := [] },
               originalState := w.balance, modification := modification, committed := false }) := by
  simp [construct, LogStream.insert, durableFlush]

theorem commit_logged (hstream : tx.stream = { isOpen := true, failed := false, pending := [] })
    (hopen : tx.committed = false) :
    commit w tx true =
      ({ balance := w.balance + tx.modification, log := w.log ++ [.commit] },
        { tx with committed := true }, true) := by
  simp [commit, hopen, hstream, LogStream.insert, durableFlush]

theorem destroy_logged (hstream : tx.stream = { isOpen := true, failed := false, pending := [] })
    (hopen : tx.committed = false) :
    destroy w tx true = { balance := tx.originalState, log := w.log ++ [.abort] } := by
  simp [destroy, hopen, hstream, LogStream.insert, durableFlush]

/-- A step keeps the objects healthy when the balance is right. -/
theorem healthy_step (hright : Right balance s) (hhealthy : ∀ o ∈ s.objects, Healthy balance o)
    (hlogged : a.logged = true) (hstep : s.step a = some s') :
    ∀ o ∈ s'.objects, Healthy balance o := by
  cases a with
  | construct modification opens flushes =>
    obtain ⟨rfl, rfl⟩ := Bool.and_eq_true_iff.mp hlogged
    obtain rfl := Option.some.inj hstep
    simp only [construct_logged, Option.toList_some, List.map_cons, List.map_nil]
    rw [List.forall_mem_append, List.forall_mem_singleton]
    exact ⟨hhealthy, rfl, rfl, hright⟩
  | commit i flushes =>
    obtain rfl : flushes = true := hlogged
    obtain ⟨o, hi, -, rfl⟩ := update_eq_some hstep
    have ho := hhealthy o (List.mem_of_getElem? hi)
    intro o' ho'
    rcases List.mem_or_eq_of_mem_set ho' with hold | rfl
    · exact hhealthy o' hold
    · cases hcommitted : o.tx.committed with
      | true =>
        simp only [commit, hcommitted, if_true, Bool.or_true]
        exact ⟨ho.stream_eq, hcommitted, ho.original_eq⟩
      | false =>
        rw [commit_logged ho.stream_eq hcommitted]
        exact ⟨ho.stream_eq, by simp, ho.original_eq⟩
  | destroy i flushes =>
    obtain ⟨o, hi, -, rfl⟩ := update_eq_some hstep
    have ho := hhealthy o (List.mem_of_getElem? hi)
    intro o' ho'
    rcases List.mem_or_eq_of_mem_set ho' with hold | rfl
    · exact hhealthy o' hold
    · exact ⟨ho.stream_eq, ho.committed_eq, ho.original_eq⟩

theorem undisturbed_destroy {x : Transition System Action} {i : ℕ} {flushes : Bool} {o : Object}
    (haction : x.action = .destroy i flushes) (hi : x.before.objects[i]? = some o) :
    Undisturbed x ↔ (o.returned = false → x.before.credited = o.creditedBefore) := by
  unfold Undisturbed rolledBack
  cases hreturned : o.returned <;> simp [haction, hi, hreturned]

/-- A step keeps the balance right exactly when it rolls nothing back that others committed. -/
theorem right_step_iff (hright : Right balance s) (hhealthy : ∀ o ∈ s.objects, Healthy balance o)
    (hlogged : a.logged = true) (hstep : s.step a = some s') :
    Right balance s' ↔ Undisturbed ⟨s, a, s'⟩ := by
  unfold Right at hright ⊢
  cases a with
  | construct modification opens flushes =>
    obtain ⟨rfl, rfl⟩ := Bool.and_eq_true_iff.mp hlogged
    obtain rfl := Option.some.inj hstep
    refine iff_of_true ?_ fun o ho ↦ by simp [rolledBack] at ho
    simp only [construct_logged, Option.toList_some, List.map_cons, List.map_nil]
    rw [credited_append]
    simpa [Object.credit, System.credited] using hright
  | commit i flushes =>
    obtain rfl : flushes = true := hlogged
    obtain ⟨o, hi, -, rfl⟩ := update_eq_some hstep
    have ho := hhealthy o (List.mem_of_getElem? hi)
    refine iff_of_true ?_ fun o' ho' ↦ by simp [rolledBack] at ho'
    cases hcommitted : o.tx.committed with
    | true =>
      have hreturned : o.returned = true := ho.committed_eq.symm.trans hcommitted
      rw [credited_set hi]
      simp [commit, hcommitted, hreturned, hright, Object.credit]
    | false =>
      have hreturned : o.returned = false := ho.committed_eq.symm.trans hcommitted
      rw [credited_set hi, commit_logged ho.stream_eq hcommitted]
      simp only [Object.credit, hreturned, Bool.or_true, if_true, hright]
      simp
      ring
  | destroy i flushes =>
    obtain rfl : flushes = true := hlogged
    obtain ⟨o, hi, -, rfl⟩ := update_eq_some hstep
    have ho := hhealthy o (List.mem_of_getElem? hi)
    have hcredit : System.credited
        { shared := destroy s.shared o.tx true
          objects := s.objects.set i { o with live := false } } = s.credited := by
      rw [credited_set hi]
      exact sub_add_cancel _ _
    rw [undisturbed_destroy rfl hi, hcredit]
    cases hcommitted : o.tx.committed with
    | true =>
      have hreturned : o.returned = true := ho.committed_eq.symm.trans hcommitted
      simp [destroy, hcommitted, hreturned, hright]
    | false =>
      have hreturned : o.returned = false := ho.committed_eq.symm.trans hcommitted
      rw [destroy_logged ho.stream_eq hcommitted]
      simp [ho.original_eq, hreturned, eq_comm]

end Logged

section Runs

variable {balance : ℤ} {h : List (Transition System Action)} {s : System}

/-- In every run whose log writes succeed, the balance is in every state the initial one with all
that has been committed, exactly when every rollback is undisturbed. When it is, this holds in
particular once all objects are destroyed. -/
theorem balance_right_iff (hrun : Run balance h s) (hlogged : ∀ x ∈ h, x.action.logged = true) :
    ((∀ x ∈ h, Right balance x.after) ↔ ∀ x ∈ h, Undisturbed x) ∧
      ((∀ x ∈ h, Undisturbed x) → s.AllDestroyed → Right balance s) := by
  have hiff : Throughout (fun _ x ↦ Right balance x.after) h ↔
      Throughout (fun _ x ↦ Undisturbed x) h :=
    Execution.throughout_iff (D := fun _ x ↦ x.action.logged = true)
      (P := fun _ t ↦ Right balance t ∧ ∀ o ∈ t.objects, Healthy balance o)
      ⟨right_initial balance, by simp [initial]⟩
      (fun _ _ _ _ _ hD hP hstep ↦ right_step_iff hP.1 hP.2 hD hstep)
      (fun _ _ _ _ hP hD hstep hG ↦ ⟨hG, healthy_step hP.1 hP.2 hD hstep⟩)
      hrun (throughout_iff_mem.mpr hlogged)
  rw [throughout_iff_mem, throughout_iff_mem] at hiff
  refine ⟨hiff, fun hundisturbed _ ↦ ?_⟩
  have hright := hiff.mpr hundisturbed
  cases hrun with
  | start => exact right_initial balance
  | snoc _ _ => exact hright _ (List.mem_append_right _ (List.mem_singleton_self _))

/-- One transaction is rolled back while another is open, which then commits. -/
theorem balance_right_iff_example : ∃ h s, Execution.trace System.step (initial 1000)
      [.construct 500 true true, .construct 200 true true, .destroy 0 true, .commit 1 true,
        .destroy 1 true] = some (h, s) ∧ s.AllDestroyed ∧ Right 1000 s := by
  obtain ⟨h, s, htrace, hlogged, hundisturbed, hdestroyed⟩ : ∃ h s,
      Execution.trace System.step (initial 1000)
        [.construct 500 true true, .construct 200 true true, .destroy 0 true, .commit 1 true,
          .destroy 1 true] = some (h, s) ∧
      (∀ x ∈ h, x.action.logged = true) ∧ (∀ x ∈ h, Undisturbed x) ∧ s.AllDestroyed :=
    ⟨_, _, rfl, by decide⟩
  exact ⟨h, s, htrace, hdestroyed,
    (balance_right_iff (Execution.of_trace htrace) hlogged).2 hundisturbed hdestroyed⟩

/-- The second transaction commits while the first is open, which is then rolled back. -/
theorem committed_update_lost :
    ¬∀ (balance : ℤ) h s, Run balance h s → (∀ x ∈ h, x.action.logged = true) → s.AllDestroyed →
      Right balance s := by
  intro hall
  obtain ⟨h, s, htrace, hlogged, hdestroyed, hwrong⟩ : ∃ h s,
      Execution.trace System.step (initial 1000)
        [.construct 500 true true, .construct 200 true true, .commit 1 true, .destroy 1 true,
          .destroy 0 true] = some (h, s) ∧
      (∀ x ∈ h, x.action.logged = true) ∧ s.AllDestroyed ∧
        s.shared.balance ≠ 1000 + s.credited :=
    ⟨_, _, rfl, by decide⟩
  exact hwrong (hall 1000 h s (Execution.of_trace htrace) hlogged hdestroyed)

end Runs

end WsServer.Transactions
