import WsServer.Transactions.Model

/-!
# The rollback of a transaction on its own

The destructor writes the balance back after it has logged the abort, in one `try` block. When that
log write fails, or a call of `commit` has left the stream failed before, the balance stays as the
client has made it. `rolledBack_iff` says for which uses of a transaction the balance is the one of
its construction again.
-/

set_option autoImplicit false
set_option relaxedAutoImplicit false

namespace WsServer.Transactions

/-- What client code does between construction and destruction. -/
inductive ClientAction
  | assign (balance : ℤ)
  | commit (flushes : Bool)
  deriving DecidableEq

/-- A transaction in use: `returned` when a call of `commit` has returned. -/
structure InUse where
  shared : Shared
  tx : Transaction
  returned : Bool
  deriving DecidableEq

/-- A transaction that was just constructed. -/
def InUse.start (w : Shared) (tx : Transaction) : InUse :=
  { shared := w, tx := tx, returned := false }

def InUse.step (s : InUse) : ClientAction → InUse
  | .assign balance => { s with shared := { s.shared with balance := balance } }
  | .commit flushes =>
    let r := commit s.shared s.tx flushes
    { shared := r.1, tx := r.2.1, returned := s.returned || r.2.2 }

def InUse.run (s : InUse) (actions : List ClientAction) : InUse := actions.foldl InUse.step s

/-- The balance that the client leaves behind. -/
def lastAssigned (balance : ℤ) : List ClientAction → ℤ
  | [] => balance
  | .assign balance' :: rest => lastAssigned balance' rest
  | .commit _ :: rest => lastAssigned balance rest

/-- The client calls `commit` at some point. -/
def Attempts (actions : List ClientAction) : Prop := ∃ flushes, .commit flushes ∈ actions

section Rollback

variable {w w' : Shared} {tx : Transaction} {s : InUse} {a : ClientAction}
  {actions : List ClientAction} {modification original : ℤ} {opens flushes attempted : Bool}

/-- A transaction of which no `commit` has returned: its stream is failed once one was attempted. -/
structure Pending (original : ℤ) (attempted : Bool) (s : InUse) : Prop where
  committed_eq : s.tx.committed = false
  original_eq : s.tx.originalState = original
  isOpen_eq : s.tx.stream.isOpen = true
  failed_eq : s.tx.stream.failed = attempted
  returned_eq : s.returned = false

theorem durableFlush_of_failed {log : List Record} {file : LogStream} (hfailed : file.failed = true)
    (line : Record) : durableFlush log (file.insert line) flushes = (log, file, false) := by
  rw [LogStream.insert, if_pos hfailed, durableFlush, if_pos hfailed]

theorem durableFlush_of_good {log : List Record} {file : LogStream} (hgood : file.failed = false)
    (line : Record) : durableFlush log (file.insert line) flushes =
      if flushes then (log ++ (file.pending ++ [line]), { file with pending := [] }, true)
      else (log, { file with failed := true, pending := [] }, false) := by
  simp [LogStream.insert, durableFlush, hgood]

theorem pending_of_construct (hconstruct : construct w modification opens flushes = (w', some tx)) :
    (InUse.start w' tx).shared.balance = w.balance ∧
      Pending w.balance false (.start w' tx) := by
  cases opens with
  | false => simp [construct] at hconstruct
  | true =>
    cases flushes with
    | false => simp [construct, durableFlush, LogStream.insert] at hconstruct
    | true =>
      simp only [construct, durableFlush, LogStream.insert, Bool.not_true, if_true,
        Bool.false_eq_true, if_false, Prod.mk.injEq, Option.some_inj] at hconstruct
      obtain ⟨rfl, rfl⟩ := hconstruct
      exact ⟨rfl, rfl, rfl, rfl, rfl, rfl⟩

/-- A call of `commit` that does not return leaves the balance alone and the stream failed. -/
theorem pending_commit (flushes : Bool) (hs : Pending original attempted s)
    (hreturned : (s.step (.commit flushes)).returned = false) :
    (s.step (.commit flushes)).shared.balance = s.shared.balance ∧
      Pending original true (s.step (.commit flushes)) := by
  obtain ⟨hcommitted, horiginal, hopen, hfailed, -⟩ := hs
  simp only [InUse.step, commit, hcommitted, Bool.false_eq_true, if_false] at hreturned ⊢
  cases attempted with
  | true =>
    rw [durableFlush_of_failed hfailed] at hreturned ⊢
    exact ⟨rfl, rfl, horiginal, hopen, hfailed, hreturned⟩
  | false =>
    rw [durableFlush_of_good hfailed] at hreturned ⊢
    cases flushes with
    | true => simp at hreturned
    | false => exact ⟨rfl, rfl, horiginal, hopen, rfl, hreturned⟩

theorem returned_mono (hreturned : (s.run actions).returned = false) : s.returned = false := by
  induction actions generalizing s with
  | nil => exact hreturned
  | cons a actions ih =>
    have hstep := ih hreturned
    cases a with
    | assign balance => exact hstep
    | commit flushes => exact (Bool.or_eq_false_iff.mp hstep).1

/-- What the client leaves behind, as long as no `commit` returns. -/
theorem pending_run (hs : Pending original attempted s)
    (hreturned : (s.run actions).returned = false) :
    (s.run actions).shared.balance = lastAssigned s.shared.balance actions ∧
      ∃ failed, Pending original failed (s.run actions) ∧
        (failed = true ↔ attempted = true ∨ Attempts actions) := by
  induction actions generalizing s attempted with
  | nil => exact ⟨rfl, attempted, hs, by simp [Attempts]⟩
  | cons a actions ih =>
    cases a with
    | assign balance =>
      have hnext : Pending original attempted (s.step (.assign balance)) := { hs with }
      obtain ⟨hbalance, failed, hpending, hfailed⟩ := ih hnext hreturned
      exact ⟨hbalance, failed, hpending, by simpa [Attempts] using hfailed⟩
    | commit flushes =>
      obtain ⟨hkept, hnext⟩ := pending_commit flushes hs (returned_mono hreturned)
      obtain ⟨hbalance, failed, hpending, hfailed⟩ := ih hnext hreturned
      refine ⟨hbalance.trans (by rw [hkept]; rfl), failed, hpending, iff_of_true ?_ ?_⟩
      · exact hfailed.mpr (Or.inl rfl)
      · exact Or.inr ⟨flushes, List.mem_cons_self⟩

/-- The destructor restores the balance as long as the stream is good and the abort is logged. -/
theorem balance_destroy (hs : Pending original attempted s) :
    (destroy s.shared s.tx flushes).balance =
      if attempted = false ∧ flushes = true then original else s.shared.balance := by
  obtain ⟨hcommitted, horiginal, hopen, hfailed, -⟩ := hs
  simp only [destroy, hcommitted, hopen, Bool.false_eq_true, if_false, if_true]
  cases attempted with
  | true =>
    rw [durableFlush_of_failed hfailed]
    simp
  | false =>
    rw [durableFlush_of_good hfailed]
    cases flushes <;> simp [horiginal]

/-- For every use of a transaction of which no `commit` returns, the balance after destruction is
that of its construction exactly when no `commit` was attempted and the abort is logged, or the
client has left this balance behind. -/
theorem rolledBack_iff (hconstruct : construct w modification opens flushes = (w', some tx))
    (actions : List ClientAction) (logged : Bool) {last : InUse}
    (hlast : (InUse.start w' tx).run actions = last)
    (hreturned : last.returned = false) :
    (destroy last.shared last.tx logged).balance = w.balance ↔
      (¬Attempts actions ∧ logged = true) ∨ lastAssigned w.balance actions = w.balance := by
  obtain ⟨hbalance, hpending⟩ := pending_of_construct hconstruct
  subst hlast
  obtain ⟨hleft, failed, hfinal, hfailed⟩ := pending_run hpending hreturned
  have hattempts : failed = false ↔ ¬Attempts actions := by
    rw [← Bool.not_eq_true, hfailed]
    simp
  rw [hbalance] at hleft
  rw [balance_destroy hfinal, ← hattempts, hleft]
  split_ifs with hcondition
  · exact iff_of_true rfl (Or.inl hcondition)
  · exact (or_iff_right hcondition).symm

/-- A client that assigns twice, without a call of `commit`. -/
theorem rolledBack_iff_example :
    ∃ w tx last, construct ⟨1000, []⟩ 200 true true = (w, some tx) ∧
      (InUse.start w tx).run [.assign 700, .assign 5] = last ∧ last.returned = false ∧
      (destroy last.shared last.tx true).balance = 1000 := by
  refine ⟨_, _, _, rfl, rfl, rfl, ?_⟩
  exact (rolledBack_iff (rfl : construct ⟨1000, []⟩ 200 true true = _) [.assign 700, .assign 5] true
    rfl rfl).mpr (Or.inl ⟨by simp [Attempts], rfl⟩)

/-- The client has spent all of the balance when the abort cannot be logged. -/
theorem abort_not_logged :
    ¬∀ (w : Shared) (modification : ℤ) (opens flushes : Bool) (w' : Shared) (tx : Transaction)
      (actions : List ClientAction) (logged : Bool) (last : InUse),
      construct w modification opens flushes = (w', some tx) →
      (InUse.start w' tx).run actions = last → last.returned = false →
      (destroy last.shared last.tx logged).balance = w.balance := by
  intro hall
  have hkept := hall ⟨1000, []⟩ 200 true true _ _ [.assign 0] false _ rfl rfl rfl
  exact absurd hkept (by decide)

end Rollback

end WsServer.Transactions
