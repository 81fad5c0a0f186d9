import WsServer.Transactions.WriteAheadLog

/-!
# Streams that keep what they could not write

`Transactions.durableFlush` loses the line of a flush that fails. A `std::ofstream` keeps it in its
buffer, and its destructor, which runs when the transaction is destroyed or when the constructor
throws, tries to write it once more. With that a `COMMIT` line may come into the file behind the
back of `commit()`, which has thrown: the log is then ahead of the balance by what was committed so
late (`told_of_run`). Without such writes the runs are those of the first model (`run_forget`).

A write stores the whole buffer or nothing of it.
-/

set_option autoImplicit false
set_option relaxedAutoImplicit false

namespace WsServer.Transactions.Retained

open Foundations

/-! ### The source -/

/-- `durable_flush`: a write that fails leaves the lines in the buffer. -/
def durableFlush (log : List Record) (file : LogStream) (flushes : Bool) :
    List Record × LogStream × Bool :=
  if file.failed then (log, file, false)
  else if flushes then (log ++ file.pending, { file with pending := [] }, true)
  else (log, { file with failed := true }, false)

/-- The destructor of `std::ofstream` with the lines in the log file; it writes the buffer, failed
stream or not. -/
def closeStream (log : List Record) (file : LogStream) (writes : Bool) : List Record :=
  if writes then log ++ file.pending else log

/-- The constructor; none when it throws, and then the stream is destroyed. -/
def construct (w : Shared) (modification : ℤ) (opens flushes writes : Bool) :
    Shared × Option Transaction :=
  let tx : Transaction :=
    { stream := { isOpen := opens, failed := !opens, pending := [] }, originalState := w.balance,
      modification := modification, committed := false }
  if tx.stream.failed then ({ w with log := closeStream w.log tx.stream writes }, none)
  else
    let line := Record.start tx.originalState tx.modification
    match durableFlush w.log (tx.stream.insert line) flushes with
    | (log, stream, true) => ({ w with log := log }, some { tx with stream := stream })
    | (log, stream, false) => ({ w with log := closeStream log stream writes }, none)

/-- `commit`; whether it returns is the last part. -/
def commit (w : Shared) (tx : Transaction) (flushes : Bool) : Shared × Transaction × Bool :=
  if tx.committed then (w, tx, true)
  else
    match durableFlush w.log (tx.stream.insert .commit) flushes with
    | (log, stream, true) =>
      ({ balance := w.balance + tx.modification, log := log },
        { tx with stream := stream, committed := true }, true)
    | (log, stream, false) => ({ w with log := log }, { tx with stream := stream }, false)

/-- The body of the destructor, with the stream that it leaves. -/
def rollBack (w : Shared) (tx : Transaction) (flushes : Bool) : Shared × LogStream :=
  if tx.committed then (w, tx.stream)
  else if tx.stream.isOpen then
    match durableFlush w.log (tx.stream.insert .abort) flushes with
    | (log, stream, true) => ({ balance := tx.originalState, log := log }, stream)
    | (log, stream, false) => ({ w with log := log }, stream)
  else ({ w with balance := tx.originalState }, tx.stream)

/-- The destructor and that of the stream after it. -/
def destroy (w : Shared) (tx : Transaction) (flushes writes : Bool) : Shared :=
  let (w, stream) := rollBack w tx flushes
  { w with log := closeStream w.log stream writes }

inductive Action
  | construct (modification : ℤ) (opens flushes writes : Bool)
  | commit (i : ℕ) (flushes : Bool)
  | destroy (i : ℕ) (flushes writes : Bool)
  deriving DecidableEq

def step (s : System) : Action → Option System
  | .construct modification opens flushes writes =>
    let r := construct s.shared modification opens flushes writes
    some
      { shared := r.1
        objects := s.objects ++ r.2.toList.map fun tx ↦
          { tx := tx, live := true, returned := false, creditedBefore := s.credited } }
  | .commit i flushes =>
    s.update i fun o ↦
      let r := commit s.shared o.tx flushes
      (r.1, { o with tx := r.2.1, returned := o.returned || r.2.2 })
  | .destroy i flushes writes =>
    s.update i fun o ↦ (destroy s.shared o.tx flushes writes, { o with live := false })

/-- The actions recorded in `h` lead from the given balance and an empty log to `s`. -/
abbrev Run (balance : ℤ) (h : List (Transition System Action)) (s : System) : Prop :=
  Execution (fun s a s' ↦ step s a = some s') (initial balance) h s

def Action.isConstruct : Action → Bool
  | .construct _ _ _ _ => true
  | _ => false

/-- A transaction is constructed only when all before it are destroyed. -/
def Sequential (x : Transition System Action) : Prop :=
  x.action.isConstruct = true → x.before.AllDestroyed

instance (x : Transition System Action) : Decidable (Sequential x) :=
  inferInstanceAs (Decidable (x.action.isConstruct = true → x.before.AllDestroyed))

/-! ### Commits behind the back -/

/-- What the destruction of a transaction commits in the log but not in the balance: its
modification, if the buffer of its stream has a `COMMIT` line and is written now. -/
def lateCredit (x : Transition System Action) : ℤ :=
  match x.action with
  | .destroy i _ true =>
    match x.before.objects[i]? with
    | some o => if .commit ∈ o.tx.stream.pending then o.tx.modification else 0
    | none => 0
  | _ => 0

/-- The modifications that were committed so late in a run. -/
def late (h : List (Transition System Action)) : ℤ := (h.map lateCredit).sum

theorem late_concat (h : List (Transition System Action)) (x : Transition System Action) :
    late (h ++ [x]) = late h + lateCredit x := by
  simp [late]

/-- The log `log'` has one line more than `log` at most. -/
def Grows (log log' : List Record) : Prop := log' = log ∨ ∃ line, log' = log ++ [line]

/-- A transaction `tx` that is under way after the lines `log`, which tell the balance `base` to
start from: its `START` line is the last one, and a `COMMIT` line may be stuck in its stream; or
both lines are in the log. -/
inductive UnderWay (base : ℤ) (log : List Record) (tx : Transaction) : Shared → Prop
  | started (horiginal : tx.originalState = base + replay log) (hclosed : tx.committed = false)
      (hopen : tx.stream.isOpen = true)
      (hpending : tx.stream.pending = [] ∨
        (tx.stream.failed = true ∧ tx.stream.pending = [.commit])) :
      UnderWay base log tx
        { balance := tx.originalState
          log := log ++ [.start tx.originalState tx.modification] }
  | committed (horiginal : tx.originalState = base + replay log) (hcommitted : tx.committed = true)
      (hpending : tx.stream.pending = []) :
      UnderWay base log tx
        { balance := tx.originalState + tx.modification
          log := log ++ [.start tx.originalState tx.modification, .commit] }

/-- Between transactions the log tells the balance; otherwise the last object is under way. -/
inductive Told (base : ℤ) (s : System) : Prop
  | between (hdestroyed : s.AllDestroyed) (hbalance : s.shared.balance = base + replay s.shared.log)
  | within {objects : List Object} {o : Object} {log : List Record}
      (hobjects : s.objects = objects ++ [o]) (hdestroyed : ∀ o' ∈ objects, o'.live = false)
      (hlive : o.live = true) (hunder : UnderWay base log o.tx s.shared)

section Steps

variable {base : ℤ} {log : List Record} {w : Shared} {tx : Transaction} {s s' : System}
  {file : LogStream}

/-- Flushing a stream with one line inserted, if its buffer was empty: the line is in the log and
the call returns, or it is in the buffer, unless the stream had failed before, and the call
throws. -/
theorem durableFlush_insert (log : List Record) (hpending : file.pending = []) (line : Record)
    (flushes : Bool) :
    (∃ file', durableFlush log (file.insert line) flushes = (log ++ [line], file', true) ∧
        file'.pending = [] ∧ file'.isOpen = file.isOpen) ∨
      ∃ file', durableFlush log (file.insert line) flushes = (log, file', false) ∧
        file'.failed = true ∧ (file'.pending = [] ∨ file'.pending = [line]) ∧
        file'.isOpen = file.isOpen := by
  cases hfailed : file.failed with
  | true =>
    exact Or.inr ⟨file, by simp [durableFlush, LogStream.insert, hfailed], hfailed,
      Or.inl hpending, rfl⟩
  | false =>
    have hinsert : file.insert line = { file with pending := [line] } := by
      simp [LogStream.insert, hfailed, hpending]
    rw [hinsert]
    cases flushes with
    | true => exact Or.inl ⟨{ file with pending := [] }, by simp [durableFlush, hfailed], rfl, rfl⟩
    | false =>
      exact Or.inr ⟨{ file with failed := true, pending := [line] },
        by simp [durableFlush, hfailed], rfl, Or.inr rfl, rfl⟩

/-- A failed stream takes no line and throws. -/
theorem durableFlush_of_failed (log : List Record) (hfailed : file.failed = true) (line : Record)
    (flushes : Bool) : durableFlush log (file.insert line) flushes = (log, file, false) := by
  simp [durableFlush, LogStream.insert, hfailed]

theorem closeStream_cases (log : List Record) (writes : Bool) {line : Record}
    (hpending : file.pending = [] ∨ file.pending = [line]) :
    closeStream log file writes = log ∨ closeStream log file writes = log ++ [line] := by
  cases writes with
  | false => exact Or.inl rfl
  | true =>
    rcases hpending with hpending | hpending
    · exact Or.inl (by simp [closeStream, hpending])
    · exact Or.inr (by simp [closeStream, hpending])

theorem closeStream_nil (log : List Record) (writes : Bool) (hpending : file.pending = []) :
    closeStream log file writes = log := by
  cases writes with
  | false => rfl
  | true => simp [closeStream, hpending]

/-- A `START` line alone, or one that another line than `COMMIT` follows, tells nothing. -/
theorem replay_start (log : List Record) (original modification : ℤ) :
    replay (log ++ [.start original modification]) = replay log := by
  rw [replay_append_start]
  simp [replay, Record.credit]

theorem replay_aborted (log : List Record) (original modification : ℤ) :
    replay (log ++ [.start original modification, .abort]) = replay log := by
  rw [replay_append_start]
  simp [replay, Record.credit]

theorem replay_committed (log : List Record) (original modification : ℤ) :
    replay (log ++ [.start original modification, .commit]) = replay log + modification := by
  rw [replay_append_start]
  simp [replay, Record.credit]

/-- The constructor throws, with its line in the log or not, or the transaction is under way. -/
theorem construct_cases (hbalance : w.balance = base + replay w.log) (modification : ℤ)
    (opens flushes writes : Bool) :
    (∃ log', construct w modification opens flushes writes = ({ w with log := log' }, none) ∧
        Grows w.log log' ∧ replay log' = replay w.log) ∨
      ∃ w' tx, construct w modification opens flushes writes = (w', some tx) ∧
        Grows w.log w'.log ∧ UnderWay base w.log tx w' := by
  cases opens with
  | false => exact Or.inl ⟨_, rfl, Or.inl (closeStream_nil w.log writes rfl),
      congrArg replay (closeStream_nil w.log writes rfl)⟩
  | true =>
    unfold construct
    simp only [Bool.not_true, Bool.false_eq_true, if_false]
    have hnew : (⟨true, false, []⟩ : LogStream).pending = [] := rfl
    rcases durableFlush_insert w.log hnew (.start w.balance modification) flushes
      with ⟨file, hflush, hpending, hopen⟩ | ⟨file, hflush, -, hpending, -⟩
    · rw [hflush]
      exact Or.inr ⟨_, _, rfl, Or.inr ⟨_, rfl⟩, .started hbalance rfl hopen (Or.inl hpending)⟩
    · rw [hflush]
      refine Or.inl ⟨_, rfl, ?_⟩
      rcases closeStream_cases w.log writes hpending with hclose | hclose
      · exact ⟨Or.inl hclose, congrArg replay hclose⟩
      · exact ⟨Or.inr ⟨_, hclose⟩, (congrArg replay hclose).trans (replay_start _ _ _)⟩

theorem UnderWay.commit (h : UnderWay base log tx w) (flushes : Bool) :
    UnderWay base log (commit w tx flushes).2.1 (commit w tx flushes).1 ∧
      Grows w.log (Retained.commit w tx flushes).1.log := by
  cases h with
  | started horiginal hclosed hopen hpending =>
    simp only [Retained.commit, hclosed, Bool.false_eq_true, if_false]
    rcases hpending with hpending | ⟨hfailed, hpending⟩
    · rcases durableFlush_insert (log ++ [.start tx.originalState tx.modification]) hpending
          .commit flushes
        with ⟨file, hflush, hpending', -⟩ | ⟨file, hflush, hfailed, hpending', hsame⟩
      · rw [hflush]
        refine ⟨?_, Or.inr ⟨_, rfl⟩⟩
        rw [List.append_assoc]
        exact .committed horiginal rfl hpending'
      · rw [hflush]
        exact ⟨.started horiginal rfl (hsame.trans hopen)
          (hpending'.imp_right fun hcommit ↦ ⟨hfailed, hcommit⟩), Or.inl rfl⟩
    · rw [durableFlush_of_failed _ hfailed]
      exact ⟨.started horiginal rfl hopen (Or.inr ⟨hfailed, hpending⟩), Or.inl rfl⟩
  | committed horiginal hcommitted hpending =>
    simp only [Retained.commit, hcommitted, if_true]
    exact ⟨.committed horiginal hcommitted hpending, Or.inl rfl⟩

/-- After the destructors the log tells the balance again, but for a `COMMIT` line that has come
into it only now. -/
theorem UnderWay.destroy (h : UnderWay base log tx w) (flushes writes : Bool) :
    Grows w.log (destroy w tx flushes writes).log ∧
      (destroy w tx flushes writes).balance +
          (if writes = true ∧ .commit ∈ tx.stream.pending then tx.modification else 0) =
        base + replay (destroy w tx flushes writes).log := by
  cases h with
  | started horiginal hclosed hopen hpending =>
    simp only [Retained.destroy, rollBack, hclosed, hopen, Bool.false_eq_true, if_false, if_true]
    rcases hpending with hpending | ⟨hfailed, hpending⟩
    · have hlate : ¬ (writes = true ∧ Record.commit ∈ tx.stream.pending) := by simp [hpending]
      rw [if_neg hlate, add_zero]
      rcases durableFlush_insert (log ++ [.start tx.originalState tx.modification]) hpending
          .abort flushes with ⟨file, hflush, hpending', -⟩ | ⟨file, hflush, -, hpending', -⟩
      · rw [hflush]
        simp only [closeStream_nil _ writes hpending']
        refine ⟨Or.inr ⟨_, rfl⟩, ?_⟩
        rw [List.append_assoc]
        exact horiginal.trans (congrArg _ (replay_aborted _ _ _).symm)
      · rw [hflush]
        rcases closeStream_cases (log ++ [.start tx.originalState tx.modification]) writes hpending'
          with hclose | hclose
        · simp only [hclose]
          exact ⟨Or.inl rfl, horiginal.trans (congrArg _ (replay_start _ _ _).symm)⟩
        · simp only [hclose]
          refine ⟨Or.inr ⟨_, rfl⟩, ?_⟩
          rw [List.append_assoc]
          exact horiginal.trans (congrArg _ (replay_aborted _ _ _).symm)
    · rw [durableFlush_of_failed _ hfailed]
      cases writes with
      | false =>
        simp only [closeStream, Bool.false_eq_true, false_and, if_false, add_zero]
        exact ⟨Or.inl rfl, horiginal.trans (congrArg _ (replay_start _ _ _).symm)⟩
      | true =>
        -- the line that `commit` could not write comes behind the `START` line
        simp only [closeStream, hpending, List.mem_singleton, and_self, if_true]
        refine ⟨Or.inr ⟨_, rfl⟩, ?_⟩
        rw [List.append_assoc, List.singleton_append, replay_committed, horiginal]
        ring
  | committed horiginal hcommitted hpending =>
    simp only [Retained.destroy, rollBack, hcommitted, if_true, closeStream_nil _ writes hpending]
    refine ⟨Or.inl rfl, ?_⟩
    rw [replay_committed, horiginal, hpending]
    simp [add_assoc]

/-- At every point the log tells the balance. -/
theorem UnderWay.balance_eq (h : UnderWay base log tx w) : w.balance = base + replay w.log := by
  cases h with
  | started horiginal => exact horiginal.trans (congrArg _ (replay_start _ _ _).symm)
  | committed horiginal => simp only [replay_committed, horiginal, add_assoc]

theorem Told.balance_eq (h : Told base s) : s.shared.balance = base + replay s.shared.log := by
  cases h with
  | between _ hbalance => exact hbalance
  | within _ _ _ hunder => exact hunder.balance_eq

/-- A step adds one line at most, and the log tells the balance from a base that is less by what the
step has committed late. -/
theorem Told.step (h : Told base s) {a : Action} (hsequential : Sequential ⟨s, a, s'⟩)
    (hstep : step s a = some s') :
    Grows s.shared.log s'.shared.log ∧ Told (base - lateCredit ⟨s, a, s'⟩) s' := by
  cases a with
  | construct modification opens flushes writes =>
    have hlate : lateCredit ⟨s, .construct modification opens flushes writes, s'⟩ = 0 := rfl
    rw [hlate, sub_zero]
    cases h with
    | within hobjects _ hlive _ =>
      have hdead := hsequential rfl
      rw [System.AllDestroyed, hobjects, List.forall_mem_append, List.forall_mem_singleton] at hdead
      simp [hdead.2] at hlive
    | between hdestroyed hbalance =>
      obtain rfl := Option.some.inj hstep
      rcases construct_cases hbalance modification opens flushes writes
        with ⟨log', hnone, hgrows, hreplay⟩ | ⟨w', tx, hsome, hgrows, hunder⟩
      · rw [hnone]
        refine ⟨hgrows, .between (by simpa [System.AllDestroyed] using hdestroyed) ?_⟩
        exact hbalance.trans (congrArg _ hreplay.symm)
      · rw [hsome]
        exact ⟨hgrows, .within rfl hdestroyed rfl hunder⟩
  | commit i flushes =>
    have hlate : lateCredit ⟨s, .commit i flushes, s'⟩ = 0 := rfl
    rw [hlate, sub_zero]
    obtain ⟨o', hi, hlive', rfl⟩ := update_eq_some hstep
    cases h with
    | between hdestroyed _ => simp [hdestroyed o' (List.mem_of_getElem? hi)] at hlive'
    | within hobjects hdestroyed hlive hunder =>
      rw [hobjects] at hi
      obtain ⟨rfl, rfl⟩ := eq_of_live hdestroyed hi hlive'
      rw [hobjects, set_last]
      obtain ⟨hunder', hgrows⟩ := hunder.commit flushes
      exact ⟨hgrows, .within rfl hdestroyed hlive' hunder'⟩
  | destroy i flushes writes =>
    obtain ⟨o', hi, hlive', rfl⟩ := update_eq_some hstep
    cases h with
    | between hdestroyed _ => simp [hdestroyed o' (List.mem_of_getElem? hi)] at hlive'
    | within hobjects hdestroyed hlive hunder =>
      have hi' := hi
      rw [hobjects] at hi'
      obtain ⟨rfl, rfl⟩ := eq_of_live hdestroyed hi' hlive'
      obtain ⟨hgrows, hbalance⟩ := hunder.destroy flushes writes
      refine ⟨hgrows, .between ?_ ?_⟩
      · unfold System.AllDestroyed
        rw [hobjects, set_last, List.forall_mem_append, List.forall_mem_singleton]
        exact ⟨hdestroyed, rfl⟩
      · cases writes with
        | false => simpa [lateCredit] using hbalance
        | true =>
          simp only [lateCredit, hi]
          simp only [true_and] at hbalance
          omega

end Steps

section Runs

variable {balance : ℤ} {h : List (Transition System Action)} {s : System}

/-- In every sequential run the log tells the balance, but for what was committed late. -/
theorem told_of_run (hrun : Run balance h s) (hsequential : ∀ x ∈ h, Sequential x) :
    Told (balance - late h) s := by
  induction hrun with
  | start =>
    refine .between (fun o ho ↦ by simp [initial] at ho) ?_
    simp [initial, late, replay]
  | snoc _ hstep ih =>
    rw [List.forall_mem_append, List.forall_mem_singleton] at hsequential
    have htold := ((ih hsequential.1).step hsequential.2 hstep).2
    rwa [late_concat, ← sub_sub]

end Runs

/-! ### Lines that stay lost -/

/-- The stream without what a failed write has left in its buffer. -/
def forget (file : LogStream) : LogStream :=
  if file.failed then { file with pending := [] } else file

def forgetTx (tx : Transaction) : Transaction := { tx with stream := forget tx.stream }

def forgetObject (o : Object) : Object := { o with tx := forgetTx o.tx }

def forgetSystem (s : System) : System := { s with objects := s.objects.map forgetObject }

/-- The action in the first model, where a stream that is destroyed writes nothing. -/
def Action.plain : Action → Transactions.Action
  | .construct modification opens flushes _ => .construct modification opens flushes
  | .commit i flushes => .commit i flushes
  | .destroy i flushes _ => .destroy i flushes

/-- Whether a stream that is destroyed by the action would write its buffer. -/
def Action.writes : Action → Bool
  | .construct _ _ _ writes => writes
  | .commit _ _ => false
  | .destroy _ _ writes => writes

section Forgetting

variable {balance : ℤ} {s s' : System} {a : Action} {h : List (Transition System Action)}

theorem durableFlush_forget (log : List Record) (file : LogStream) (line : Record)
    (flushes : Bool) :
    Transactions.durableFlush log ((forget file).insert line) flushes =
      ((durableFlush log (file.insert line) flushes).1,
        forget (durableFlush log (file.insert line) flushes).2.1,
        (durableFlush log (file.insert line) flushes).2.2) := by
  cases hfailed : file.failed with
  | true =>
    simp [forget, LogStream.insert, durableFlush, Transactions.durableFlush, hfailed]
  | false =>
    cases flushes <;>
      simp [forget, LogStream.insert, durableFlush, Transactions.durableFlush, hfailed]

theorem construct_forget (w : Shared) (modification : ℤ) (opens flushes : Bool) :
    Transactions.construct w modification opens flushes =
      ((construct w modification opens flushes false).1,
        (construct w modification opens flushes false).2.map forgetTx) := by
  cases opens with
  | false => rfl
  | true => cases flushes <;> rfl

theorem commit_forget (w : Shared) (tx : Transaction) (flushes : Bool) :
    Transactions.commit w (forgetTx tx) flushes =
      ((commit w tx flushes).1, forgetTx (commit w tx flushes).2.1, (commit w tx flushes).2.2) := by
  unfold Transactions.commit commit
  simp only [forgetTx, durableFlush_forget]
  split_ifs
  · rfl
  · obtain ⟨log, stream, returns⟩ := durableFlush w.log (tx.stream.insert .commit) flushes
    cases returns <;> rfl

theorem destroy_forget (w : Shared) (tx : Transaction) (flushes : Bool) :
    Transactions.destroy w (forgetTx tx) flushes = destroy w tx flushes false := by
  have hopen : (forget tx.stream).isOpen = tx.stream.isOpen := by
    unfold forget
    split_ifs <;> rfl
  unfold Transactions.destroy destroy rollBack
  simp only [forgetTx, durableFlush_forget, hopen, closeStream, Bool.false_eq_true, if_false]
  split_ifs
  · rfl
  · obtain ⟨log, stream, returns⟩ := durableFlush w.log (tx.stream.insert .abort) flushes
    cases returns <;> rfl
  · rfl

theorem update_forget {i : ℕ} {f f' : Object → Shared × Object}
    (hf : ∀ o, f' (forgetObject o) = ((f o).1, forgetObject (f o).2))
    (hstep : s.update i f = some s') :
    (forgetSystem s).update i f' = some (forgetSystem s') := by
  obtain ⟨o, hi, hlive, rfl⟩ := update_eq_some hstep
  have hlive' : (forgetObject o).live = true := hlive
  simp [System.update, forgetSystem, hi, hlive', hf, List.map_set]

theorem credited_forget (s : System) : (forgetSystem s).credited = s.credited := by
  simp only [System.credited, forgetSystem, List.map_map]
  rfl

theorem step_forget (hlost : a.writes = false) (hstep : step s a = some s') :
    (forgetSystem s).step a.plain = some (forgetSystem s') := by
  cases a with
  | construct modification opens flushes writes =>
    obtain rfl : writes = false := hlost
    obtain rfl := Option.some.inj hstep
    have hconstruct := construct_forget s.shared modification opens flushes
    simp only [Action.plain, System.step]
    rw [show (forgetSystem s).shared = s.shared from rfl, hconstruct, credited_forget]
    cases hr : (construct s.shared modification opens flushes false).2 with
    | none => simp [forgetSystem]
    | some tx => simp [forgetSystem, forgetObject]
  | commit i flushes =>
    refine update_forget (fun o ↦ ?_) hstep
    simp only [forgetObject, commit_forget]
    rfl
  | destroy i flushes writes =>
    obtain rfl : writes = false := hlost
    refine update_forget (fun o ↦ ?_) hstep
    simp only [forgetObject, destroy_forget]
    rfl

/-- As long as no stream writes when it is destroyed, a run is one of the first model. -/
theorem run_forget (hrun : Run balance h s) (hlost : ∀ x ∈ h, x.action.writes = false) :
    ∃ h', Transactions.Run balance h' (forgetSystem s) ∧
      h'.map Transition.action = h.map fun x ↦ x.action.plain := by
  induction hrun with
  | start => exact ⟨[], .start, rfl⟩
  | snoc _ hstep ih =>
    rw [List.forall_mem_append, List.forall_mem_singleton] at hlost
    obtain ⟨h', hrun', hactions⟩ := ih hlost.1
    exact ⟨_, .snoc hrun' (step_forget hlost.2 hstep), by simp [hactions]⟩

end Forgetting

end WsServer.Transactions.Retained
