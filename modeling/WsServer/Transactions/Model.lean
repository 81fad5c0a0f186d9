import WsServer.Foundations.Runs

/-!
# The transactions of `transaction.cpp`

`Shared` is what all `Transaction` objects work on: the balance they hold a reference to and the
lines that are in the log file for good. Each object writes to the file through a stream of its own.
What the system does with a call is an argument: whether the file opens and whether a flush reaches
the disk. A flush that does not loses the pending line and leaves the stream failed: that a line
whose flush has failed never reaches the file is an assumption, which `Retained` is without.

An `int` is an integer: that no addition overflows is assumed throughout. The messages for the
console are left out.
-/

set_option autoImplicit false
set_option relaxedAutoImplicit false

namespace WsServer.Transactions

open Foundations

/-- A line of the log file. -/
inductive Record
  | start (original modification : ℤ)
  | commit
  | abort
  deriving DecidableEq

/-- `std::ofstream`: lines are pending between the insertion and the flush. -/
structure LogStream where
  isOpen : Bool
  failed : Bool
  pending : List Record
  deriving DecidableEq

/-- `operator<<`, which does nothing on a failed stream. -/
def LogStream.insert (file : LogStream) (line : Record) : LogStream :=
  if file.failed then file else { file with pending := file.pending ++ [line] }

/-- `durable_flush` with the lines in the log file; whether it returns is the last part. -/
def durableFlush (log : List Record) (file : LogStream) (flushes : Bool) :
    List Record × LogStream × Bool :=
  if file.failed then (log, file, false)
  else if flushes then (log ++ file.pending, { file with pending := [] }, true)
  else (log, { file with failed := true, pending := [] }, false)

structure Transaction where
  stream : LogStream
  originalState : ℤ
  modification : ℤ
  committed : Bool
  deriving DecidableEq

structure Shared where
  balance : ℤ
  log : List Record
  deriving DecidableEq

/-- The constructor; none when it throws. -/
def construct (w : Shared) (modification : ℤ) (opens flushes : Bool) :
    Shared × Option Transaction :=
  let tx : Transaction :=
    { stream := { isOpen := opens, failed := !opens, pending := [] }, originalState := w.balance,
      modification := modification, committed := false }
  if tx.stream.failed then (w, none)
  else
    let line := Record.start tx.originalState tx.modification
    match durableFlush w.log (tx.stream.insert line) flushes with
    | (log, stream, true) => ({ w with log := log }, some { tx with stream := stream })
    | (log, _, false) => ({ w with log := log }, none)

/-- `commit`; whether it returns is the last part. -/
def commit (w : Shared) (tx : Transaction) (flushes : Bool) : Shared × Transaction × Bool :=
  if tx.committed then (w, tx, true)
  else
    match durableFlush w.log (tx.stream.insert .commit) flushes with
    | (log, stream, true) =>
      ({ balance := w.balance + tx.modification, log := log },
        { tx with stream := stream, committed := true }, true)
    | (log, stream, false) => ({ w with log := log }, { tx with stream := stream }, false)

/-- The destructor. -/
def destroy (w : Shared) (tx : Transaction) (flushes : Bool) : Shared :=
  if tx.committed then w
  else if tx.stream.isOpen then
    match durableFlush w.log (tx.stream.insert .abort) flushes with
    | (log, _, true) => { balance := tx.originalState, log := log }
    | (log, _, false) => { w with log := log }
  else { w with balance := tx.originalState }

/-! ### Objects over one balance -/

/-- An object with what has been done with it: `live` until it is destroyed, `returned` when a call
of `commit` has returned, and what was credited by the time it was constructed. -/
structure Object where
  tx : Transaction
  live : Bool
  returned : Bool
  creditedBefore : ℤ
  deriving DecidableEq

/-- The objects ever constructed, in this order, and what they share. -/
structure System where
  shared : Shared
  objects : List Object
  deriving DecidableEq

/-- What an object adds to the balance: its modification once a call of `commit` has returned. -/
def Object.credit (o : Object) : ℤ := if o.returned then o.tx.modification else 0

/-- The sum of the modifications of the transactions whose `commit` has returned. -/
def System.credited (s : System) : ℤ := (s.objects.map Object.credit).sum

inductive Action
  | construct (modification : ℤ) (opens flushes : Bool)
  | commit (i : ℕ) (flushes : Bool)
  | destroy (i : ℕ) (flushes : Bool)
  deriving DecidableEq

/-- What a member function does with the object `i`; undefined unless the object is live. -/
def System.update (s : System) (i : ℕ) (f : Object → Shared × Object) : Option System :=
  match s.objects[i]? with
  | none => none
  | some o =>
    if o.live then some { shared := (f o).1, objects := s.objects.set i (f o).2 } else none

def System.step (s : System) : Action → Option System
  | .construct modification opens flushes =>
    let r := construct s.shared modification opens flushes
    some
      { shared := r.1
        objects := s.objects ++ r.2.toList.map fun tx ↦
          { tx := tx, live := true, returned := false, creditedBefore := s.credited } }
  | .commit i flushes =>
    s.update i fun o ↦
      let r := commit s.shared o.tx flushes
      (r.1, { o with tx := r.2.1, returned := o.returned || r.2.2 })
  | .destroy i flushes =>
    s.update i fun o ↦ (destroy s.shared o.tx flushes, { o with live := false })

def initial (balance : ℤ) : System := { shared := { balance := balance, log := [] }, objects := [] }

/-- The actions recorded in `h` lead from the given balance and an empty log to `s`. -/
abbrev Run (balance : ℤ) (h : List (Transition System Action)) (s : System) : Prop :=
  Execution (fun s a s' ↦ s.step a = some s') (initial balance) h s

/-- Once every object is destroyed. -/
def System.AllDestroyed (s : System) : Prop := ∀ o ∈ s.objects, o.live = false

instance (s : System) : Decidable s.AllDestroyed :=
  inferInstanceAs (Decidable (∀ o ∈ s.objects, o.live = false))

section Updates

variable {s s' : System} {i : ℕ} {o o' : Object} {w : Shared}

theorem update_eq_some {f : Object → Shared × Object} (hstep : s.update i f = some s') :
    ∃ o, s.objects[i]? = some o ∧ o.live = true ∧
      s' = { shared := (f o).1, objects := s.objects.set i (f o).2 } := by
  unfold System.update at hstep
  cases hi : s.objects[i]? with
  | none => simp [hi] at hstep
  | some o =>
    simp only [hi] at hstep
    split_ifs at hstep with hlive
    exact ⟨o, rfl, hlive, (Option.some.inj hstep).symm⟩

theorem credited_append (objects : List Object) (o : Object) :
    System.credited { shared := w, objects := objects ++ [o] } =
      System.credited { shared := w, objects := objects } + o.credit := by
  simp [System.credited]

theorem credited_set (hi : s.objects[i]? = some o) :
    System.credited { shared := w, objects := s.objects.set i o' } =
      s.credited - o.credit + o'.credit := by
  obtain ⟨hlt, rfl⟩ := List.getElem?_eq_some_iff.mp hi
  have hlt' : i < (s.objects.map Object.credit).length := by rwa [List.length_map]
  rw [System.credited, System.credited, List.map_set, List.sum_set', dif_pos hlt', List.getElem_map]
  ring

end Updates

end WsServer.Transactions
