import WsServer.Transactions.Model

/-!
# The log and the balance in sequential use

When every transaction is destroyed before the next is constructed, the log file tells the balance:
its committed transactions are the `START` lines that a `COMMIT` line follows. This holds whatever
flushes fail, because a commit is in the log before it is in memory and because a stream that has
failed once logs nothing more.
-/

set_option autoImplicit false
set_option relaxedAutoImplicit false

namespace WsServer.Transactions

open Foundations

/-- What a line adds to the balance: the modification of a `START` that `COMMIT` follows. -/
def Record.credit : Record → Option Record → ℤ
  | .start _ modification, some .commit => modification
  | _, _ => 0

/-- The modifications of the `START` lines that are directly followed by `COMMIT`. -/
def replay : List Record → ℤ
  | [] => 0
  | line :: log => line.credit log.head? + replay log

/-- Every `START` line has the balance that the lines before it tell. -/
def StartsFaithful (balance : ℤ) (log : List Record) : Prop :=
  ∀ pre original modification post, log = pre ++ .start original modification :: post →
    original = balance + replay pre

def Action.isConstruct : Action → Bool
  | .construct _ _ _ => true
  | _ => false

/-- A transaction is constructed only when all before it are destroyed. -/
def Sequential (x : Transition System Action) : Prop :=
  x.action.isConstruct = true → x.before.AllDestroyed

instance (x : Transition System Action) : Decidable (Sequential x) :=
  inferInstanceAs (Decidable (x.action.isConstruct = true → x.before.AllDestroyed))

section Replay

variable {balance : ℤ} {log : List Record} {original modification : ℤ}

/-- A `START` line does not change what the lines before it tell. -/
theorem replay_append_start (rest : List Record) :
    replay (log ++ .start original modification :: rest) =
      replay log + replay (.start original modification :: rest) := by
  induction log with
  | nil => simp [replay]
  | cons line log ih =>
    have hhead : line.credit (log ++ .start original modification :: rest).head? =
        line.credit log.head? := by
      cases log with
      | nil => cases line <;> rfl
      | cons _ _ => rfl
    rw [List.cons_append, replay, hhead, ih, ← add_assoc]
    rfl

theorem startsFaithful_nil : StartsFaithful balance [] := by
  intro pre original modification post hsplit
  simp at hsplit

/-- Another line keeps the `START` lines faithful, a `START` line if it has the balance. -/
theorem StartsFaithful.concat (hlog : StartsFaithful balance log) {line : Record}
    (hline : ∀ original modification, line = .start original modification →
      original = balance + replay log) : StartsFaithful balance (log ++ [line]) := by
  intro pre original modification post hsplit
  rcases concat_eq_split hsplit with ⟨rfl, hstart, -⟩ | ⟨post', -, hsplit'⟩
  · exact hline original modification hstart.symm
  · exact hlog pre original modification post' hsplit'

end Replay

/-! ### Runs -/

/-- A transaction `tx` that is under way after the lines `log`: its `START` line is the last one, or
its `COMMIT` line after that. -/
inductive UnderWay (balance : ℤ) (log : List Record) (tx : Transaction) : Shared → Prop
  | started (horiginal : tx.originalState = balance + replay log) (hopen : tx.committed = false)
      (hpending : tx.stream.pending = []) :
      UnderWay balance log tx
        { balance := tx.originalState
          log := log ++ [.start tx.originalState tx.modification] }
  | committed (horiginal : tx.originalState = balance + replay log)
      (hclosed : tx.committed = true) :
      UnderWay balance log tx
        { balance := tx.originalState + tx.modification
          log := log ++ [.start tx.originalState tx.modification, .commit] }

/-- Between transactions the log tells the balance; otherwise the last object is under way. -/
inductive Agrees (balance : ℤ) (s : System) : Prop
  | between (hdestroyed : s.AllDestroyed)
      (hbalance : s.shared.balance = balance + replay s.shared.log)
      (hstarts : StartsFaithful balance s.shared.log)
  | within {objects : List Object} {o : Object} {log : List Record}
      (hobjects : s.objects = objects ++ [o]) (hdestroyed : ∀ o' ∈ objects, o'.live = false)
      (hlive : o.live = true) (hunder : UnderWay balance log o.tx s.shared)
      (hstarts : StartsFaithful balance log)

section Steps

variable {balance : ℤ} {log : List Record} {w : Shared} {tx : Transaction} {s s' : System}

/-- Flushing a stream with one line inserted: the line is in the log and the call returns, or it is
not and the call throws; nothing is pending then. -/
theorem durableFlush_insert (log : List Record) {file : LogStream} (hpending : file.pending = [])
    (line : Record) (flushes : Bool) :
    (∃ file', durableFlush log (file.insert line) flushes = (log ++ [line], file', true) ∧
        file'.pending = []) ∨
      ∃ file', durableFlush log (file.insert line) flushes = (log, file', false) ∧
        file'.pending = [] := by
  cases hfailed : file.failed with
  | true => exact Or.inr ⟨file, by simp [durableFlush, LogStream.insert, hfailed], hpending⟩
  | false =>
    cases flushes with
    | true =>
      exact Or.inl ⟨_, by simp [durableFlush, LogStream.insert, hfailed, hpending]; rfl, rfl⟩
    | false => exact Or.inr ⟨_, by simp [durableFlush, LogStream.insert, hfailed]; rfl, rfl⟩

theorem construct_cases (hbalance : w.balance = balance + replay w.log) (modification : ℤ)
    (opens flushes : Bool) :
    construct w modification opens flushes = (w, none) ∨
      ∃ w' tx, construct w modification opens flushes = (w', some tx) ∧
        UnderWay balance w.log tx w' := by
  cases opens with
  | false => exact Or.inl rfl
  | true =>
    unfold construct
    simp only [Bool.not_true, Bool.false_eq_true, if_false]
    have hnew : (⟨true, false, []⟩ : LogStream).pending = [] := rfl
    rcases durableFlush_insert w.log hnew (.start w.balance modification) flushes
      with ⟨file, hflush, hpending⟩ | ⟨file, hflush, -⟩
    · rw [hflush]
      exact Or.inr ⟨_, _, rfl, .started hbalance rfl hpending⟩
    · rw [hflush]
      exact Or.inl rfl

theorem UnderWay.commit (h : UnderWay balance log tx w) (flushes : Bool) :
    UnderWay balance log (commit w tx flushes).2.1 (commit w tx flushes).1 := by
  cases h with
  | started horiginal hopen hpending =>
    simp only [Transactions.commit, hopen, Bool.false_eq_true, if_false]
    rcases durableFlush_insert (log ++ [.start tx.originalState tx.modification]) hpending
        .commit flushes with ⟨file, hflush, -⟩ | ⟨file, hflush, hpending'⟩
    · rw [hflush, List.append_assoc]
      exact .committed horiginal rfl
    · rw [hflush]
      exact .started horiginal rfl hpending'
  | committed horiginal hclosed =>
    simp only [Transactions.commit, hclosed, if_true]
    exact .committed horiginal hclosed

/-- After the destructor the log tells the balance again. -/
theorem UnderWay.destroy (h : UnderWay balance log tx w) (flushes : Bool) :
    (destroy w tx flushes).balance = balance + replay (destroy w tx flushes).log ∧
      ((destroy w tx flushes).log = w.log ∨ (destroy w tx flushes).log = w.log ++ [.abort]) := by
  have hstarted : ∀ rest, rest.head? ≠ some Record.commit → replay rest = 0 →
      replay (log ++ .start tx.originalState tx.modification :: rest) = replay log := by
    intro rest hhead hrest
    rw [replay_append_start, replay, hrest]
    cases rest with
    | nil => simp [Record.credit]
    | cons line rest => cases line <;> simp_all [Record.credit]
  cases h with
  | started horiginal hopen hpending =>
    simp only [Transactions.destroy, hopen, Bool.false_eq_true, if_false]
    cases hisOpen : tx.stream.isOpen with
    | false =>
      simp only [Bool.false_eq_true, if_false]
      exact ⟨by rw [hstarted [] (by simp) rfl, horiginal], Or.inl trivial⟩
    | true =>
      simp only [if_true]
      rcases durableFlush_insert (log ++ [.start tx.originalState tx.modification]) hpending
          .abort flushes with ⟨file, hflush, -⟩ | ⟨file, hflush, -⟩
      · rw [hflush]
        refine ⟨?_, Or.inr rfl⟩
        simp only [List.append_assoc, List.cons_append, List.nil_append]
        rw [hstarted [.abort] (by simp) rfl, horiginal]
      · rw [hflush]
        exact ⟨by simp only; rw [hstarted [] (by simp) rfl, horiginal], Or.inl rfl⟩
  | committed horiginal hclosed =>
    simp only [Transactions.destroy, hclosed, if_true]
    refine ⟨?_, Or.inl trivial⟩
    rw [replay_append_start, horiginal]
    simp [replay, Record.credit, add_assoc]

theorem UnderWay.startsFaithful (h : UnderWay balance log tx w)
    (hstarts : StartsFaithful balance log) : StartsFaithful balance w.log := by
  have hstart : ∀ horiginal : tx.originalState = balance + replay log,
      StartsFaithful balance (log ++ [.start tx.originalState tx.modification]) := fun horiginal ↦
    hstarts.concat fun original modification heq ↦ by cases heq; exact horiginal
  cases h with
  | started horiginal => exact hstart horiginal
  | committed horiginal =>
    rw [List.append_cons]
    exact (hstart horiginal).concat fun original modification heq ↦ by cases heq

theorem Agrees.startsFaithful (h : Agrees balance s) : StartsFaithful balance s.shared.log := by
  cases h with
  | between _ _ hstarts => exact hstarts
  | within _ _ _ hunder hstarts => exact hunder.startsFaithful hstarts

/-- The object that an update finds live is the one that is under way. -/
theorem eq_of_live {objects : List Object} {o o' : Object} {i : ℕ}
    (hdestroyed : ∀ o' ∈ objects, o'.live = false) (hi : (objects ++ [o])[i]? = some o')
    (hlive : o'.live = true) : i = objects.length ∧ o' = o := by
  rcases Nat.lt_trichotomy i objects.length with hlt | rfl | hgt
  · rw [List.getElem?_append_left hlt] at hi
    simp [hdestroyed o' (List.mem_of_getElem? hi)] at hlive
  · simpa [eq_comm] using hi
  · rw [List.getElem?_eq_none (by simpa using hgt)] at hi
    simp at hi

theorem set_last (objects : List Object) (o o' : Object) :
    (objects ++ [o]).set objects.length o' = objects ++ [o'] := by
  rw [List.set_append_right _ _ le_rfl, Nat.sub_self, List.set_cons_zero]

theorem Agrees.step (h : Agrees balance s) {a : Action} (hsequential : Sequential ⟨s, a, s'⟩)
    (hstep : s.step a = some s') : Agrees balance s' := by
  cases a with
  | construct modification opens flushes =>
    cases h with
    | within hobjects _ hlive _ _ =>
      have hdead := hsequential rfl
      rw [System.AllDestroyed, hobjects, List.forall_mem_append, List.forall_mem_singleton] at hdead
      simp [hdead.2] at hlive
    | between hdestroyed hbalance hstarts =>
      obtain rfl := Option.some.inj hstep
      rcases construct_cases hbalance modification opens flushes
        with hnone | ⟨w', tx, hsome, hunder⟩
      · rw [hnone]
        exact .between (by simpa [System.AllDestroyed] using hdestroyed) hbalance hstarts
      · rw [hsome]
        exact .within rfl hdestroyed rfl hunder hstarts
  | commit i flushes =>
    obtain ⟨o', hi, hlive', rfl⟩ := update_eq_some hstep
    cases h with
    | between hdestroyed _ _ => simp [hdestroyed o' (List.mem_of_getElem? hi)] at hlive'
    | within hobjects hdestroyed hlive hunder hstarts =>
      rw [hobjects] at hi
      obtain ⟨rfl, rfl⟩ := eq_of_live hdestroyed hi hlive'
      rw [hobjects, set_last]
      exact .within rfl hdestroyed hlive' (hunder.commit flushes) hstarts
  | destroy i flushes =>
    obtain ⟨o', hi, hlive', rfl⟩ := update_eq_some hstep
    cases h with
    | between hdestroyed _ _ => simp [hdestroyed o' (List.mem_of_getElem? hi)] at hlive'
    | within hobjects hdestroyed hlive hunder hstarts =>
      rw [hobjects] at hi
      obtain ⟨rfl, rfl⟩ := eq_of_live hdestroyed hi hlive'
      obtain ⟨hbalance, hlog⟩ := hunder.destroy flushes
      refine .between ?_ hbalance ?_
      · unfold System.AllDestroyed
        rw [hobjects, set_last, List.forall_mem_append, List.forall_mem_singleton]
        exact ⟨hdestroyed, rfl⟩
      · have hfaithful := hunder.startsFaithful hstarts
        rcases hlog with hsame | habort
        · simpa only [hsame] using hfaithful
        · simp only [habort]
          exact hfaithful.concat fun original modification heq ↦ by cases heq

end Steps

section Runs

variable {balance : ℤ} {h : List (Transition System Action)} {s : System}

/-- In every sequential run, whatever opens, flushes and retries fail: once all objects are
destroyed the balance is the initial one with the modifications of the `START` lines that `COMMIT`
follows directly, and every `START` line has recorded the balance that the lines before it tell. -/
theorem log_agrees (hrun : Run balance h s) (hsequential : ∀ x ∈ h, Sequential x) :
    (s.AllDestroyed → s.shared.balance = balance + replay s.shared.log) ∧
      StartsFaithful balance s.shared.log := by
  have hagrees : Agrees balance s := by
    induction hrun with
    | start =>
      exact .between (fun o ho ↦ by simp [initial] at ho) (add_zero balance).symm startsFaithful_nil
    | snoc _ hstep ih =>
      rw [List.forall_mem_append, List.forall_mem_singleton] at hsequential
      exact (ih hsequential.1).step hsequential.2 hstep
  refine ⟨fun hdestroyed ↦ ?_, hagrees.startsFaithful⟩
  cases hagrees with
  | between _ hbalance _ => exact hbalance
  | within hobjects _ hlive _ _ =>
    rw [System.AllDestroyed, hobjects, List.forall_mem_append, List.forall_mem_singleton]
      at hdestroyed
    simp [hdestroyed.2] at hlive

/-- A commit that fails and is retried, one that succeeds twice, and a rollback. -/
theorem log_agrees_example : ∃ h s, Execution.trace System.step (initial 1000)
      [.construct 500 true true, .commit 0 false, .commit 0 true, .destroy 0 true,
        .construct 300 false true, .construct 200 true true, .commit 1 true, .commit 1 true,
        .destroy 1 true, .construct 100 true true, .destroy 2 true] = some (h, s) ∧
      (s.AllDestroyed → s.shared.balance = 1000 + replay s.shared.log) ∧
      StartsFaithful 1000 s.shared.log := by
  obtain ⟨h, s, htrace, hsequential⟩ : ∃ h s, Execution.trace System.step (initial 1000)
      [.construct 500 true true, .commit 0 false, .commit 0 true, .destroy 0 true,
        .construct 300 false true, .construct 200 true true, .commit 1 true, .commit 1 true,
        .destroy 1 true, .construct 100 true true, .destroy 2 true] = some (h, s) ∧
      ∀ x ∈ h, Sequential x :=
    ⟨_, _, rfl, by decide⟩
  exact ⟨h, s, htrace, log_agrees (Execution.of_trace htrace) hsequential⟩

end Runs

end WsServer.Transactions
