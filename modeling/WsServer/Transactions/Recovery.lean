import WsServer.Foundations.Json
import WsServer.Foundations.Lines
import WsServer.Transactions.Retained

/-!
# What a crash leaves of the log

The lines of the log are texts, and a crash leaves a beginning of the file that may end within a
line. `recover` reads the whole lines. After any sequential run they are the lines that the log had
at an earlier point of the run, at which the balance was what they tell, but for what was committed
late; and no line that was in the file for good is missing (`recovered_of_crash`).
-/

set_option autoImplicit false
set_option relaxedAutoImplicit false

namespace WsServer.Transactions

open Foundations

/-! ### The text of the log -/

/-- What `operator<<` inserts for a line, without the newline. -/
def Record.text : Record → List Char
  | .start original modification =>
    "START:".toList ++ Json.integerText original ++ ':' :: Json.integerText modification
  | .commit => "COMMIT".toList
  | .abort => "ABORT".toList

/-- The contents of the log file. -/
def logText (log : List Record) : List Char := Lines.unframe '\n' (log.map Record.text)

/-- The record that a line stands for. -/
def Record.ofText (line : List Char) : Option Record :=
  if line = "COMMIT".toList then some .commit
  else if line = "ABORT".toList then some .abort
  else if "START:".toList <+: line then do
    let (original, modification) ← Lines.cut ':' (line.drop 6)
    some (.start (← Json.integer original) (← Json.integer modification))
  else none

/-- The records of the whole lines of a log file. -/
def recover (text : List Char) : Option (List Record) :=
  (Lines.frame '\n' text).1.mapM Record.ofText

section Text

variable {log log' : List Record}

theorem not_mem_integerText {c : Char} (hc : Json.isNumberChar c = false) (z : ℤ) :
    c ∉ Json.integerText z := fun hmem ↦ by
  simp [Json.isNumberChar_of_mem_integerText hmem] at hc

theorem ofText_text (line : Record) : Record.ofText line.text = some line := by
  cases line with
  | commit => rfl
  | abort => rfl
  | start original modification =>
    have hhead : (Record.start original modification).text.head? = some 'S' := rfl
    have hcommit : (Record.start original modification).text ≠ "COMMIT".toList :=
      ne_of_apply_ne List.head? (hhead.trans_ne (by decide))
    have habort : (Record.start original modification).text ≠ "ABORT".toList :=
      ne_of_apply_ne List.head? (hhead.trans_ne (by decide))
    have hstart : "START:".toList <+: (Record.start original modification).text :=
      ⟨Json.integerText original ++ ':' :: Json.integerText modification,
        (List.append_assoc _ _ _).symm⟩
    have hcut : Lines.cut ':' ((Record.start original modification).text.drop 6) =
        some (Json.integerText original, Json.integerText modification) :=
      Lines.cut_eq_some.mpr ⟨rfl, not_mem_integerText rfl original⟩
    rw [Record.ofText, if_neg hcommit, if_neg habort, if_pos hstart, hcut]
    simp only [Option.bind_eq_bind, Option.bind_some, Json.integer_integerText]

theorem newline_not_mem_text (line : Record) : '\n' ∉ line.text := by
  cases line with
  | commit => decide
  | abort => decide
  | start original modification =>
    intro hmem
    rcases List.mem_append.mp hmem with hmem | hmem
    · rcases List.mem_append.mp hmem with hmem | hmem
      · exact absurd hmem (by decide)
      · exact not_mem_integerText rfl original hmem
    · exact not_mem_integerText rfl modification (List.mem_of_ne_of_mem (by decide) hmem)

theorem frame_logText (log : List Record) :
    Lines.frame '\n' (logText log) = (log.map Record.text, []) :=
  Lines.frame_unframe fun line hline ↦ by
    obtain ⟨record, -, rfl⟩ := List.mem_map.mp hline
    exact newline_not_mem_text record

theorem mapM_ofText (log : List Record) : (log.map Record.text).mapM Record.ofText = some log := by
  induction log with
  | nil => rfl
  | cons line log ih => simp [ofText_text, ih]

/-- A beginning of the file is recovered as a beginning of the log, with every line that lies in it
as a whole. -/
theorem recover_of_prefix {text : List Char} (htext : text <+: logText log) :
    ∃ log', recover text = some log' ∧ log' <+: log ∧
      ∀ log₁, log₁ <+: log → (logText log₁).length ≤ text.length → log₁ <+: log' := by
  have hlines : ∀ {text' text'' : List Char}, text' <+: text'' →
      (Lines.frame '\n' text').1 <+: (Lines.frame '\n' text'').1 := by
    rintro text' - ⟨rest, rfl⟩
    exact Lines.frame_prefix text' rest
  have hframe := hlines htext
  rw [frame_logText, List.prefix_iff_eq_take, ← List.map_take] at hframe
  refine ⟨log.take (Lines.frame '\n' text).1.length, ?_, List.take_prefix _ _,
    fun log₁ hlog₁ hlength ↦ ?_⟩
  · rw [recover, hframe, mapM_ofText, ← hframe]
  · have hwhole : logText log₁ <+: text := by
      refine List.prefix_of_prefix_length_le ?_ htext hlength
      obtain ⟨more, rfl⟩ := hlog₁
      simp [logText, Lines.unframe]
    have hcount := (hlines hwhole).length_le
    rw [frame_logText, List.length_map] at hcount
    exact List.prefix_of_prefix_length_le hlog₁ (List.take_prefix _ _)
      (by rw [List.length_take]; exact le_min hcount hlog₁.length_le)

end Text

/-! ### The log of a run -/

section Runs

open Retained

variable {balance : ℤ} {h : List (Transition System Retained.Action)} {s : System}
  {log : List Record}

/-- Every beginning of the log was the log at some point of the run. -/
theorem exists_earlier (hrun : Retained.Run balance h s)
    (hsequential : ∀ x ∈ h, Retained.Sequential x) (hlog : log <+: s.shared.log) :
    ∃ pre s₀, pre <+: h ∧ Retained.Run balance pre s₀ ∧ s₀.shared.log = log := by
  induction hrun with
  | start =>
    obtain rfl := List.prefix_nil.mp hlog
    exact ⟨[], _, List.prefix_refl _, .start, rfl⟩
  | @snoc h s s' a hrun hstep ih =>
    rw [List.forall_mem_append, List.forall_mem_singleton] at hsequential
    have hgrows := ((told_of_run hrun hsequential.1).step hsequential.2 hstep).1
    have hcases : log <+: s.shared.log ∨ log = s'.shared.log := by
      rcases hgrows with hsame | ⟨line, hline⟩
      · exact Or.inl (hsame ▸ hlog)
      · rw [hline] at hlog
        exact (List.prefix_concat_iff.mp hlog).symm.imp id fun heq ↦ heq.trans hline.symm
    rcases hcases with hold | rfl
    · obtain ⟨pre, s₀, hpre, hrun₀, hlog₀⟩ := ih hsequential.1 hold
      exact ⟨pre, s₀, hpre.trans (List.prefix_append _ _), hrun₀, hlog₀⟩
    · exact ⟨_, _, List.prefix_refl _, .snoc hrun hstep, rfl⟩

/-- Nothing is taken out of the log. -/
theorem log_mono (hrun : Retained.Run balance h s) (hsequential : ∀ x ∈ h, Retained.Sequential x)
    {pre : List (Transition System Retained.Action)} {s₀ : System} (hpre : pre <+: h)
    (hrun₀ : Retained.Run balance pre s₀) : s₀.shared.log <+: s.shared.log := by
  induction hrun with
  | start =>
    obtain rfl := List.prefix_nil.mp hpre
    rw [hrun₀.unique .start]
  | @snoc h s s' a hrun hstep ih =>
    rw [List.forall_mem_append, List.forall_mem_singleton] at hsequential
    have hgrows := ((told_of_run hrun hsequential.1).step hsequential.2 hstep).1
    rcases List.prefix_concat_iff.mp hpre with rfl | hpre
    · rw [hrun₀.unique (.snoc hrun hstep)]
    · refine (ih hsequential.1 hpre).trans ?_
      rcases hgrows with hsame | ⟨line, hline⟩
      · rw [hsame]
      · exact ⟨[line], hline.symm⟩

/-- A crash after any sequential run may leave any beginning of the log file. What is recovered from
it is the log of an earlier point of the run; with what was committed late by then, the balance that
memory had at that point is what the log tells; and it goes on from the log of any point at which
the file was no longer than what is left. -/
theorem recovered_of_crash (hrun : Retained.Run balance h s)
    (hsequential : ∀ x ∈ h, Retained.Sequential x) {text : List Char}
    (htext : text <+: logText s.shared.log) :
    ∃ log pre s₀, recover text = some log ∧ pre <+: h ∧ Retained.Run balance pre s₀ ∧
      s₀.shared.log = log ∧ s₀.shared.balance + late pre = balance + replay log ∧
      ∀ pre₁ s₁, pre₁ <+: h → Retained.Run balance pre₁ s₁ →
        (logText s₁.shared.log).length ≤ text.length → s₁.shared.log <+: log := by
  obtain ⟨log, hrecover, hlog, hwhole⟩ := recover_of_prefix htext
  obtain ⟨pre, s₀, hpre, hrun₀, rfl⟩ := exists_earlier hrun hsequential hlog
  have hbalance := (told_of_run hrun₀ fun x hx ↦ hsequential x (hpre.subset hx)).balance_eq
  refine ⟨_, pre, s₀, hrecover, hpre, hrun₀, rfl, ?_, fun pre₁ s₁ hpre₁ hrun₁ ↦
    hwhole _ (log_mono hrun hsequential hpre₁ hrun₁)⟩
  rw [hbalance]
  ring

/-- A transaction whose `COMMIT` line is written only when its stream is destroyed, one that is
committed in time, and one whose line has been cut. -/
theorem recovered_of_crash_example : ∃ h s, Execution.trace Retained.step (initial 1000)
      [.construct 500 true true true, .commit 0 false, .destroy 0 true true,
        .construct 30 true true true, .commit 1 true, .destroy 1 true true,
        .construct (-200) true true true] = some (h, s) ∧
      ∃ log pre s₀,
        recover "START:1000:500\nCOMMIT\nSTART:1000:30\nCOMMIT\nSTART:1030:-2".toList = some log ∧
        pre <+: h ∧ Retained.Run 1000 pre s₀ ∧ s₀.shared.log = log ∧
        s₀.shared.balance + late pre = 1000 + replay log := by
  obtain ⟨h, s, htrace, hsequential, htext⟩ : ∃ h s, Execution.trace Retained.step (initial 1000)
      [.construct 500 true true true, .commit 0 false, .destroy 0 true true,
        .construct 30 true true true, .commit 1 true, .destroy 1 true true,
        .construct (-200) true true true] = some (h, s) ∧ (∀ x ∈ h, Retained.Sequential x) ∧
      "START:1000:500\nCOMMIT\nSTART:1000:30\nCOMMIT\nSTART:1030:-2".toList <+:
        logText s.shared.log :=
    ⟨_, _, rfl, by decide, by decide⟩
  obtain ⟨log, pre, s₀, hrecover, hpre, hrun, hlog, hbalance, -⟩ :=
    recovered_of_crash (Execution.of_trace htrace) hsequential htext
  exact ⟨h, s, htrace, log, pre, s₀, hrecover, hpre, hrun, hlog, hbalance⟩

end Runs

end WsServer.Transactions
