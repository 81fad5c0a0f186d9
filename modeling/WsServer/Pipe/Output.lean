import WsServer.Pipe.Model

/-!
# What is put into an open pipe

`sync` empties the put area whenever `write` accepts anything, also when it accepts only the first
part. `output_kept_iff` says that nothing is lost exactly when this does not happen.
-/

set_option autoImplicit false
set_option relaxedAutoImplicit false

namespace WsServer.Pipe

open Foundations

variable {Byte : Type}

/-- The buffer after a call. -/
def PipeBuf.next (b : PipeBuf Byte) (a : Action Byte) : PipeBuf Byte := (b.step a).1

/-- The calls recorded in `h` lead from `b₀` to `b`. -/
abbrev Run (b₀ : PipeBuf Byte) (h : List (Transition (PipeBuf Byte) (Action Byte)))
    (b : PipeBuf Byte) : Prop :=
  Execution (fun b a b' ↦ b.next a = b') b₀ h b

/-- What a call handed over. -/
def output (x : Transition (PipeBuf Byte) (Action Byte)) : Output Byte :=
  (x.before.step x.action).2

/-- Character writes and flushes. -/
def Action.isOutput : Action Byte → Bool
  | .sputc _ _ => true
  | .pubsync _ => true
  | _ => false

/-- The byte that a call has successfully put. -/
def putByte (x : Transition (PipeBuf Byte) (Action Byte)) : List Byte :=
  match x.action with
  | .sputc c _ => if (output x).success then [c] else []
  | _ => []

/-- The result of `write` in a call on an open buffer, none when `write` is not called. -/
def writeResult (b : PipeBuf Byte) : Action Byte → Option ℕ
  | .sputc _ written => if b.putArea.length < bufferSize then none else some written
  | .pubsync written => if 0 < b.putArea.length then some written else none
  | _ => none

/-- `write` fails or accepts all that it is given. -/
def NotShort (x : Transition (PipeBuf Byte) (Action Byte)) : Prop :=
  ∀ written ∈ writeResult x.before x.action, written = 0 ∨ x.before.putArea.length ≤ written

instance (x : Transition (PipeBuf Byte) (Action Byte)) : Decidable (NotShort x) :=
  inferInstanceAs (Decidable (∀ written ∈ writeResult x.before x.action,
    written = 0 ∨ x.before.putArea.length ≤ written))

/-- The bytes that the pipe has accepted, followed by those in the put area, are the bytes that have
been put. -/
def Kept (h : List (Transition (PipeBuf Byte) (Action Byte))) (b : PipeBuf Byte) : Prop :=
  (h.flatMap fun x ↦ (output x).delivered) ++ b.putArea = h.flatMap putByte

section Sync

variable {b b₀ : PipeBuf Byte} {a : Action Byte}
  {h : List (Transition (PipeBuf Byte) (Action Byte))}

/-- One call on an open buffer: what it delivers and leaves behind is what was there and what it has
put, exactly when `write` is not cut short. -/
theorem step_keeps_iff (hopen : b.fd ≠ none) (haction : a.isOutput = true) :
    (b.next a).fd ≠ none ∧
      ((b.step a).2.delivered ++ (b.next a).putArea = b.putArea ++ putByte ⟨b, a, b.next a⟩ ↔
        NotShort ⟨b, a, b.next a⟩) := by
  have htake : ∀ written, b.putArea.take written = b.putArea ↔ b.putArea.length ≤ written :=
    fun written ↦ List.take_eq_self_iff b.putArea
  cases a with
  | sputc c written =>
    by_cases hroom : b.putArea.length < bufferSize
    · simp [PipeBuf.next, PipeBuf.step, sputc, putByte, output, NotShort, writeResult, hroom, hopen]
    · have hpos : 0 < b.putArea.length := by
        rw [not_lt] at hroom
        exact Nat.lt_of_lt_of_le (by decide) hroom
      by_cases hzero : written = 0
      · simp [PipeBuf.next, PipeBuf.step, sputc, overflow, sync, putByte, output, NotShort,
          writeResult, hroom, hopen, hpos, hzero]
      · simp [PipeBuf.next, PipeBuf.step, sputc, overflow, sync, putByte, output, NotShort,
          writeResult, hroom, hopen, hpos, hzero, htake]
  | pubsync written =>
    by_cases hpos : 0 < b.putArea.length
    · by_cases hzero : written = 0
      · simp [PipeBuf.next, PipeBuf.step, sync, putByte, NotShort, writeResult, hopen, hpos, hzero]
      · simp [PipeBuf.next, PipeBuf.step, sync, putByte, NotShort, writeResult, hopen, hpos, hzero,
          htake]
    · simp [PipeBuf.next, PipeBuf.step, sync, putByte, NotShort, writeResult, hopen, hpos]
  | openPipe | closePipe | sgetc | sbumpc => simp [Action.isOutput] at haction

end Sync

section Runs

variable {b b₀ : PipeBuf Byte} {h : List (Transition (PipeBuf Byte) (Action Byte))}

/-- For every sequence of character writes and flushes on an open buffer: in every state the bytes
accepted since the beginning and those in the put area are the bytes put since, exactly when the put
area is empty at the beginning and `write` always fails or accepts all it is given. -/
theorem output_kept_iff (hrun : Run b₀ h b) (hopen : b₀.fd ≠ none)
    (houtput : ∀ x ∈ h, x.action.isOutput = true) :
    (Kept [] b₀ ∧ Throughout (fun pre x ↦ Kept (pre ++ [x]) x.after) h) ↔
      (b₀.putArea = [] ∧ ∀ x ∈ h, NotShort x) := by
  have hstart : Kept [] b₀ ↔ b₀.putArea = [] := Iff.rfl
  rw [hstart, ← throughout_iff_mem]
  refine and_congr_right fun hempty ↦ ?_
  refine Execution.throughout_iff (P := fun h b ↦ Kept h b ∧ b.fd ≠ none)
    (D := fun _ x ↦ x.action.isOutput = true) ⟨hempty, hopen⟩ (fun pre b a b' _ hD hP hstep ↦ ?_)
    (fun pre b a b' hP hD hstep hG ↦ ⟨hG, ?_⟩) hrun (throughout_iff_mem.mpr houtput)
  · obtain rfl := hstep
    rw [← (step_keeps_iff hP.2 hD).2, Kept, List.flatMap_append, List.flatMap_append, ← hP.1]
    simp [output]
  · obtain rfl := hstep
    exact (step_keeps_iff hP.2 hD).1

/-- Two bytes are put and flushed, the first time in vain. -/
theorem output_kept_iff_example : ∃ h b, Run (PipeBuf.opened 3 : PipeBuf UInt8) h b ∧
    Kept [] (PipeBuf.opened 3 : PipeBuf UInt8) ∧
      Throughout (fun pre x ↦ Kept (pre ++ [x]) x.after) h := by
  have hrun := Execution.of_steps PipeBuf.next (PipeBuf.opened 3 : PipeBuf UInt8)
    [.sputc 97 0, .sputc 98 0, .pubsync 0, .pubsync 2]
  exact ⟨_, _, hrun, (output_kept_iff hrun (by decide) (by decide)).mpr ⟨rfl, by decide⟩⟩

/-- Two bytes are put, and the flush has `write` accept the first. -/
theorem output_lost :
    ¬∀ (b₀ : PipeBuf UInt8) h b, Run b₀ h b → b₀.fd ≠ none →
      (∀ x ∈ h, x.action.isOutput = true) →
      Kept [] b₀ ∧ Throughout (fun pre x ↦ Kept (pre ++ [x]) x.after) h := by
  intro hall
  have hrun := Execution.of_steps PipeBuf.next (PipeBuf.opened 3 : PipeBuf UInt8)
    [.sputc 97 0, .sputc 98 0, .pubsync 1]
  have hkept : Kept (Execution.steps PipeBuf.next (PipeBuf.opened 3 : PipeBuf UInt8)
      [.sputc 97 0, .sputc 98 0, .pubsync 1]) (PipeBuf.opened 3) :=
    (hall _ _ _ hrun (by decide) (by decide)).2
      (Execution.steps PipeBuf.next (PipeBuf.opened 3) [.sputc 97 0, .sputc 98 0])
      ⟨{ fd := some 3, putArea := [97, 98], getArea := [] }, .pubsync 1, PipeBuf.opened 3⟩ [] rfl
  exact absurd hkept (by unfold Kept; decide)

end Runs

end WsServer.Pipe
