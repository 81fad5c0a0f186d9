import WsServer.Pipe.Model

/-!
# Sessions on one buffer

Neither `close_pipe` nor `open_pipe` empties the two areas: unread input stays in the get area, and
what is put while no pipe is open, or cannot be flushed by `close_pipe`, stays in the put area. The
next pipe gets the one, and the next reader the other. `sessions_separate` says which openings
prevent this.

Bytes carry the call of `open_pipe` that was in force when they were put or read; `erase_step` says
that they are treated like bytes without it.
-/

set_option autoImplicit false
set_option relaxedAutoImplicit false

namespace WsServer.Pipe

open Foundations

/-- A byte with the number of the opening it was put during or read from, none when no pipe was
open. -/
structure Traced where
  value : UInt8
  opening : Option ℕ
  deriving DecidableEq

/-- A buffer with the number of calls of `open_pipe` so far. -/
structure Session where
  buf : PipeBuf Traced
  calls : ℕ
  deriving DecidableEq

namespace Session

def initial : Session := { buf := PipeBuf.new, calls := 0 }

/-- The opening that is current. -/
def current (s : Session) : Option ℕ := if s.buf.fd = none then none else some s.calls

/-- The call with the bytes that are put or read marked with the current opening. -/
def mark (s : Session) (a : Action UInt8) : Action Traced :=
  a.map fun value ↦ { value := value, opening := s.current }

def next (s : Session) (a : Action UInt8) : Session :=
  { buf := (s.buf.step (s.mark a)).1
    calls := match a with
      | .openPipe _ _ _ _ => s.calls + 1
      | _ => s.calls }

/-- What a call hands over. -/
def output (s : Session) (a : Action UInt8) : Output Traced := (s.buf.step (s.mark a)).2

/-- Without the marks a session is a run of the buffer. -/
theorem erase_step (s : Session) (a : Action UInt8) :
    (s.buf.map Traced.value).step a =
      ((s.next a).buf.map Traced.value, (s.output a).map Traced.value) := by
  have hmark : (s.mark a).map Traced.value = a := by
    cases a <;> simp [mark, Action.map, Function.comp_def]
  have hstep := map_step Traced.value s.buf (s.mark a)
  rw [hmark] at hstep
  exact hstep

end Session

/-- The calls recorded in `h` lead from a new buffer to `s`. -/
abbrev SessionRun (h : List (Transition Session (Action UInt8))) (s : Session) : Prop :=
  Execution (fun s a s' ↦ s.next a = s') Session.initial h s

/-- Every byte delivered to the pipe was put during its current opening, and every byte returned to
a reader was read during the opening by the last call of `open_pipe`. -/
def Separate (s : Session) (a : Action UInt8) : Prop :=
  (∀ c ∈ (s.output a).delivered, c.opening = s.current) ∧
    ∀ c ∈ (s.output a).returned, c.opening = some s.calls

/-- A call of `open_pipe` finds no unread input and, if it opens a pipe, nothing in the put area
that the flush in `close_pipe` does not take out of it. -/
def CleanOpen (s : Session) : Action UInt8 → Prop
  | .openPipe path mode written opens =>
    s.buf.getArea = [] ∧
      (opens path mode.flags ≠ none → s.buf.putArea = [] ∨ (s.buf.fd ≠ none ∧ written ≠ 0))
  | _ => True

instance (s : Session) (a : Action UInt8) : Decidable (Separate s a) :=
  inferInstanceAs (Decidable ((∀ c ∈ (s.output a).delivered, c.opening = s.current) ∧
    ∀ c ∈ (s.output a).returned, c.opening = some s.calls))

instance (s : Session) : (a : Action UInt8) → Decidable (CleanOpen s a)
  | .openPipe path mode written opens => inferInstanceAs (Decidable (s.buf.getArea = [] ∧
      (opens path mode.flags ≠ none → s.buf.putArea = [] ∨ (s.buf.fd ≠ none ∧ written ≠ 0))))
  | .closePipe _ => .isTrue trivial
  | .sputc _ _ => .isTrue trivial
  | .pubsync _ => .isTrue trivial
  | .sgetc _ => .isTrue trivial
  | .sbumpc _ => .isTrue trivial

section Areas

variable {Byte : Type}

def Action.bytesRead : Action Byte → List Byte
  | .sgetc bytes => bytes
  | .sbumpc bytes => bytes
  | _ => []

def Action.bytesPut : Action Byte → List Byte
  | .sputc c _ => [c]
  | _ => []

/-- `sync` changes nothing, or `write` accepts something and the put area is emptied. -/
theorem sync_cases (b : PipeBuf Byte) (written : ℕ) :
    (∃ success, sync b written = (b, { success := success })) ∨
      (b.fd ≠ none ∧ written ≠ 0 ∧ sync b written =
        ({ b with putArea := [] }, { delivered := b.putArea.take written, success := true })) := by
  unfold sync
  split_ifs with hfd hpos hzero
  · exact Or.inl ⟨_, rfl⟩
  · exact Or.inl ⟨_, rfl⟩
  · exact Or.inr ⟨hfd, hzero, rfl⟩
  · exact Or.inl ⟨_, rfl⟩

/-- Where the bytes are from that a call leaves in the areas and hands over. -/
structure Footprint (b : PipeBuf Byte) (a : Action Byte) (r : PipeBuf Byte × Output Byte) :
    Prop where
  get : ∀ c ∈ r.1.getArea, c ∈ b.getArea ∨ (b.fd ≠ none ∧ c ∈ a.bytesRead)
  put : ∀ c ∈ r.1.putArea, c ∈ b.putArea ∨ c ∈ a.bytesPut
  delivered : ∀ c ∈ r.2.delivered, b.fd ≠ none ∧ c ∈ b.putArea
  returned : ∀ c ∈ r.2.returned, c ∈ b.getArea ∨ (b.fd ≠ none ∧ c ∈ a.bytesRead)

theorem footprint_sync (b : PipeBuf Byte) (a : Action Byte) (written : ℕ) :
    Footprint b a (sync b written) := by
  rcases sync_cases b written with ⟨success, hsync⟩ | ⟨hfd, -, hsync⟩
  · rw [hsync]
    exact ⟨fun c hc ↦ Or.inl hc, fun c hc ↦ Or.inl hc, by simp, by simp⟩
  · rw [hsync]
    exact ⟨fun c hc ↦ Or.inl hc, by simp, fun c hc ↦ ⟨hfd, List.mem_of_mem_take hc⟩, by simp⟩

theorem footprint_closePipe (b : PipeBuf Byte) (a : Action Byte) (written : ℕ) :
    Footprint b a (closePipe b written) := by
  unfold closePipe
  split_ifs with hfd
  · exact ⟨fun c hc ↦ Or.inl hc, fun c hc ↦ Or.inl hc, by simp, by simp⟩
  · have hsync := footprint_sync b a written
    exact ⟨hsync.get, hsync.put, hsync.delivered, hsync.returned⟩

theorem footprint_underflow (b : PipeBuf Byte) (a : Action Byte) :
    Footprint b a (underflow b a.bytesRead) := by
  unfold underflow
  split_ifs with hfd
  · exact ⟨fun c hc ↦ Or.inl hc, fun c hc ↦ Or.inl hc, by simp, by simp⟩
  · cases hget : b.getArea with
    | cons c rest =>
      exact ⟨fun c hc ↦ Or.inl hc, fun c hc ↦ Or.inl hc, by simp, by simp [hget]⟩
    | nil =>
      cases hread : a.bytesRead with
      | nil => exact ⟨fun c hc ↦ Or.inl hc, fun c hc ↦ Or.inl hc, by simp, by simp⟩
      | cons c rest =>
        exact ⟨fun c hc ↦ Or.inr ⟨hfd, hread ▸ hc⟩, fun c hc ↦ Or.inl hc, by simp,
          fun c hc ↦ Or.inr ⟨hfd, by simp_all⟩⟩

theorem footprint_step (b : PipeBuf Byte) (a : Action Byte) : Footprint b a (b.step a) := by
  cases a with
  | openPipe path mode written opens =>
    have hclose := footprint_closePipe b (.openPipe path mode written opens) written
    exact ⟨hclose.get, hclose.put, hclose.delivered, hclose.returned⟩
  | closePipe written => exact footprint_closePipe b _ written
  | pubsync written => exact footprint_sync b _ written
  | sputc c written =>
    have hsync := footprint_sync b (.sputc c written) written
    simp only [PipeBuf.step, sputc, overflow]
    split_ifs with hroom hfd hout
    · exact ⟨fun c hc ↦ Or.inl hc, fun c hc ↦ List.mem_append.mp hc, by simp, by simp⟩
    · exact ⟨fun c hc ↦ Or.inl hc, fun c hc ↦ Or.inl hc, by simp, by simp⟩
    · refine ⟨hsync.get, fun c hc ↦ ?_, hsync.delivered, hsync.returned⟩
      rcases List.mem_append.mp hc with hold | hnew
      · exact hsync.put c hold
      · exact Or.inr hnew
    · exact hsync
  | sgetc bytes =>
    have hunderflow := footprint_underflow b (.sgetc bytes)
    simp only [PipeBuf.step, sgetc]
    cases hget : b.getArea with
    | nil => exact hunderflow
    | cons c rest =>
      exact ⟨fun c hc ↦ Or.inl hc, fun c hc ↦ Or.inl hc, by simp, by simp [hget]⟩
  | sbumpc bytes =>
    have hunderflow := footprint_underflow b (.sbumpc bytes)
    simp only [PipeBuf.step, sbumpc]
    cases hget : b.getArea with
    | nil =>
      simp only
      split_ifs with hout
      · exact ⟨fun c hc ↦ hunderflow.get c (List.mem_of_mem_tail hc), hunderflow.put,
          hunderflow.delivered, hunderflow.returned⟩
      · exact hunderflow
    | cons c rest =>
      exact ⟨fun c hc ↦ Or.inl (by simp [hget, hc]), fun c hc ↦ Or.inl hc, by simp, by simp [hget]⟩

theorem closePipe_putArea (b : PipeBuf Byte) (written : ℕ) :
    (closePipe b written).1.putArea = if b.fd ≠ none ∧ written ≠ 0 then [] else b.putArea := by
  unfold closePipe sync
  by_cases hfd : b.fd = none
  · simp [hfd]
  · by_cases hzero : written = 0
    · simp only [hfd, hzero, if_false, if_true, ne_eq, not_true_eq_false, and_false]
      split_ifs <;> rfl
    · cases hput : b.putArea <;> simp [hfd, hzero, hput]

theorem openPipe_areas (b : PipeBuf Byte) (path : String) (mode : OpenMode) (written : ℕ)
    (opens : String → Flags → Option ℕ) :
    (openPipe b path mode written opens).1 =
      { fd := opens path mode.flags
        putArea := if b.fd ≠ none ∧ written ≠ 0 then [] else b.putArea
        getArea := b.getArea } := by
  have hget : (closePipe b written).1.getArea = b.getArea := by
    unfold closePipe sync
    split_ifs <;> rfl
  rw [← closePipe_putArea, ← hget]
  rfl

/-- Only `open_pipe` opens a pipe. -/
theorem fd_of_step {b : PipeBuf Byte} {a : Action Byte} (hfd : (b.step a).1.fd ≠ none) :
    b.fd ≠ none ∨ ∃ path mode written opens, a = .openPipe path mode written opens := by
  by_cases hclosed : b.fd = none
  · cases a with
    | openPipe path mode written opens => exact Or.inr ⟨path, mode, written, opens, rfl⟩
    | closePipe written => simp [PipeBuf.step, closePipe, hclosed] at hfd
    | pubsync written => simp [PipeBuf.step, sync, hclosed] at hfd
    | sputc c written =>
      simp only [PipeBuf.step, sputc, overflow, hclosed, if_true] at hfd
      split_ifs at hfd <;> simp_all
    | sgetc bytes =>
      simp only [PipeBuf.step, sgetc, underflow, hclosed, if_true] at hfd
      cases hget : b.getArea <;> simp [hget, hclosed] at hfd
    | sbumpc bytes =>
      simp only [PipeBuf.step, sbumpc, underflow, hclosed, if_true] at hfd
      cases hget : b.getArea <;> simp [hget, hclosed] at hfd
  · exact Or.inl hclosed

end Areas

/-- The bytes in the areas belong to the current opening, or to the last one when none is. -/
structure Belongs (s : Session) : Prop where
  get : ∀ c ∈ s.buf.getArea, c.opening = some s.calls
  put : s.buf.fd ≠ none → ∀ c ∈ s.buf.putArea, c.opening = some s.calls

/-- No byte in the areas is from an opening to come. -/
def Past (s : Session) : Prop :=
  ∀ c ∈ s.buf.getArea ++ s.buf.putArea, ∀ k, c.opening = some k → k ≤ s.calls

section Steps

variable {s : Session} {a : Action UInt8}

theorem current_of_fd (hfd : s.buf.fd ≠ none) : s.current = some s.calls := if_neg hfd

theorem opening_of_bytesRead {c : Traced} (hc : c ∈ (s.mark a).bytesRead) :
    c.opening = s.current := by
  cases a <;> simp [Session.mark, Action.map, Action.bytesRead] at hc <;>
    obtain ⟨value, -, rfl⟩ := hc <;> rfl

theorem opening_of_bytesPut {c : Traced} (hc : c ∈ (s.mark a).bytesPut) :
    c.opening = s.current := by
  cases a <;> simp [Session.mark, Action.map, Action.bytesPut] at hc
  rw [hc]

/-- A call hands over bytes of the opening it belongs to. -/
theorem Belongs.separate (hs : Belongs s) : Separate s a := by
  have hfoot := footprint_step s.buf (s.mark a)
  constructor
  · intro c hc
    obtain ⟨hfd, hput⟩ := hfoot.delivered c hc
    rw [current_of_fd hfd]
    exact hs.put hfd c hput
  · intro c hc
    rcases hfoot.returned c hc with hget | ⟨hfd, hread⟩
    · exact hs.get c hget
    · rw [opening_of_bytesRead hread, current_of_fd hfd]

theorem Belongs.next (hs : Belongs s) (hclean : CleanOpen s a) : Belongs (s.next a) := by
  have hfoot := footprint_step s.buf (s.mark a)
  have hget : ∀ c ∈ (s.next a).buf.getArea, c.opening = some s.calls := by
    intro c hc
    rcases hfoot.get c hc with hold | ⟨hfd, hread⟩
    · exact hs.get c hold
    · rw [opening_of_bytesRead hread, current_of_fd hfd]
  have hput : s.buf.fd ≠ none → ∀ c ∈ (s.next a).buf.putArea, c.opening = some s.calls := by
    intro hfd c hc
    rcases hfoot.put c hc with hold | hnew
    · exact hs.put hfd c hold
    · rw [opening_of_bytesPut hnew, current_of_fd hfd]
  cases a with
  | openPipe path mode written opens =>
    obtain ⟨hread, hflushed⟩ := hclean
    have hbuf : (s.next (.openPipe path mode written opens)).buf =
        (openPipe s.buf path mode written opens).1 := rfl
    constructor
    · rw [hbuf, openPipe_areas, hread]
      simp
    · rw [hbuf, openPipe_areas]
      intro hfd c hc
      rcases hflushed hfd with hempty | hwritten
      · simp [hempty] at hc
      · simp [hwritten] at hc
  | closePipe | sputc | pubsync | sgetc | sbumpc =>
    refine ⟨hget, fun hfd ↦ ?_⟩
    rcases fd_of_step hfd with hopen | ⟨_, _, _, _, hmark⟩
    · exact hput hopen
    · simp [Session.mark, Action.map] at hmark

theorem Past.next (hs : Past s) : Past (s.next a) := by
  have hfoot := footprint_step s.buf (s.mark a)
  have hcurrent : ∀ c : Traced, c.opening = s.current → ∀ k, c.opening = some k → k ≤ s.calls := by
    intro c hc k hk
    rw [hc, Session.current] at hk
    split_ifs at hk
    exact (Option.some.inj hk).ge
  have hcalls : s.calls ≤ (s.next a).calls := by
    cases a <;> simp [Session.next]
  intro c hc k hk
  refine le_trans ?_ hcalls
  rcases List.mem_append.mp hc with hget | hput
  · rcases hfoot.get c hget with hold | ⟨-, hread⟩
    · exact hs c (List.mem_append_left _ hold) k hk
    · exact hcurrent c (opening_of_bytesRead hread) k hk
  · rcases hfoot.put c hput with hold | hnew
    · exact hs c (List.mem_append_right _ hold) k hk
    · exact hcurrent c (opening_of_bytesPut hnew) k hk

/-- After a call of `open_pipe` that is not clean, one more call hands over a byte of an earlier
opening. -/
theorem Past.leaks (hs : Past s) (hclean : ¬CleanOpen s a) : ∃ a', ¬Separate (s.next a) a' := by
  cases a with
  | openPipe path mode written opens =>
    have hbuf : (s.next (.openPipe path mode written opens)).buf =
        (openPipe s.buf path mode written opens).1 := rfl
    have hcalls : (s.next (.openPipe path mode written opens)).calls = s.calls + 1 := rfl
    rw [openPipe_areas] at hbuf
    have hpast : ∀ c ∈ s.buf.getArea ++ s.buf.putArea, c.opening ≠ some (s.calls + 1) :=
      fun c hc hopening ↦ absurd (hs c hc _ hopening) (Nat.not_succ_le_self s.calls)
    cases hget : s.buf.getArea with
    | cons c rest =>
      -- unread input is returned to the next reader
      refine ⟨.sgetc [], fun hseparate ↦ hpast c (by simp [hget]) ?_⟩
      rw [← hcalls]
      apply hseparate.2 c
      simp [Session.output, Session.mark, PipeBuf.step, Action.map, sgetc, hbuf, hget]
    | nil =>
      simp only [CleanOpen, hget, true_and, Classical.not_imp, not_or] at hclean
      obtain ⟨hopens, hput, hflush⟩ := hclean
      cases hbytes : s.buf.putArea with
      | nil => exact absurd hbytes hput
      | cons c rest =>
        -- what is left in the put area goes to the pipe just opened
        refine ⟨.pubsync 1, fun hseparate ↦ hpast c (by simp [hbytes]) ?_⟩
        have hfd : (s.next (.openPipe path mode written opens)).buf.fd ≠ none := by
          rw [hbuf]
          exact hopens
        rw [← hcalls, ← current_of_fd hfd]
        apply hseparate.1 c
        simp [Session.output, Session.mark, PipeBuf.step, Action.map, sync, hbuf, hopens, hflush,
          hbytes]
  | closePipe | sputc | pubsync | sgetc | sbumpc => exact absurd trivial hclean

end Steps

section Runs

variable {h : List (Transition Session (Action UInt8))} {s : Session}

/-- In every run in which every call of `open_pipe` is clean, sessions do not leak into each other.
And no weaker condition will do: after any run, a call of `open_pipe` that is not clean can be
followed by a call that hands over a byte of an earlier session. -/
theorem sessions_separate (hrun : SessionRun h s) :
    ((∀ x ∈ h, CleanOpen x.before x.action) → ∀ x ∈ h, Separate x.before x.action) ∧
      ∀ a, ¬CleanOpen s a → ∃ a', ¬Separate (s.next a) a' := by
  have hpast : Past s := by
    refine hrun.invariant (by simp [Past, Session.initial, PipeBuf.new]) fun t a t' ht hstep ↦ ?_
    rw [← hstep]
    exact ht.next
  refine ⟨fun hclean x hx ↦ ?_, fun a hdirty ↦ hpast.leaks hdirty⟩
  obtain ⟨pre, post, rfl⟩ := List.append_of_mem hx
  obtain ⟨hbefore, -⟩ := hrun.throughout pre x post rfl
  have hbelongs : Belongs x.before := by
    refine hbefore.invariant_of ⟨by simp [Session.initial, PipeBuf.new], fun hfd ↦ absurd rfl hfd⟩
      (fun t a t' ht hcleanStep hstep ↦ ?_)
      fun y hy ↦ hclean y (List.mem_append_left _ hy)
    rw [← hstep]
    exact ht.next hcleanStep
  exact hbelongs.separate

/-- A pipe is written and another one read, with a failed opening in between. -/
theorem sessions_separate_example : ∃ h s, SessionRun h s ∧
    ∀ x ∈ h, Separate x.before x.action := by
  have hrun := Execution.of_steps Session.next Session.initial
    [.openPipe "out" ⟨false, true⟩ 0 (fun _ _ ↦ some 3), .sputc 97 0, .sputc 98 0, .closePipe 2,
      .openPipe "none" ⟨true, false⟩ 0 (fun _ _ ↦ none), .sgetc [],
      .openPipe "in" ⟨true, false⟩ 0 (fun _ _ ↦ some 3), .sbumpc [99, 100], .sbumpc []]
  exact ⟨_, _, hrun, (sessions_separate hrun).1 (by decide)⟩

/-- A byte put into the first pipe, which `close_pipe` fails to flush, goes to the second. -/
theorem byte_leaks : ¬∀ h s, SessionRun h s → ∀ x ∈ h, Separate x.before x.action := by
  intro hall
  have hrun := Execution.of_steps Session.next Session.initial
    [.openPipe "first" ⟨false, true⟩ 0 (fun _ _ ↦ some 3), .sputc 97 0, .closePipe 0,
      .openPipe "second" ⟨false, true⟩ 0 (fun _ _ ↦ some 3), .pubsync 1]
  exact absurd (hall _ _ hrun) (by decide)

end Runs

end WsServer.Pipe
