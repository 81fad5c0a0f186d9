import WsServer.Foundations.Streams
import WsServer.Pipe.Sessions

/-!
# Two buffers on one FIFO

A process that writes and a process that reads have each opened one end of a FIFO. The system stores
what is written in a queue of limited capacity, and a `write` of at most `PIPE_BUF` bytes is taken
whole or not at all; the put area is never larger. So nothing is lost in between, whatever the order
of the calls and however the bytes are cut into reads and writes, and a reader that reads on after
the writer has closed gets the rest (`Channel.exact_of_run`).
-/

set_option autoImplicit false
set_option relaxedAutoImplicit false

namespace WsServer.Pipe

open Foundations

/-- `PIPE_BUF`. -/
abbrev pipeBuf : ℕ := 4096

structure Channel (Byte : Type) where
  writer : PipeBuf Byte
  queue : List Byte
  reader : PipeBuf Byte

/-- A call of one of the processes, with what `write` or `read` returns in it: the number of bytes
that are written, 0 for an error, or that are read, none for an error. -/
inductive Event (Byte : Type)
  | sputc (c : Byte) (written : ℕ)
  | pubsync (written : ℕ)
  | closeWriter (written : ℕ)
  | sgetc (count : Option ℕ)
  | sbumpc (count : Option ℕ)
  | closeReader

namespace Channel

variable {Byte : Type}

/-- Both ends are open and nothing has been written. -/
def connected (fd fd' : ℕ) : Channel Byte :=
  { writer := PipeBuf.opened fd, queue := [], reader := PipeBuf.opened fd' }

/-- The system can write so many bytes of the put area; it waits for room. -/
def Takes (capacity : ℕ) (ch : Channel Byte) (written : ℕ) : Prop :=
  written = 0 ∨ ch.reader.fd ≠ none ∧ written ≤ ch.writer.putArea.length ∧
    ch.queue.length + written ≤ capacity ∧
    (ch.writer.putArea.length ≤ pipeBuf → written = ch.writer.putArea.length)

instance (capacity : ℕ) (ch : Channel Byte) (written : ℕ) : Decidable (ch.Takes capacity written) :=
  inferInstanceAs (Decidable (written = 0 ∨ ch.reader.fd ≠ none ∧
    written ≤ ch.writer.putArea.length ∧ ch.queue.length + written ≤ capacity ∧
    (ch.writer.putArea.length ≤ pipeBuf → written = ch.writer.putArea.length)))

/-- The bytes of a `read`, none when it does not return so. At the end of an empty queue it waits
for the writer. -/
def delivers (ch : Channel Byte) : Option ℕ → Option (List Byte)
  | none => some []
  | some 0 => if ch.queue = [] ∧ ch.writer.fd = none then some [] else none
  | some (n + 1) =>
    if n + 1 ≤ bufferSize ∧ n + 1 ≤ ch.queue.length then some (ch.queue.take (n + 1)) else none

/-- What the reader gets from the system in a call that looks for a byte. -/
def input (ch : Channel Byte) (count : Option ℕ) : Option (List Byte) :=
  if ch.reader.fd ≠ none ∧ ch.reader.getArea = [] then ch.delivers count else some []

/-- A call of the writer. -/
def write (capacity : ℕ) (ch : Channel Byte) (written : ℕ) (a : Action Byte) :
    Option (Channel Byte × Output Byte) :=
  if ch.Takes capacity written then
    let (writer, out) := ch.writer.step a
    some ({ ch with writer := writer, queue := ch.queue ++ out.delivered }, out)
  else none

/-- A call of the reader that looks for a byte. -/
def read (ch : Channel Byte) (count : Option ℕ) (a : List Byte → Action Byte) :
    Option (Channel Byte × Output Byte) := do
  let bytes ← ch.input count
  let (reader, out) := ch.reader.step (a bytes)
  some ({ ch with reader := reader, queue := ch.queue.drop bytes.length }, out)

def step (capacity : ℕ) (ch : Channel Byte) : Event Byte → Option (Channel Byte × Output Byte)
  | .sputc c written => ch.write capacity written (.sputc c written)
  | .pubsync written => ch.write capacity written (.pubsync written)
  | .closeWriter written => ch.write capacity written (.closePipe written)
  | .sgetc count => ch.read count .sgetc
  | .sbumpc count => ch.read count .sbumpc
  | .closeReader =>
    let (reader, out) := ch.reader.step (.closePipe 0)
    some ({ ch with reader := reader }, out)

end Channel

/-- The bytes that the writer was told are put. -/
def bytesIn {Byte : Type} : Event Byte × Output Byte → List Byte
  | (.sputc c _, out) => if out.success then [c] else []
  | _ => []

/-- The bytes that the reader has taken. -/
def bytesOut {Byte : Type} : Event Byte × Output Byte → List Byte
  | (.sbumpc _, out) => out.returned.toList
  | _ => []

namespace Channel

variable {Byte : Type} {capacity : ℕ} {ch ch' : Channel Byte} {out : Output Byte}

/-- What is on the way from the writer to the reader. -/
def inside (ch : Channel Byte) : List Byte := ch.reader.getArea ++ ch.queue ++ ch.writer.putArea

/-- The areas and the queue are no larger than they can be, and the reader puts nothing. -/
structure Bounded (capacity : ℕ) (ch : Channel Byte) : Prop where
  putArea : ch.writer.putArea.length ≤ bufferSize
  queue : ch.queue.length ≤ capacity
  getArea : ch.reader.getArea.length ≤ bufferSize
  reader : ch.reader.putArea = []

end Channel

/-! ### One call -/

section Writer

variable {Byte : Type} {b : PipeBuf Byte} {written : ℕ}

/-- What a call of the writer leaves and hands over when `write` takes all or nothing. -/
structure Forwards (b b' : PipeBuf Byte) (out : Output Byte) (written : ℕ) (ins : List Byte) :
    Prop where
  kept : out.delivered ++ b'.putArea = b.putArea ++ ins
  putArea : b'.putArea.length ≤ bufferSize
  delivered : out.delivered.length ≤ written

theorem forwards_sync (hput : b.putArea.length ≤ bufferSize)
    (hwhole : written = 0 ∨ written = b.putArea.length) :
    Forwards b (sync b written).1 (sync b written).2 written [] := by
  rcases sync_cases b written with ⟨success, hsync⟩ | ⟨-, hzero, hsync⟩
  · rw [hsync]
    exact ⟨by simp, hput, by simp⟩
  · rw [hsync]
    have hall := hwhole.resolve_left hzero
    exact ⟨by simp [hall], by simp, by simp [hall]⟩

theorem forwards_closePipe (hput : b.putArea.length ≤ bufferSize)
    (hwhole : written = 0 ∨ written = b.putArea.length) :
    Forwards b (closePipe b written).1 (closePipe b written).2 written [] := by
  unfold closePipe
  split_ifs with hfd
  · exact ⟨by simp, hput, by simp⟩
  · have hsync := forwards_sync hput hwhole
    exact ⟨hsync.kept, hsync.putArea, hsync.delivered⟩

theorem forwards_sputc (c : Byte) (hput : b.putArea.length ≤ bufferSize)
    (hwhole : written = 0 ∨ written = b.putArea.length) :
    Forwards b (sputc b c written).1 (sputc b c written).2 written
      (if (sputc b c written).2.success then [c] else []) := by
  by_cases hroom : b.putArea.length < bufferSize
  · have hsputc : sputc b c written =
        ({ b with putArea := b.putArea ++ [c] }, { success := true }) := if_pos hroom
    rw [hsputc]
    exact ⟨by simp, by simpa using hroom, by simp⟩
  -- The put area is full, so `sync` calls `write`.
  have hpos : 0 < b.putArea.length := Nat.lt_of_lt_of_le (by decide) (not_lt.mp hroom)
  rw [sputc, if_neg hroom]
  by_cases hfails : b.fd = none ∨ written = 0
  · have hoverflow : overflow b (some c) written = (b, { success := false }) := by
      rcases hfails with hfd | hzero
      · simp [overflow, hfd]
      · by_cases hfd : b.fd = none <;> simp [overflow, sync, hfd, hpos, hzero]
    rw [hoverflow]
    exact ⟨by simp, hput, by simp⟩
  · rw [not_or] at hfails
    have hall := hwhole.resolve_left hfails.2
    have hsync : sync b written =
        ({ b with putArea := [] }, { delivered := b.putArea, success := true }) := by
      rw [sync, if_neg hfails.1, if_pos hpos, if_neg hfails.2, hall, List.take_length]
    have hoverflow : overflow b (some c) written = ({ b with putArea := [c] },
        { delivered := b.putArea, success := true }) := by
      rw [overflow, if_neg hfails.1, hsync]
      rfl
    rw [hoverflow]
    exact ⟨by simp, by simp, by simp [hall]⟩

end Writer

section Reader

variable {Byte : Type} {b : PipeBuf Byte} {bytes : List Byte}

/-- What a call of the reader leaves and hands over. -/
structure Receives (b b' : PipeBuf Byte) (bytes outs : List Byte) : Prop where
  kept : b.getArea ++ bytes = outs ++ b'.getArea
  getArea : b'.getArea.length ≤ max b.getArea.length bytes.length
  putArea : b'.putArea = b.putArea

/-- A reader that has bytes left does not call `read`; one that has none gets what `read` delivers,
and `sgetc` returns the first byte that is there then. -/
theorem sgetc_eq (hbytes : b.fd ≠ none ∧ b.getArea = [] ∨ bytes = []) :
    sgetc b bytes = ({ b with getArea := b.getArea ++ bytes },
      { returned := (b.getArea ++ bytes).head?
        success := (b.getArea ++ bytes).head?.isSome }) := by
  obtain ⟨fd, putArea, getArea⟩ := b
  unfold sgetc underflow
  rcases getArea with _ | ⟨c, rest⟩
  · rcases hbytes with ⟨hfd, -⟩ | rfl
    · rcases bytes with _ | ⟨c, rest⟩ <;> simp only [if_neg hfd] <;> rfl
    · split_ifs <;> rfl
  · obtain rfl := hbytes.resolve_left fun h ↦ by simp at h
    simp

/-- `sbumpc` takes what `sgetc` returns out of the get area. -/
theorem sbumpc_eq (b : PipeBuf Byte) (bytes : List Byte) : sbumpc b bytes =
    if (sgetc b bytes).2.success then
      ({ (sgetc b bytes).1 with getArea := (sgetc b bytes).1.getArea.tail }, (sgetc b bytes).2)
    else sgetc b bytes := by
  unfold sbumpc sgetc
  rcases hget : b.getArea with _ | ⟨c, rest⟩
  · rfl
  · simp [hget]

/-- Only one of two lists is there. -/
theorem length_append_le_max {l : List Byte} (hbytes : b.fd ≠ none ∧ l = [] ∨ bytes = []) :
    (l ++ bytes).length ≤ max l.length bytes.length := by
  rcases hbytes with ⟨-, rfl⟩ | rfl <;> simp

theorem receives_sgetc (hbytes : b.fd ≠ none ∧ b.getArea = [] ∨ bytes = []) :
    Receives b (sgetc b bytes).1 bytes [] := by
  rw [sgetc_eq hbytes]
  exact ⟨rfl, length_append_le_max hbytes, rfl⟩

theorem receives_sbumpc (hbytes : b.fd ≠ none ∧ b.getArea = [] ∨ bytes = []) :
    Receives b (sbumpc b bytes).1 bytes (sbumpc b bytes).2.returned.toList := by
  have hlength := length_append_le_max hbytes
  rw [sbumpc_eq, sgetc_eq hbytes]
  rcases hall : b.getArea ++ bytes with _ | ⟨c, rest⟩
  · exact ⟨hall, by simp, rfl⟩
  · rw [hall, List.length_cons] at hlength
    exact ⟨hall, (Nat.le_succ _).trans hlength, rfl⟩

/-- An open reader returns the next byte that is there. -/
theorem sbumpc_returned (hfd : b.fd ≠ none) (hbytes : b.getArea = [] ∨ bytes = []) :
    (sbumpc b bytes).1.fd = b.fd ∧
      (sbumpc b bytes).2.returned = (b.getArea ++ bytes).head? := by
  rw [sbumpc_eq, sgetc_eq (hbytes.imp_left fun hget ↦ ⟨hfd, hget⟩)]
  split_ifs <;> exact ⟨rfl, rfl⟩

end Reader

namespace Channel

variable {Byte : Type} {capacity written : ℕ} {ch ch' : Channel Byte} {out : Output Byte}
  {count : Option ℕ}

/-- The put area is never larger than what is taken whole. -/
theorem Takes.whole (h : ch.Takes capacity written)
    (hput : ch.writer.putArea.length ≤ bufferSize) :
    written = 0 ∨ written = ch.writer.putArea.length :=
  h.imp id fun h ↦ h.2.2.2 (hput.trans (by decide))

theorem Takes.room (h : ch.Takes capacity written) (hqueue : ch.queue.length ≤ capacity) :
    ch.queue.length + written ≤ capacity := by
  rcases h with rfl | h
  · exact hqueue
  · exact h.2.2.1

theorem input_spec {bytes : List Byte} (hinput : ch.input count = some bytes) :
    (ch.reader.fd ≠ none ∧ ch.reader.getArea = [] ∨ bytes = []) ∧
      bytes.length ≤ bufferSize ∧ bytes ++ ch.queue.drop bytes.length = ch.queue := by
  unfold input at hinput
  split_ifs at hinput with hempty
  · refine ⟨Or.inl hempty, ?_⟩
    unfold delivers at hinput
    split at hinput
    · cases hinput
      simp
    · split_ifs at hinput
      cases hinput
      simp
    · rename_i n
      split_ifs at hinput with hn
      cases hinput
      refine ⟨?_, ?_⟩
      · exact (List.length_take_le _ _).trans hn.1
      · rw [List.length_take, min_eq_left hn.2, List.take_append_drop]
  · cases hinput
    simp

theorem write_eq_some {a : Action Byte} : ch.write capacity written a = some (ch', out) ↔
    ch.Takes capacity written ∧ out = (ch.writer.step a).2 ∧
      ch' = { ch with writer := (ch.writer.step a).1,
                      queue := ch.queue ++ (ch.writer.step a).2.delivered } := by
  unfold write
  by_cases htakes : ch.Takes capacity written
  · simp only [htakes, if_true, true_and, Option.some_inj, Prod.mk.injEq]
    constructor <;> rintro ⟨rfl, rfl⟩ <;> exact ⟨rfl, rfl⟩
  · simp [htakes]

theorem read_eq_some {a : List Byte → Action Byte} : ch.read count a = some (ch', out) ↔
    ∃ bytes, ch.input count = some bytes ∧ out = (ch.reader.step (a bytes)).2 ∧
      ch' = { ch with reader := (ch.reader.step (a bytes)).1,
                      queue := ch.queue.drop bytes.length } := by
  unfold read
  simp only [bind, Option.bind_eq_some_iff, Option.some_inj, Prod.mk.injEq]
  constructor
  · rintro ⟨bytes, hinput, rfl, rfl⟩
    exact ⟨bytes, hinput, rfl, rfl⟩
  · rintro ⟨bytes, hinput, rfl, rfl⟩
    exact ⟨bytes, hinput, rfl, rfl⟩

theorem Bounded.write (h : ch.Bounded capacity) {a : Action Byte} {i : Output Byte → List Byte}
    (hforwards : ∀ _ : written = 0 ∨ written = ch.writer.putArea.length,
      Forwards ch.writer (ch.writer.step a).1 (ch.writer.step a).2 written
        (i (ch.writer.step a).2))
    (hwrite : ch.write capacity written a = some (ch', out)) :
    ch'.Bounded capacity ∧ ch.inside ++ i out = ch'.inside := by
  obtain ⟨htakes, rfl, rfl⟩ := write_eq_some.mp hwrite
  have hstep := hforwards (htakes.whole h.putArea)
  refine ⟨⟨hstep.putArea, ?_, h.getArea, h.reader⟩, ?_⟩
  · have hroom := htakes.room h.queue
    have hdelivered := hstep.delivered
    rw [List.length_append]
    omega
  · simp only [inside, List.append_assoc, ← hstep.kept]

theorem Bounded.read (h : ch.Bounded capacity) {a : List Byte → Action Byte}
    {o : Output Byte → List Byte}
    (hreceives : ∀ bytes, (ch.reader.fd ≠ none ∧ ch.reader.getArea = [] ∨ bytes = []) →
      Receives ch.reader (ch.reader.step (a bytes)).1 bytes (o (ch.reader.step (a bytes)).2))
    (hread : ch.read count a = some (ch', out)) :
    ch'.Bounded capacity ∧ ch.inside = o out ++ ch'.inside := by
  obtain ⟨bytes, hinput, rfl, rfl⟩ := read_eq_some.mp hread
  obtain ⟨hlooks, hlength, hsplit⟩ := input_spec hinput
  have hstep := hreceives bytes hlooks
  refine ⟨⟨h.putArea, ?_, ?_, ?_⟩, ?_⟩
  · exact ((List.drop_sublist _ _).length_le).trans h.queue
  · exact hstep.getArea.trans (max_le h.getArea hlength)
  · exact hstep.putArea.trans h.reader
  · unfold inside
    nth_rewrite 1 [← hsplit]
    rw [← List.append_assoc ch.reader.getArea, hstep.kept]
    simp only [List.append_assoc]

/-- No call loses, duplicates or reorders anything. -/
theorem conserves_step (capacity : ℕ) :
    Conserves (@step Byte capacity) (Bounded capacity) inside bytesIn bytesOut := by
  intro ch e ch' out h hstep
  cases e with
  | sputc c written =>
    exact h.write (a := .sputc c written) (i := fun out ↦ if out.success then [c] else [])
      (fun hwhole ↦ forwards_sputc c h.putArea hwhole) hstep
  | pubsync written =>
    exact h.write (a := .pubsync written) (i := fun _ ↦ [])
      (fun hwhole ↦ forwards_sync h.putArea hwhole) hstep
  | closeWriter written =>
    exact h.write (a := .closePipe written) (i := fun _ ↦ [])
      (fun hwhole ↦ forwards_closePipe h.putArea hwhole) hstep
  | sgetc count =>
    obtain ⟨hbounded, hkept⟩ := h.read (a := .sgetc) (o := fun _ ↦ [])
      (fun bytes hlooks ↦ receives_sgetc hlooks) hstep
    exact ⟨hbounded, (List.append_nil _).trans hkept⟩
  | sbumpc count =>
    obtain ⟨hbounded, hkept⟩ := h.read (a := .sbumpc) (o := fun out ↦ out.returned.toList)
      (fun bytes hlooks ↦ receives_sbumpc hlooks) hstep
    exact ⟨hbounded, (List.append_nil _).trans hkept⟩
  | closeReader =>
    cases hstep
    have hput : (closePipe ch.reader 0).1.putArea = ch.reader.putArea := by
      simp [closePipe_putArea]
    have hget : (closePipe ch.reader 0).1.getArea = ch.reader.getArea := by
      unfold closePipe sync
      split_ifs <;> rfl
    refine ⟨⟨h.putArea, h.queue, ?_, hput.trans h.reader⟩, ?_⟩
    · exact hget ▸ h.getArea
    · show ch.inside ++ [] = (closePipe ch.reader 0).1.getArea ++ ch.queue ++ ch.writer.putArea
      rw [hget, List.append_nil]
      rfl

/-! ### Runs -/

theorem bounded_connected (fd fd' : ℕ) : (connected fd fd' : Channel Byte).Bounded capacity :=
  ⟨by simp [connected, PipeBuf.opened], by simp [connected], by simp [connected, PipeBuf.opened],
    rfl⟩

/-- Only the reader goes on: every byte has left the writer. -/
structure Draining (ch : Channel Byte) : Prop where
  writer : ch.writer.fd = none
  putArea : ch.writer.putArea = []
  reader : ch.reader.fd ≠ none

theorem Draining.sbumpc {n : ℕ} (h : ch.Draining)
    (hstep : ch.step capacity (.sbumpc (some n)) = some (ch', out)) :
    ch'.Draining ∧ out.returned = ch.inside.head? := by
  obtain ⟨bytes, hinput, rfl, rfl⟩ := read_eq_some (a := .sbumpc).mp hstep
  have hlooks : ch.reader.getArea = [] ∨ bytes = [] := (input_spec hinput).1.imp And.right id
  obtain ⟨hfd, hreturned⟩ := sbumpc_returned h.reader hlooks
  refine ⟨⟨h.writer, h.putArea, fun hclosed ↦ h.reader (hfd.symm.trans hclosed)⟩, ?_⟩
  refine hreturned.trans ?_
  rw [inside, h.putArea, List.append_nil]
  rcases hget : ch.reader.getArea with _ | ⟨c, rest⟩
  · rw [input, if_pos ⟨h.reader, hget⟩] at hinput
    rcases n with _ | n <;> simp only [delivers] at hinput <;> split_ifs at hinput with hn
    · cases hinput
      simp [hn.1]
    · cases hinput
      rw [List.nil_append, List.nil_append, List.head?_take, if_neg (by simp)]
  · simp

/-- A reader that looks for bytes gets the next ones, and `eof` behind the last. -/
theorem Draining.drain {counts : List ℕ} {log : List (Event Byte × Output Byte)}
    (h : ch.Draining) (hbounded : ch.Bounded capacity)
    (hrun : respond (step capacity) ch (counts.map fun n ↦ .sbumpc (some n)) = some (ch', log)) :
    log.flatMap bytesOut = ch.inside.take counts.length := by
  induction counts generalizing ch log with
  | nil =>
    cases hrun
    simp
  | cons n counts ih =>
    obtain ⟨ch₁, out, rest, hstep, hrest, rfl⟩ := respond_cons.mp hrun
    obtain ⟨hdraining, hreturned⟩ := h.sbumpc hstep
    obtain ⟨hbounded, hkept⟩ := conserves_step capacity ch _ ch₁ out hbounded hstep
    have hkept : ch.inside = out.returned.toList ++ ch₁.inside :=
      (List.append_nil _).symm.trans hkept
    rw [List.flatMap_cons, ih hdraining hbounded hrest]
    show out.returned.toList ++ _ = _
    rw [hreturned] at hkept ⊢
    rcases hinside : ch.inside with _ | ⟨c, bytes⟩
    · have hempty : ch₁.inside = [] := by simpa [hinside] using hkept.symm
      simp [hempty]
    · have htail : ch₁.inside = bytes := by simpa [hinside] using hkept.symm
      simp [htail]

/-- The reader does not wait when the writer has closed. -/
theorem Draining.ready (h : ch.Draining) (capacity : ℕ) :
    ∃ n result, ch.step capacity (.sbumpc (some n)) = some result := by
  have hinput : ∃ n bytes, ch.input (some n) = some bytes := by
    by_cases hget : ch.reader.getArea = []
    · simp only [input, h.reader, hget, ne_eq, not_false_eq_true, and_self, if_true]
      by_cases hqueue : ch.queue = []
      · exact ⟨0, [], by simp [delivers, hqueue, h.writer]⟩
      · have hlength : 1 ≤ ch.queue.length := List.length_pos_iff.mpr hqueue
        exact ⟨1, ch.queue.take 1, if_pos ⟨by decide, hlength⟩⟩
    · exact ⟨0, [], by simp [input, hget]⟩
  obtain ⟨n, bytes, hinput⟩ := hinput
  exact ⟨n, _, read_eq_some (a := .sbumpc).mpr ⟨bytes, hinput, rfl, rfl⟩⟩

/-- Whatever the two processes call in whatever order, the bytes that were put are those that were
taken, followed by those on the way. When the writer has closed and written all, the reader takes
one byte after the other to the last one and then `eof`, however they are cut into reads, and no
call waits. -/
theorem exact_of_run {fd fd' : ℕ} {events : List (Event Byte)}
    {log : List (Event Byte × Output Byte)}
    (hrun : Foundations.respond (Channel.step capacity) (connected fd fd') events =
      some (ch, log)) :
    log.flatMap bytesIn = log.flatMap bytesOut ++ ch.inside ∧ ch.Bounded capacity ∧
      (ch.Draining →
        (∃ n result, ch.step capacity (.sbumpc (some n)) = some result) ∧
        ∀ (counts : List ℕ) ch' log', Foundations.respond (Channel.step capacity) ch
            (counts.map fun n ↦ .sbumpc (some n)) = some (ch', log') →
          log.flatMap bytesOut ++ log'.flatMap bytesOut =
            (log.flatMap bytesIn).take ((log.flatMap bytesOut).length + counts.length)) := by
  have hkept := (conserves_step capacity).respond (bounded_connected fd fd') hrun
  have hexact : log.flatMap bytesIn = log.flatMap bytesOut ++ ch.inside := hkept
  have hbounded : ch.Bounded capacity := respond_invariant
    (fun ch e ch' out h hstep ↦ (conserves_step capacity ch e ch' out h hstep).1)
    (bounded_connected fd fd') hrun
  refine ⟨hexact, hbounded, fun h ↦ ⟨h.ready capacity, fun counts ch' log' hrest ↦ ?_⟩⟩
  rw [h.drain hbounded hrest, hexact, List.take_length_add_append]

/-- Two bytes are put, and read after the writer has closed. -/
theorem exact_of_run_example : ∃ ch log,
    Foundations.respond (Channel.step 65536) (connected 3 4 : Channel UInt8)
      [.sputc 97 0, .sputc 98 0, .closeWriter 2, .sbumpc (some 1)] = some (ch, log) ∧
    log.flatMap bytesOut = [97] ∧ log.flatMap bytesIn = [97] ++ ch.inside := by
  have hrun : Foundations.respond (Channel.step 65536) (connected 3 4 : Channel UInt8)
      [.sputc 97 0, .sputc 98 0, .closeWriter 2, .sbumpc (some 1)] = some (_, _) := rfl
  exact ⟨_, _, hrun, rfl, (exact_of_run hrun).1⟩

end Channel

end WsServer.Pipe
