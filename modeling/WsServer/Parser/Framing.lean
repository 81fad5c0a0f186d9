import WsServer.Parser.JsonLines

/-!
# Lines over a stream socket

`AsyncEchoClient::send_line` puts a newline behind each line. `AsyncEchoClient::read_line` and
`AsyncReader::read_line` fill a buffer until it holds one and take the first line out; the rest of
the buffer stays for the next call. The buffer and what is still to arrive together are the unread
part of the stream (`Receiver.unread`), whatever the chunks in which it arrives.
-/

set_option autoImplicit false
set_option relaxedAutoImplicit false

namespace WsServer.Parser

open Foundations.Lines

/-- `AsyncEchoClient::send_line` on the bytes written so far; `ec` is the message of the error that
`async_write` meets. -/
def AsyncEchoClient.sendLine (written line : List UInt8) (ec : Option String) :
    Except String (List UInt8) :=
  let payload := line ++ [newline]
  match ec with
  | some message => .error ("client write failed: " ++ message)
  | none => .ok (written ++ payload)

/-- The lines are written one after the other. -/
def sendLines (written : List UInt8) (lines : List (List UInt8)) : Except String (List UInt8) :=
  lines.foldlM (fun written line ↦ AsyncEchoClient.sendLine written line none) written

/-- The buffer of a receiver and the chunks in which the rest of the stream will arrive. -/
structure Receiver where
  buffer : List UInt8
  arriving : List (List UInt8)
  deriving DecidableEq

/-- Both versions of `read_line`, which throw when the stream ends without a newline. -/
def readLine {Fault : Type} (ended : Fault) (r : Receiver) : Except Fault (List UInt8 × Receiver) :=
  match readUntil newline r.buffer r.arriving with
  | none => .error ended
  | some (buffer, arriving) =>
    match getline buffer with
    | none => .ok ([], { buffer := buffer, arriving := arriving }) -- never reached
    | some (line, rest) => .ok (line, { buffer := rest, arriving := arriving })

/-- The error of `async_read_until` at the end of the stream. -/
inductive ErrorCode
  | eof
  deriving DecidableEq

def AsyncEchoClient.readLine : Receiver → Except String (List UInt8 × Receiver) :=
  Parser.readLine "client read failed: End of file"

def AsyncReader.readLine : Receiver → Except ErrorCode (List UInt8 × Receiver) :=
  Parser.readLine .eof

/-- `n` successive calls and what they return. -/
def readLines {Fault : Type} (call : Receiver → Except Fault (List UInt8 × Receiver)) :
    ℕ → Receiver → Except Fault (List (List UInt8) × Receiver)
  | 0, r => .ok ([], r)
  | n + 1, r => do
    let (line, r) ← call r
    let (lines, r) ← readLines call n r
    .ok (line :: lines, r)

/-- What a receiver has not returned yet. -/
def Receiver.unread (r : Receiver) : List UInt8 := r.buffer ++ r.arriving.flatten

section Framing

variable {Fault : Type} (ended : Fault) {r : Receiver} {line rest : List UInt8}
  {lines : List (List UInt8)}

theorem sendLines_eq (written : List UInt8) (lines : List (List UInt8)) :
    sendLines written lines = .ok (written ++ lines.flatMap fun line ↦ line ++ [newline]) := by
  induction lines generalizing written with
  | nil => simp [sendLines, pure, Except.pure]
  | cons line lines ih =>
    calc sendLines written (line :: lines)
        = sendLines (written ++ (line ++ [newline])) lines := rfl
      _ = .ok (written ++ (line :: lines).flatMap fun line ↦ line ++ [newline]) := by
        rw [ih, List.flatMap_cons, List.append_assoc]

/-- A call returns the first line that is unread, and leaves the rest. -/
theorem readLine_of_unread (hline : newline ∉ line) (hr : r.unread = line ++ newline :: rest) :
    ∃ r', readLine ended r = .ok (line, r') ∧ r'.unread = rest := by
  have hcut : cut newline r.unread = some (line, rest) := cut_eq_some.mpr ⟨hr, hline⟩
  have hmem : newline ∈ r.unread := by simp [hr]
  obtain ⟨⟨buffer, arriving⟩, hread⟩ := Option.ne_none_iff_exists'.mp fun hnone ↦
    readUntil_eq_none.mp hnone hmem
  obtain ⟨hstop, hsame⟩ := of_readUntil hread
  obtain ⟨⟨line', rest'⟩, hcut'⟩ := Option.ne_none_iff_exists'.mp fun hnone ↦
    cut_eq_none.mp hnone hstop
  obtain ⟨hbuffer, hline'⟩ := cut_eq_some.mp hcut'
  -- the first line of the buffer is the first line of the stream
  have hwhole : cut newline r.unread = some (line', rest' ++ arriving.flatten) := by
    rw [Receiver.unread, ← hsame, cut_eq_some, hbuffer, List.append_assoc, List.cons_append]
    exact ⟨rfl, hline'⟩
  obtain ⟨rfl, rfl⟩ := Prod.mk.inj (Option.some.inj (hcut.symm.trans hwhole))
  refine ⟨{ buffer := rest', arriving := arriving }, ?_, rfl⟩
  simp only [readLine, hread, getline_of_cut hcut']

/-- As many calls return as many lines, and leave the encoding of the others. -/
theorem readLines_of_unread (hlines : ∀ line ∈ lines, newline ∉ line) {n : ℕ}
    (hn : n ≤ lines.length) (hr : r.unread = lines.flatMap fun line ↦ line ++ [newline]) :
    ∃ r', readLines (readLine ended) n r = .ok (lines.take n, r') ∧
      r'.unread = (lines.drop n).flatMap fun line ↦ line ++ [newline] := by
  induction n generalizing r lines with
  | zero => exact ⟨r, rfl, hr⟩
  | succ n ih =>
    cases lines with
    | nil => simp at hn
    | cons line lines =>
      rw [List.flatMap_cons, List.append_assoc, List.singleton_append] at hr
      obtain ⟨r₁, hcall, hr₁⟩ := readLine_of_unread ended
        (hlines line List.mem_cons_self) hr
      obtain ⟨r', hcalls, hr'⟩ := ih (fun line' hmem ↦ hlines line' (List.mem_cons_of_mem _ hmem))
        (Nat.le_of_succ_le_succ hn) hr₁
      refine ⟨r', ?_, hr'⟩
      simp only [readLines, hcall, hcalls, bind, Except.bind, List.take_succ_cons]

/-- Lines without a newline, written one after the other and cut into chunks in any way, come out of
as many calls of `read_line` in order; what has arrived beyond them is kept in the buffer. -/
theorem framing_roundtrip (hlines : ∀ line ∈ lines, newline ∉ line) {written : List UInt8}
    (hsent : sendLines [] lines = .ok written) {chunks : List (List UInt8)}
    (hchunks : chunks.flatten = written) {n : ℕ} (hn : n ≤ lines.length) :
    (∃ r, readLines AsyncEchoClient.readLine n { buffer := [], arriving := chunks } =
        .ok (lines.take n, r) ∧ sendLines [] (lines.drop n) = .ok r.unread) ∧
      ∃ r, readLines AsyncReader.readLine n { buffer := [], arriving := chunks } =
        .ok (lines.take n, r) ∧ sendLines [] (lines.drop n) = .ok r.unread := by
  rw [sendLines_eq, List.nil_append] at hsent
  have hr : Receiver.unread { buffer := [], arriving := chunks } =
      lines.flatMap fun line ↦ line ++ [newline] :=
    hchunks.trans (Except.ok.inj hsent).symm
  have hcalls : ∀ {Fault : Type} (ended : Fault), ∃ r,
      readLines (readLine ended) n { buffer := [], arriving := chunks } = .ok (lines.take n, r) ∧
        sendLines [] (lines.drop n) = .ok r.unread := fun ended ↦ by
    obtain ⟨r, hread, hunread⟩ := readLines_of_unread ended hlines hn hr
    exact ⟨r, hread, by rw [sendLines_eq, List.nil_append, hunread]⟩
  exact ⟨hcalls _, hcalls _⟩

/-- An empty line between two others, with a chunk that ends in the middle of the last. -/
theorem framing_roundtrip_example :
    (∃ r, readLines AsyncEchoClient.readLine 2
        { buffer := [], arriving := [[97], [98, 10, 10, 99], [10]] } = .ok ([[97, 98], []], r) ∧
          sendLines [] [[99]] = .ok r.unread) ∧
      ∃ r, readLines AsyncReader.readLine 2
        { buffer := [], arriving := [[97], [98, 10, 10, 99], [10]] } = .ok ([[97, 98], []], r) ∧
          sendLines [] [[99]] = .ok r.unread :=
  framing_roundtrip (by decide : ∀ line ∈ [[97, 98], [], [99]], newline ∉ line) rfl rfl
    (by decide : 2 ≤ 3)

end Framing

end WsServer.Parser
