import WsServer.Foundations.Lines

/-!
# The JSON line parsers of `asio_json_parser.hpp`

Both parsers read lines, parse each and call back with the values. `SyncJsonParser` reads an
`istream` to its end, `AsyncJsonParser` a stream that arrives in chunks. They agree on the lines
that a newline ends; what follows the last newline is a line for `std::getline` only.

The parser of a single line is a parameter, none where it throws, and the calls of the callback are
the list of their arguments.
-/

set_option autoImplicit false
set_option relaxedAutoImplicit false

namespace WsServer.Parser

open Foundations.Lines

abbrev newline : UInt8 := 10

/-- `std::getline` on the bytes left in a stream: the line and what is left behind it, none when it
extracts nothing. -/
def getline (stream : List UInt8) : Option (List UInt8 × List UInt8) :=
  match stream with
  | [] => none
  | _ :: _ => some ((cut newline stream).getD (stream, []))

theorem length_lt_of_getline {stream line rest : List UInt8}
    (hline : getline stream = some (line, rest)) : rest.length < stream.length := by
  unfold getline at hline
  cases stream with
  | nil => simp at hline
  | cons b stream =>
    cases hcut : cut newline (b :: stream) with
    | none =>
      rw [hcut] at hline
      cases hline
      exact Nat.succ_pos _
    | some found =>
      rw [hcut] at hline
      cases hline
      exact length_lt_of_cut hcut

section Parsers

variable {Json : Type} (parseLine : List UInt8 → Option Json)

/-- `SyncJsonParser::parse`. -/
def syncParse (stream : List UInt8) : List Json :=
  match _hline : getline stream with
  | none => []
  | some (line, rest) => (parseLine line).toList ++ syncParse rest
termination_by stream.length
decreasing_by exact length_lt_of_getline _hline

/-- `AsyncJsonParser::do_read` with the bytes in `buf_` and the chunks to come; at the end of the
stream the error goes to the handler. -/
def doRead (buf : List UInt8) (chunks : List (List UInt8)) : List Json :=
  match _hread : readUntil newline buf chunks with
  | none => []
  | some (buf, chunks) =>
    match _hline : getline buf with
    | none => [] -- never reached: the buffer holds a newline
    | some (line, rest) => (parseLine line).toList ++ doRead rest chunks
termination_by (buf ++ chunks.flatten).length
decreasing_by
  rw [← (of_readUntil _hread).2, List.length_append, List.length_append]
  exact Nat.add_lt_add_right (length_lt_of_getline _hline) _

/-- `AsyncJsonParser::async_parse`. -/
def asyncParse (chunks : List (List UInt8)) : List Json := doRead parseLine [] chunks

/-- The bytes of a stream after its last newline. -/
def unterminated (stream : List UInt8) : List UInt8 := (frame newline stream).2

/-- The values of the lines that a newline ends. -/
def terminatedValues (stream : List UInt8) : List Json :=
  (frame newline stream).1.filterMap parseLine

variable {parseLine} {stream line rest : List UInt8}

theorem getline_of_cut (hcut : cut newline stream = some (line, rest)) :
    getline stream = some (line, rest) := by
  cases stream with
  | nil => simp [cut] at hcut
  | cons b stream => simp [getline, hcut]

theorem terminatedValues_of_cut (hcut : cut newline stream = some (line, rest)) :
    terminatedValues parseLine stream =
      (parseLine line).toList ++ terminatedValues parseLine rest := by
  rw [terminatedValues, frame_of_cut hcut, List.filterMap_cons]
  cases parseLine line <;> rfl

theorem unterminated_of_cut (hcut : cut newline stream = some (line, rest)) :
    unterminated stream = unterminated rest := by
  rw [unterminated, frame_of_cut hcut, unterminated]

/-- The synchronous parser reads the terminated lines and then what follows them, unless nothing
does. -/
theorem syncParse_eq (stream : List UInt8) :
    syncParse parseLine stream = terminatedValues parseLine stream ++
      if unterminated stream = [] then [] else (parseLine (unterminated stream)).toList := by
  induction hn : stream.length using Nat.strong_induction_on generalizing stream with
  | _ n ih =>
    subst hn
    cases hcut : cut newline stream with
    | some found =>
      obtain ⟨line, rest⟩ := found
      rw [syncParse, getline_of_cut hcut, terminatedValues_of_cut hcut, unterminated_of_cut hcut]
      simp only
      rw [ih rest.length (length_lt_of_cut hcut) rest rfl, List.append_assoc]
    | none =>
      have hframe := frame_of_not_mem (cut_eq_none.mp hcut)
      rw [terminatedValues, unterminated, hframe]
      cases stream with
      | nil => rw [syncParse]; rfl
      | cons b stream =>
        have hline : getline (b :: stream) = some (b :: stream, []) := by simp [getline, hcut]
        rw [syncParse, hline]
        simp only
        rw [syncParse]
        simp [getline]

/-- The asynchronous parser reads the terminated lines, however they arrive. -/
theorem doRead_eq (buf : List UInt8) (chunks : List (List UInt8)) :
    doRead parseLine buf chunks = terminatedValues parseLine (buf ++ chunks.flatten) := by
  induction hn : (buf ++ chunks.flatten).length using Nat.strong_induction_on
    generalizing buf chunks with
  | _ n ih =>
    subst hn
    rw [doRead]
    cases hread : readUntil newline buf chunks with
    | none =>
      rw [terminatedValues, frame_of_not_mem (readUntil_eq_none.mp hread)]
      rfl
    | some found =>
      obtain ⟨buf', chunks'⟩ := found
      obtain ⟨hstop, hsame⟩ := of_readUntil hread
      obtain ⟨⟨line, rest⟩, hcut⟩ := Option.ne_none_iff_exists'.mp fun hnone ↦
        cut_eq_none.mp hnone hstop
      have hbuf := (cut_eq_some.mp hcut).1
      have hwhole : cut newline (buf ++ chunks.flatten) = some (line, rest ++ chunks'.flatten) := by
        rw [← hsame, cut_eq_some, hbuf, List.append_assoc, List.cons_append]
        exact ⟨rfl, (cut_eq_some.mp hcut).2⟩
      simp only
      rw [getline_of_cut hcut, terminatedValues_of_cut hwhole]
      simp only
      rw [ih _ (length_lt_of_cut hwhole) rest chunks' rfl]

/-- On every stream, however it arrives, the two parsers make the same calls exactly when the bytes
after the last newline are none or not parsed. -/
theorem parsers_agree_iff (parseLine : List UInt8 → Option Json) (chunks : List (List UInt8)) :
    asyncParse parseLine chunks = syncParse parseLine chunks.flatten ↔
      unterminated chunks.flatten = [] ∨ parseLine (unterminated chunks.flatten) = none := by
  rw [asyncParse, doRead_eq, List.nil_append, syncParse_eq, List.self_eq_append_right]
  by_cases hempty : unterminated chunks.flatten = []
  · simp [hempty]
  · simp [hempty]

end Parsers

/-- The digit `1` without a newline. -/
theorem parsers_disagree :
    ¬∀ (Json : Type) (parseLine : List UInt8 → Option Json) (chunks : List (List UInt8)),
      asyncParse parseLine chunks = syncParse parseLine chunks.flatten := by
  intro hall
  have hsame := hall ℕ (fun line ↦ if line = [49] then some 1 else none) [[49]]
  rw [asyncParse, doRead_eq, syncParse_eq] at hsame
  exact absurd hsame (by decide)

end WsServer.Parser
