import Mathlib.Data.List.Basic
import Mathlib.Tactic

/-!
# Lines of a byte stream

`frame` cuts a stream after every stop symbol: the lines that a stop symbol ends, and what follows
the last of them. `cut` takes the first line off a stream, and `readUntil` fills a buffer from
arriving chunks until it holds a stop symbol. Neither depends on how the stream is cut into chunks:
what a buffer and the chunks to come hold together determines the lines that are read from them.

Two texts with a stop symbol between them are determined by the whole only up to the choice of the
stop symbol (`append_stop_eq_iff`).
-/

set_option autoImplicit false
set_option relaxedAutoImplicit false

namespace WsServer.Foundations.Lines

variable {Symbol : Type} [DecidableEq Symbol] (stop : Symbol)

/-- The symbols before the first stop symbol and those after it. -/
def cut : List Symbol → Option (List Symbol × List Symbol)
  | [] => none
  | b :: rest => if b = stop then some ([], rest) else (cut rest).map fun r ↦ (b :: r.1, r.2)

/-- The lines of a stream and what follows the last of them. -/
def frame : List Symbol → List (List Symbol) × List Symbol
  | [] => ([], [])
  | b :: rest =>
    if b = stop then ([] :: (frame rest).1, (frame rest).2)
    else
      match (frame rest).1 with
      | [] => ([], b :: (frame rest).2)
      | line :: lines => ((b :: line) :: lines, (frame rest).2)

/-- Filling a buffer from the arriving chunks until it holds a stop symbol; none when the stream
ends without one. -/
def readUntil (buffer : List Symbol) (chunks : List (List Symbol)) :
    Option (List Symbol × List (List Symbol)) :=
  if stop ∈ buffer then some (buffer, chunks)
  else
    match chunks with
    | [] => none
    | chunk :: chunks => readUntil (buffer ++ chunk) chunks

section Cut

variable {stop} {s line rest : List Symbol}

theorem cut_eq_none : cut stop s = none ↔ stop ∉ s := by
  induction s with
  | nil => simp [cut]
  | cons b s ih =>
    rw [cut, List.mem_cons, not_or]
    split_ifs with hb
    · simp [hb]
    · rw [Option.map_eq_none_iff, ih]
      exact (and_iff_right (Ne.symm hb)).symm

/-- What `cut` leaves is the stream without its first line. -/
theorem cut_eq_some : cut stop s = some (line, rest) ↔ s = line ++ stop :: rest ∧ stop ∉ line := by
  induction s generalizing line with
  | nil => simp [cut]
  | cons b s ih =>
    rw [cut]
    split_ifs with hb
    · subst hb
      cases line with
      | nil => simp
      | cons c line => simp +contextual
    · rw [Option.map_eq_some_iff]
      cases line with
      | nil => simp [hb]
      | cons c line =>
        simp only [Prod.exists, Prod.mk.injEq, List.cons.injEq, List.cons_append, List.mem_cons,
          not_or]
        constructor
        · rintro ⟨line', rest', hcut, ⟨rfl, rfl⟩, rfl⟩
          have hs := ih.mp hcut
          exact ⟨⟨rfl, hs.1⟩, Ne.symm hb, hs.2⟩
        · rintro ⟨⟨rfl, hs⟩, -, hline⟩
          exact ⟨line, rest, ih.mpr ⟨hs, hline⟩, ⟨rfl, rfl⟩, rfl⟩

theorem length_lt_of_cut (hcut : cut stop s = some (line, rest)) : rest.length < s.length := by
  rw [(cut_eq_some.mp hcut).1, List.length_append, List.length_cons]
  omega

end Cut

section Joined

variable {stop} {a b a' b' : List Symbol}

omit [DecidableEq Symbol] in
/-- A text is cut in two ways at a stop symbol: at the same one, or what lies between the two
belongs to the second part once and to the first part once. -/
theorem append_stop_eq_iff : a ++ stop :: b = a' ++ stop :: b' ↔ (a = a' ∧ b = b') ∨
    (∃ moved, b = moved ++ stop :: b' ∧ a' = a ++ stop :: moved) ∨
    ∃ moved, b' = moved ++ stop :: b ∧ a = a' ++ stop :: moved := by
  constructor
  · intro heq
    rcases List.append_eq_append_iff.mp heq with ⟨gap, rfl, hgap⟩ | ⟨gap, rfl, hgap⟩
    · rcases List.cons_eq_append_iff.mp hgap with ⟨rfl, hb⟩ | ⟨moved, rfl, rfl⟩
      · exact Or.inl ⟨by simp, (List.cons.inj hb).2.symm⟩
      · exact Or.inr (Or.inl ⟨moved, rfl, rfl⟩)
    · rcases List.cons_eq_append_iff.mp hgap with ⟨rfl, hb⟩ | ⟨moved, rfl, rfl⟩
      · exact Or.inl ⟨by simp, (List.cons.inj hb).2⟩
      · exact Or.inr (Or.inr ⟨moved, rfl, rfl⟩)
  · rintro (⟨rfl, rfl⟩ | ⟨moved, rfl, rfl⟩ | ⟨moved, rfl, rfl⟩)
    · rfl
    · simp
    · simp

omit [DecidableEq Symbol] in
/-- At the last stop symbol there is one cut. -/
theorem append_stop_inj (hb : stop ∉ b) (hb' : stop ∉ b') :
    a ++ stop :: b = a' ++ stop :: b' ↔ a = a' ∧ b = b' := by
  rw [append_stop_eq_iff]
  refine or_iff_left ?_
  rintro (⟨moved, rfl, -⟩ | ⟨moved, rfl, -⟩)
  · simp at hb
  · simp at hb'

end Joined

section Frame

variable {stop} {s line rest : List Symbol}

theorem frame_append (hline : stop ∉ line) :
    frame stop (line ++ stop :: rest) = (line :: (frame stop rest).1, (frame stop rest).2) := by
  induction line with
  | nil => simp [frame]
  | cons b line ih =>
    rw [List.mem_cons, not_or] at hline
    rw [List.cons_append, frame, if_neg (Ne.symm hline.1), ih hline.2]

theorem frame_of_cut (hcut : cut stop s = some (line, rest)) :
    frame stop s = (line :: (frame stop rest).1, (frame stop rest).2) := by
  have hs := cut_eq_some.mp hcut
  rw [hs.1, frame_append hs.2]

/-- A stream without a stop symbol is no line. -/
theorem frame_of_not_mem (hs : stop ∉ s) : frame stop s = ([], s) := by
  induction s with
  | nil => rfl
  | cons b s ih =>
    rw [List.mem_cons, not_or] at hs
    rw [frame, if_neg (Ne.symm hs.1), ih hs.2]

/-- The lines at the beginning of a stream are its first lines. -/
theorem frame_prefix (s rest : List Symbol) : (frame stop s).1 <+: (frame stop (s ++ rest)).1 := by
  induction s with
  | nil => exact List.nil_prefix
  | cons b s ih =>
    obtain ⟨more, hmore⟩ := ih
    rw [List.cons_append, frame, frame]
    split_ifs
    · exact ⟨more, by rw [← hmore]; rfl⟩
    · rcases hlines : (frame stop s).1 with _ | ⟨line, lines⟩
      · exact List.nil_prefix
      · rw [← hmore, hlines]
        exact ⟨more, rfl⟩

/-- Lines with a stop symbol behind each. -/
def unframe (stop : Symbol) (lines : List (List Symbol)) : List Symbol :=
  lines.flatMap fun line ↦ line ++ [stop]

theorem frame_unframe {lines : List (List Symbol)} (hlines : ∀ line ∈ lines, stop ∉ line) :
    frame stop (unframe stop lines) = (lines, []) := by
  induction lines with
  | nil => rfl
  | cons line lines ih =>
    rw [List.forall_mem_cons] at hlines
    rw [unframe, List.flatMap_cons, List.append_assoc, List.singleton_append,
      frame_append hlines.1]
    show (line :: (frame stop (unframe stop lines)).1, (frame stop (unframe stop lines)).2) = _
    rw [ih hlines.2]

end Frame

section Chunks

variable {stop} {buffer buffer' : List Symbol} {chunks chunks' : List (List Symbol)}

/-- The buffer is filled with what arrives and holds a stop symbol then. -/
theorem of_readUntil (hread : readUntil stop buffer chunks = some (buffer', chunks')) :
    stop ∈ buffer' ∧ buffer' ++ chunks'.flatten = buffer ++ chunks.flatten := by
  induction chunks generalizing buffer with
  | nil =>
    rw [readUntil] at hread
    split_ifs at hread with hstop
    · cases hread
      exact ⟨hstop, rfl⟩
  | cons chunk chunks ih =>
    rw [readUntil] at hread
    split_ifs at hread with hstop
    · cases hread
      exact ⟨hstop, rfl⟩
    · have hfilled := ih hread
      exact ⟨hfilled.1, by rw [hfilled.2, List.append_assoc, List.flatten_cons]⟩

/-- The stream ends before a stop symbol only when it has none left. -/
theorem readUntil_eq_none :
    readUntil stop buffer chunks = none ↔ stop ∉ buffer ++ chunks.flatten := by
  induction chunks generalizing buffer with
  | nil =>
    rw [readUntil, List.flatten_nil, List.append_nil]
    split_ifs with hstop <;> simp [hstop]
  | cons chunk chunks ih =>
    rw [readUntil, List.flatten_cons, ← List.append_assoc]
    split_ifs with hstop
    · simp [hstop]
    · exact ih

end Chunks

end WsServer.Foundations.Lines
