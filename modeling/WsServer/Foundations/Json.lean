import Mathlib.Data.List.TakeWhile
import Mathlib.Tactic

/-!
# JSON texts

The grammar of JSON relates a text to the value it denotes (`Denotes`); numbers and strings keep
their text. `parse` is a recursive descent parser for it, and whatever it accepts is a text of the
grammar (`parse_sound`). The remaining lemmas run the parser on the pieces of a printed text, with
anything behind them.
-/

set_option autoImplicit false
set_option relaxedAutoImplicit false

namespace WsServer.Foundations.Json

inductive Value
  | null
  | bool (b : Bool)
  | number (text : List Char)
  | string (text : List Char)
  | array (items : List Value)
  | object (members : List (List Char × Value))

/-! ### The grammar -/

def isBlank (c : Char) : Bool := c = ' ' || c = '\t' || c = '\n' || c = '\r'

/-- Any amount of white space. -/
def Blank (text : List Char) : Prop := ∀ c ∈ text, isBlank c = true

/-- What may follow the `e` of a number. -/
def isExponent (text : List Char) : Bool :=
  let digits := match text with
    | '+' :: digits => digits
    | '-' :: digits => digits
    | digits => digits
  !digits.isEmpty && digits.all Char.isDigit

/-- What may follow the digits of a number. -/
def isExponentPart : List Char → Bool
  | [] => true
  | 'e' :: text => isExponent text
  | 'E' :: text => isExponent text
  | _ => false

/-- What may follow the integer part of a number. -/
def isFraction : List Char → Bool
  | '.' :: text => !(text.takeWhile Char.isDigit).isEmpty &&
    isExponentPart (text.dropWhile Char.isDigit)
  | text => isExponentPart text

/-- A number without its sign: the integer part has no leading zero. -/
def isUnsigned (text : List Char) : Bool :=
  let digits := text.takeWhile Char.isDigit
  (digits = ['0'] || (!digits.isEmpty && digits.head? ≠ some '0')) &&
    isFraction (text.dropWhile Char.isDigit)

def isNumber : List Char → Bool
  | '-' :: text => isUnsigned text
  | text => isUnsigned text

def isHex (c : Char) : Bool := c.isDigit || ('a' ≤ c && c ≤ 'f') || ('A' ≤ c && c ≤ 'F')

/-- The characters that stand for themselves in a string. -/
def isPlain (c : Char) : Bool := ' ' ≤ c && c ≠ '"' && c ≠ '\\'

/-- The characters that may follow a backslash, but for `u`. -/
def isEscape (c : Char) : Bool := c ∈ ['"', '\\', '/', 'b', 'f', 'n', 'r', 't']

/-- The text of a string between its quotes. -/
inductive StringText : List Char → Prop
  | nil : StringText []
  | plain {c : Char} {text : List Char} (hc : isPlain c = true) (h : StringText text) :
      StringText (c :: text)
  | escape {c : Char} {text : List Char} (hc : isEscape c = true) (h : StringText text) :
      StringText ('\\' :: c :: text)
  | unicode {a b c d : Char} {text : List Char}
      (hhex : isHex a = true ∧ isHex b = true ∧ isHex c = true ∧ isHex d = true)
      (h : StringText text) : StringText ('\\' :: 'u' :: a :: b :: c :: d :: text)

mutual

/-- The text of a value, without white space around it. -/
inductive Denotes : List Char → Value → Prop
  | null : Denotes ['n', 'u', 'l', 'l'] .null
  | true : Denotes ['t', 'r', 'u', 'e'] (.bool true)
  | false : Denotes ['f', 'a', 'l', 's', 'e'] (.bool false)
  | number {text : List Char} (h : isNumber text = true) : Denotes text (.number text)
  | string {text : List Char} (h : StringText text) : Denotes ('"' :: text ++ ['"']) (.string text)
  | emptyArray {w : List Char} (hw : Blank w) : Denotes ('[' :: w ++ [']']) (.array [])
  | array {text : List Char} {items : List Value} (h : Elements text items) :
      Denotes ('[' :: text ++ [']']) (.array items)
  | emptyObject {w : List Char} (hw : Blank w) : Denotes ('{' :: w ++ ['}']) (.object [])
  | object {text : List Char} {entries : List (List Char × Value)} (h : Members text entries) :
      Denotes ('{' :: text ++ ['}']) (.object entries)

/-- The items of an array that is not empty. -/
inductive Elements : List Char → List Value → Prop
  | single {w text w' : List Char} {v : Value} (hw : Blank w) (h : Denotes text v)
      (hw' : Blank w') : Elements (w ++ text ++ w') [v]
  | cons {w text w' more : List Char} {v : Value} {vs : List Value} (hw : Blank w)
      (h : Denotes text v) (hw' : Blank w') (hmore : Elements more vs) :
      Elements (w ++ text ++ w' ++ ',' :: more) (v :: vs)

/-- The members of an object that is not empty. -/
inductive Members : List Char → List (List Char × Value) → Prop
  | single {w key w₁ w₂ text w' : List Char} {v : Value} (hw : Blank w) (hkey : StringText key)
      (hw₁ : Blank w₁) (hw₂ : Blank w₂) (h : Denotes text v) (hw' : Blank w') :
      Members (w ++ '"' :: key ++ '"' :: w₁ ++ ':' :: w₂ ++ text ++ w') [(key, v)]
  | cons {w key w₁ w₂ text w' more : List Char} {v : Value} {vs : List (List Char × Value)}
      (hw : Blank w) (hkey : StringText key) (hw₁ : Blank w₁) (hw₂ : Blank w₂)
      (h : Denotes text v) (hw' : Blank w') (hmore : Members more vs) :
      Members (w ++ '"' :: key ++ '"' :: w₁ ++ ':' :: w₂ ++ text ++ w' ++ ',' :: more)
        ((key, v) :: vs)

end

/-- A text with white space around the value. -/
def IsText (text : List Char) (v : Value) : Prop :=
  ∃ w body w', text = w ++ body ++ w' ∧ Blank w ∧ Blank w' ∧ Denotes body v

/-! ### The parser -/

def skipBlank (input : List Char) : List Char := input.dropWhile isBlank

def isNumberChar (c : Char) : Bool := c.isDigit || c ∈ ['-', '+', '.', 'e', 'E']

/-- A number ends at the first character that no number contains. -/
def number (input : List Char) : Option (Value × List Char) :=
  let text := input.takeWhile isNumberChar
  if isNumber text then some (.number text, input.dropWhile isNumberChar) else none

/-- The text of a string up to its closing quote, which is consumed. -/
def stringText : List Char → Option (List Char × List Char)
  | '"' :: rest => some ([], rest)
  | '\\' :: 'u' :: a :: b :: c :: d :: rest =>
    if isHex a && isHex b && isHex c && isHex d then
      (stringText rest).map fun r ↦ ('\\' :: 'u' :: a :: b :: c :: d :: r.1, r.2)
    else none
  | '\\' :: c :: rest =>
    if isEscape c then (stringText rest).map fun r ↦ ('\\' :: c :: r.1, r.2) else none
  | c :: rest => if isPlain c then (stringText rest).map fun r ↦ (c :: r.1, r.2) else none
  | [] => none

mutual

/-- A value at the head of the input, and what is left. -/
def value : ℕ → List Char → Option (Value × List Char)
  | 0, _ => none
  | fuel + 1, input =>
    match input with
    | 'n' :: 'u' :: 'l' :: 'l' :: rest => some (.null, rest)
    | 't' :: 'r' :: 'u' :: 'e' :: rest => some (.bool true, rest)
    | 'f' :: 'a' :: 'l' :: 's' :: 'e' :: rest => some (.bool false, rest)
    | '"' :: rest => (stringText rest).map fun r ↦ (.string r.1, r.2)
    | '[' :: rest =>
      match skipBlank rest with
      | ']' :: rest => some (.array [], rest)
      | _ => (elements fuel rest).map fun r ↦ (.array r.1, r.2)
    | '{' :: rest =>
      match skipBlank rest with
      | '}' :: rest => some (.object [], rest)
      | _ => (members fuel rest).map fun r ↦ (.object r.1, r.2)
    | input => number input

/-- The items of an array up to its closing bracket, which is consumed. -/
def elements : ℕ → List Char → Option (List Value × List Char)
  | 0, _ => none
  | fuel + 1, input => do
    let (v, rest) ← value fuel (skipBlank input)
    match skipBlank rest with
    | ',' :: rest => (elements fuel rest).map fun r ↦ (v :: r.1, r.2)
    | ']' :: rest => some ([v], rest)
    | _ => none

/-- The members of an object up to its closing brace, which is consumed. -/
def members : ℕ → List Char → Option (List (List Char × Value) × List Char)
  | 0, _ => none
  | fuel + 1, input =>
    match skipBlank input with
    | '"' :: rest => do
      let (key, rest) ← stringText rest
      match skipBlank rest with
      | ':' :: rest => do
        let (v, rest) ← value fuel (skipBlank rest)
        match skipBlank rest with
        | ',' :: rest => (members fuel rest).map fun r ↦ ((key, v) :: r.1, r.2)
        | '}' :: rest => some ([(key, v)], rest)
        | _ => none
      | _ => none
    | _ => none

end

/-- Every step into an array or an object, or on to its next entry, consumes a character. -/
def parse (text : List Char) : Option Value :=
  match value text.length (skipBlank text) with
  | some (v, rest) => if rest.all isBlank then some v else none
  | none => none

/-! ### Soundness of the parser -/

theorem exists_blank (input : List Char) : ∃ w, input = w ++ skipBlank input ∧ Blank w :=
  ⟨input.takeWhile isBlank, List.takeWhile_append_dropWhile.symm, fun _ ↦ List.mem_takeWhile_imp⟩

/-- What stands behind some white space. -/
theorem exists_of_skipBlank {input rest : List Char} (h : skipBlank input = rest) :
    ∃ w, input = w ++ rest ∧ Blank w := h ▸ exists_blank input

/-- A parser that changes the result of another one keeps what is left. -/
theorem exists_of_map {α β : Type} {r : Option (α × List Char)} {f : α → β} {b : β}
    {rest : List Char} (h : (r.map fun r ↦ (f r.1, r.2)) = some (b, rest)) :
    ∃ a, r = some (a, rest) ∧ f a = b := by
  obtain ⟨⟨a, rest'⟩, hr, heq⟩ := Option.map_eq_some_iff.mp h
  obtain ⟨rfl, rfl⟩ := Prod.mk.inj heq
  exact ⟨a, hr, rfl⟩

theorem number_sound {input rest : List Char} {v : Value} (h : number input = some (v, rest)) :
    ∃ text, input = text ++ rest ∧ Denotes text v := by
  simp only [number] at h
  split_ifs at h with hnumber
  obtain ⟨rfl, rfl⟩ := Prod.mk.inj (Option.some.inj h)
  exact ⟨_, List.takeWhile_append_dropWhile.symm, .number hnumber⟩

theorem stringText_sound {input text rest : List Char} (h : stringText input = some (text, rest)) :
    input = text ++ '"' :: rest ∧ StringText text := by
  induction input using stringText.induct generalizing text with
  | case1 rest' =>
    rw [stringText] at h
    obtain ⟨rfl, rfl⟩ := Prod.mk.inj (Option.some.inj h)
    exact ⟨rfl, .nil⟩
  | case2 a b c d rest' hhex ih =>
    rw [stringText, if_pos hhex] at h
    obtain ⟨text', htext, rfl⟩ := exists_of_map (f := ('\\' :: 'u' :: a :: b :: c :: d :: ·)) h
    obtain ⟨rfl, hstring⟩ := ih htext
    simp only [Bool.and_eq_true, and_assoc] at hhex
    exact ⟨rfl, .unicode hhex hstring⟩
  | case3 a b c d rest' hhex =>
    rw [stringText, if_neg hhex] at h
    cases h
  | case4 c rest' hunicode hescape ih =>
    rw [stringText, if_pos hescape] at h
    · obtain ⟨text', htext, rfl⟩ := exists_of_map (f := ('\\' :: c :: ·)) h
      obtain ⟨rfl, hstring⟩ := ih htext
      exact ⟨rfl, .escape hescape hstring⟩
    · exact hunicode
  | case5 c rest' hunicode hescape =>
    rw [stringText, if_neg hescape] at h
    · cases h
    · exact hunicode
  | case6 c rest' hquote hunicode hslash hplain ih =>
    rw [stringText, if_pos hplain] at h
    · obtain ⟨text', htext, rfl⟩ := exists_of_map (f := (c :: ·)) h
      obtain ⟨rfl, hstring⟩ := ih htext
      exact ⟨rfl, .plain hplain hstring⟩
    all_goals assumption
  | case7 c rest' hquote hunicode hslash hplain =>
    rw [stringText, if_neg hplain] at h
    · cases h
    all_goals assumption
  | case8 => simp [stringText] at h

/-- What the parsers accept with some fuel is in the grammar. -/
structure Sound (fuel : ℕ) : Prop where
  value : ∀ input v rest, value fuel input = some (v, rest) →
    ∃ text, input = text ++ rest ∧ Denotes text v
  elements : ∀ input vs rest, elements fuel input = some (vs, rest) →
    ∃ text, input = text ++ ']' :: rest ∧ Elements text vs
  members : ∀ input vs rest, members fuel input = some (vs, rest) →
    ∃ text, input = text ++ '}' :: rest ∧ Members text vs

theorem Sound.value_succ {fuel : ℕ} (h : Sound fuel) {input rest : List Char} {v : Value}
    (hvalue : Json.value (fuel + 1) input = some (v, rest)) :
    ∃ text, input = text ++ rest ∧ Denotes text v := by
  unfold Json.value at hvalue
  split at hvalue
  · obtain ⟨rfl, rfl⟩ := Prod.mk.inj (Option.some.inj hvalue)
    exact ⟨_, rfl, .null⟩
  · obtain ⟨rfl, rfl⟩ := Prod.mk.inj (Option.some.inj hvalue)
    exact ⟨_, rfl, .true⟩
  · obtain ⟨rfl, rfl⟩ := Prod.mk.inj (Option.some.inj hvalue)
    exact ⟨_, rfl, .false⟩
  · obtain ⟨text, htext, rfl⟩ := exists_of_map (f := Value.string) hvalue
    obtain ⟨rfl, hstring⟩ := stringText_sound htext
    exact ⟨'"' :: text ++ ['"'], by simp, .string hstring⟩
  · split at hvalue
    · next hblank =>
      obtain ⟨rfl, rfl⟩ := Prod.mk.inj (Option.some.inj hvalue)
      obtain ⟨w, rfl, hw⟩ := exists_of_skipBlank hblank
      exact ⟨'[' :: w ++ [']'], by simp, .emptyArray hw⟩
    · obtain ⟨items, hitems, rfl⟩ := exists_of_map (f := Value.array) hvalue
      obtain ⟨text, rfl, helements⟩ := h.elements _ _ _ hitems
      exact ⟨'[' :: text ++ [']'], by simp, .array helements⟩
  · split at hvalue
    · next hblank =>
      obtain ⟨rfl, rfl⟩ := Prod.mk.inj (Option.some.inj hvalue)
      obtain ⟨w, rfl, hw⟩ := exists_of_skipBlank hblank
      exact ⟨'{' :: w ++ ['}'], by simp, .emptyObject hw⟩
    · obtain ⟨entries, hentries, rfl⟩ := exists_of_map (f := Value.object) hvalue
      obtain ⟨text, rfl, hmembers⟩ := h.members _ _ _ hentries
      exact ⟨'{' :: text ++ ['}'], by simp, .object hmembers⟩
  · exact number_sound hvalue

theorem Sound.elements_succ {fuel : ℕ} (h : Sound fuel) {input rest : List Char} {vs : List Value}
    (helements : Json.elements (fuel + 1) input = some (vs, rest)) :
    ∃ text, input = text ++ ']' :: rest ∧ Elements text vs := by
  rw [Json.elements] at helements
  obtain ⟨⟨v, rest₁⟩, hvalue, hmore⟩ := Option.bind_eq_some_iff.mp helements
  obtain ⟨w, hinput, hw⟩ := exists_blank input
  obtain ⟨text, htext, hdenotes⟩ := h.value _ _ _ hvalue
  simp only at hmore
  split at hmore
  · next hcomma =>
    obtain ⟨w', rfl, hw'⟩ := exists_of_skipBlank hcomma
    obtain ⟨vs', hvs, rfl⟩ := exists_of_map (f := (v :: ·)) hmore
    obtain ⟨more, rfl, helements'⟩ := h.elements _ _ _ hvs
    exact ⟨w ++ text ++ w' ++ ',' :: more, by rw [hinput, htext]; simp,
      .cons hw hdenotes hw' helements'⟩
  · next hbracket =>
    obtain ⟨w', rfl, hw'⟩ := exists_of_skipBlank hbracket
    obtain ⟨rfl, rfl⟩ := Prod.mk.inj (Option.some.inj hmore)
    exact ⟨w ++ text ++ w', by rw [hinput, htext]; simp, .single hw hdenotes hw'⟩
  · cases hmore

theorem Sound.members_succ {fuel : ℕ} (h : Sound fuel) {input rest : List Char}
    {vs : List (List Char × Value)} (hmembers : Json.members (fuel + 1) input = some (vs, rest)) :
    ∃ text, input = text ++ '}' :: rest ∧ Members text vs := by
  rw [Json.members] at hmembers
  split at hmembers
  · next hquote =>
    obtain ⟨w, rfl, hw⟩ := exists_of_skipBlank hquote
    obtain ⟨⟨key, rest₁⟩, hkey, hafter⟩ := Option.bind_eq_some_iff.mp hmembers
    obtain ⟨rfl, hstring⟩ := stringText_sound hkey
    simp only at hafter
    split at hafter
    · next hcolon =>
      obtain ⟨w₁, rfl, hw₁⟩ := exists_of_skipBlank hcolon
      obtain ⟨⟨v, rest₂⟩, hvalue, hmore⟩ := Option.bind_eq_some_iff.mp hafter
      obtain ⟨text, htext, hdenotes⟩ := h.value _ _ _ hvalue
      obtain ⟨w₂, rfl, hw₂⟩ := exists_of_skipBlank htext
      simp only at hmore
      split at hmore
      · next hcomma =>
        obtain ⟨w', rfl, hw'⟩ := exists_of_skipBlank hcomma
        obtain ⟨vs', hvs, rfl⟩ := exists_of_map (f := ((key, v) :: ·)) hmore
        obtain ⟨more, rfl, hmembers'⟩ := h.members _ _ _ hvs
        exact ⟨w ++ '"' :: key ++ '"' :: w₁ ++ ':' :: w₂ ++ text ++ w' ++ ',' :: more, by simp,
          .cons hw hstring hw₁ hw₂ hdenotes hw' hmembers'⟩
      · next hbrace =>
        obtain ⟨w', rfl, hw'⟩ := exists_of_skipBlank hbrace
        obtain ⟨rfl, rfl⟩ := Prod.mk.inj (Option.some.inj hmore)
        exact ⟨w ++ '"' :: key ++ '"' :: w₁ ++ ':' :: w₂ ++ text ++ w', by simp,
          .single hw hstring hw₁ hw₂ hdenotes hw'⟩
      · cases hmore
    · cases hafter
  · cases hmembers

theorem sound (fuel : ℕ) : Sound fuel := by
  induction fuel with
  | zero =>
    refine ⟨fun _ _ _ h ↦ ?_, fun _ _ _ h ↦ ?_, fun _ _ _ h ↦ ?_⟩
    · simp [value] at h
    · simp [elements] at h
    · simp [members] at h
  | succ fuel ih =>
    exact ⟨fun _ _ _ ↦ ih.value_succ, fun _ _ _ ↦ ih.elements_succ, fun _ _ _ ↦ ih.members_succ⟩

/-- An accepted text is well formed. -/
theorem parse_sound {text : List Char} {v : Value} (h : parse text = some v) : IsText text v := by
  unfold parse at h
  split at h
  · next rest hvalue =>
    split_ifs at h with hrest
    obtain rfl := Option.some.inj h
    obtain ⟨body, hbody, hdenotes⟩ := (sound _).value _ _ _ hvalue
    obtain ⟨w, hw, hblank⟩ := exists_blank text
    exact ⟨w, body, rest, by rw [hw, hbody, List.append_assoc], hblank,
      List.all_eq_true.mp hrest, hdenotes⟩
  · cases h

/-! ### Integers -/

/-- The decimal text of an integer. -/
def integerText : ℤ → List Char
  | .ofNat n => Nat.toDigits 10 n
  | .negSucc n => '-' :: Nat.toDigits 10 (n + 1)

/-- The integer that a number without fraction and exponent denotes. -/
def integer : List Char → Option ℤ
  | '-' :: digits => if digits.all Char.isDigit then some (-Nat.ofDigitChars 10 digits 0) else none
  | digits => if digits.all Char.isDigit then some (Nat.ofDigitChars 10 digits 0) else none

/-- A positive number is printed without a leading zero. -/
theorem head?_toDigits {n : ℕ} (hn : 0 < n) : (Nat.toDigits 10 n).head? ≠ some '0' := by
  induction n using Nat.strong_induction_on with
  | _ n ih =>
    by_cases hlt : n < 10
    · rw [Nat.toDigits_of_lt_base hlt]
      interval_cases n <;> decide
    · have hhead : (Nat.toDigits 10 n).head? = (Nat.toDigits 10 (n / 10)).head? := by
        rw [Nat.toDigits_of_base_le (by decide) (by omega)]
        exact List.head?_append_of_ne_nil _ Nat.toDigits_ne_nil
      rw [hhead]
      exact ih (n / 10) (by omega) (by omega)

theorem isDigit_of_mem_toDigits {n : ℕ} {c : Char} (hc : c ∈ Nat.toDigits 10 n) :
    c.isDigit = true := Nat.isDigit_of_mem_toDigits (by decide) (by decide) hc

theorem head?_toDigits_ne_minus (n : ℕ) : (Nat.toDigits 10 n).head? ≠ some '-' := fun hhead ↦ by
  simpa [Char.isDigit] using isDigit_of_mem_toDigits (List.mem_of_mem_head? hhead)

theorem isNumber_of_ne_minus {text : List Char} (h : text.head? ≠ some '-') :
    isNumber text = isUnsigned text := by
  unfold isNumber
  split
  · simp at h
  · rfl

theorem isUnsigned_toDigits (n : ℕ) : isUnsigned (Nat.toDigits 10 n) = true := by
  have hdigits : ∀ c ∈ Nat.toDigits 10 n, c.isDigit = true := fun _ ↦ isDigit_of_mem_toDigits
  have htake : (Nat.toDigits 10 n).takeWhile Char.isDigit = Nat.toDigits 10 n :=
    List.takeWhile_eq_self_iff.mpr hdigits
  have hdrop : (Nat.toDigits 10 n).dropWhile Char.isDigit = [] :=
    List.dropWhile_eq_nil_iff.mpr hdigits
  simp only [isUnsigned, htake, hdrop, isFraction, isExponentPart,
    Bool.and_true]
  rcases Nat.eq_zero_or_pos n with rfl | hn
  · rfl
  · simp [head?_toDigits hn, Nat.toDigits_ne_nil]

theorem isNumber_integerText (z : ℤ) : isNumber (integerText z) = true := by
  cases z with
  | ofNat n =>
    rw [integerText, isNumber_of_ne_minus (head?_toDigits_ne_minus n), isUnsigned_toDigits]
  | negSucc n => exact isUnsigned_toDigits (n + 1)

theorem isNumberChar_of_mem_integerText {z : ℤ} {c : Char} (hc : c ∈ integerText z) :
    isNumberChar c = true := by
  have hdigit : ∀ n, c ∈ Nat.toDigits 10 n → isNumberChar c = true := fun n hn ↦ by
    simp [isNumberChar, isDigit_of_mem_toDigits hn]
  cases z with
  | ofNat n => exact hdigit n hc
  | negSucc n =>
    rcases List.mem_cons.mp hc with rfl | hc
    · rfl
    · exact hdigit (n + 1) hc

theorem integer_integerText (z : ℤ) : integer (integerText z) = some z := by
  have hall : ∀ n, (Nat.toDigits 10 n).all Char.isDigit = true := fun n ↦
    List.all_eq_true.mpr fun _ ↦ isDigit_of_mem_toDigits
  cases z with
  | ofNat n =>
    have hminus := head?_toDigits_ne_minus n
    unfold integer integerText
    split
    · next heq => simp [heq] at hminus
    · rw [if_pos (hall n), Nat.ofDigitChars_ten_toDigits]
      rfl
  | negSucc n =>
    rw [integerText, integer, if_pos (hall (n + 1)), Nat.ofDigitChars_ten_toDigits]
    rfl

theorem integerText_injective : Function.Injective integerText := by
  intro z z' heq
  have hread := integer_integerText z
  rw [heq, integer_integerText] at hread
  exact (Option.some.inj hread).symm

/-! ### The parser on a printed text -/

/-- An object that is not empty. -/
theorem value_object {input : List Char} (fuel : ℕ) (h : (skipBlank input).head? ≠ some '}') :
    value (fuel + 1) ('{' :: input) = (members fuel input).map fun r ↦ (.object r.1, r.2) := by
  simp only [value]
  split
  · next heq => simp [heq] at h
  · rfl

/-- An array that is not empty. -/
theorem value_array {input : List Char} (fuel : ℕ) (h : (skipBlank input).head? ≠ some ']') :
    value (fuel + 1) ('[' :: input) = (elements fuel input).map fun r ↦ (.array r.1, r.2) := by
  simp only [value]
  split
  · next heq => simp [heq] at h
  · rfl

theorem value_of_isNumberChar {c : Char} {input : List Char} (fuel : ℕ)
    (hc : (c.isDigit || c = '-') = true) :
    value (fuel + 1) (c :: input) = number (c :: input) := by
  unfold value
  split
  all_goals first
    | rfl
    | (next heq => obtain ⟨rfl, -⟩ := List.cons.inj heq; simp [Char.isDigit] at hc)

theorem skipBlank_cons {c : Char} {input : List Char} (hc : isBlank c = false) :
    skipBlank (c :: input) = c :: input := by simp [skipBlank, hc]

theorem skipBlank_space (input : List Char) : skipBlank (' ' :: input) = skipBlank input := by
  simp [skipBlank, isBlank]

theorem stringText_append {text rest : List Char} (h : text.all isPlain = true) :
    stringText (text ++ '"' :: rest) = some (text, rest) := by
  induction text with
  | nil => simp [stringText]
  | cons c text ih =>
    simp only [List.all_cons, Bool.and_eq_true] at h
    have hquote : c ≠ '"' := by rintro rfl; simp [isPlain] at h
    have hslash : c ≠ '\\' := by rintro rfl; simp [isPlain] at h
    rw [List.cons_append, stringText, if_pos h.1, ih h.2]
    · rfl
    · exact hquote
    · rintro a b c' d rest' rfl; exact absurd rfl hslash
    · intro c' rest' heq; exact absurd heq hslash

theorem number_append {text rest : List Char} (hnumber : isNumber text = true)
    (htext : ∀ c ∈ text, isNumberChar c = true)
    (hrest : ∀ c ∈ rest.head?, isNumberChar c = false) :
    number (text ++ rest) = some (.number text, rest) := by
  have htake : (text ++ rest).takeWhile isNumberChar = text := by
    rw [List.takeWhile_append_of_pos htext]
    cases rest with
    | nil => simp
    | cons c rest => simp [hrest c rfl]
  have hdrop : (text ++ rest).dropWhile isNumberChar = rest := by
    rw [List.dropWhile_append_of_pos htext]
    cases rest with
    | nil => simp
    | cons c rest => simp [hrest c rfl]
  simp only [number, htake, hdrop, if_pos hnumber]

theorem exists_integerText_cons (z : ℤ) :
    ∃ c text, integerText z = c :: text ∧ (c.isDigit || c = '-') = true := by
  cases z with
  | ofNat n =>
    have hne : Nat.toDigits 10 n ≠ [] := Nat.toDigits_ne_nil
    obtain ⟨c, digits, hdigits⟩ := List.exists_cons_of_ne_nil hne
    have hc : c.isDigit = true := by
      apply isDigit_of_mem_toDigits (n := n)
      rw [hdigits]
      exact List.mem_cons_self
    exact ⟨c, digits, hdigits, by simp [hc]⟩
  | negSucc n => exact ⟨'-', _, rfl, by simp⟩

theorem skipBlank_integerText (z : ℤ) (rest : List Char) :
    skipBlank (integerText z ++ rest) = integerText z ++ rest := by
  obtain ⟨c, text, htext, hc⟩ := exists_integerText_cons z
  rw [htext]
  refine skipBlank_cons (Bool.eq_false_iff.mpr fun hblank ↦ ?_)
  simp only [isBlank, Bool.or_eq_true, decide_eq_true_eq] at hblank
  rcases hblank with ((rfl | rfl) | rfl) | rfl <;> simp [Char.isDigit] at hc

/-- An integer up to a character that no number contains. -/
theorem value_integerText {z : ℤ} {rest : List Char} (fuel : ℕ)
    (hrest : ∀ c ∈ rest.head?, isNumberChar c = false) :
    value (fuel + 1) (integerText z ++ rest) = some (.number (integerText z), rest) := by
  obtain ⟨c, text, htext, hc⟩ := exists_integerText_cons z
  rw [← number_append (isNumber_integerText z) (fun _ ↦ isNumberChar_of_mem_integerText) hrest,
    htext]
  exact value_of_isNumberChar fuel hc

section Entries

variable {input key after rest more : List Char} {v : Value} {fuel : ℕ}

/-- A member of an object, with the comma behind it. -/
theorem members_cons (hinput : skipBlank input = '"' :: (key ++ '"' :: ':' :: after))
    (hkey : key.all isPlain = true) (hvalue : value fuel (skipBlank after) = some (v, rest))
    (hrest : skipBlank rest = ',' :: more) :
    members (fuel + 1) input = (members fuel more).map fun r ↦ ((key, v) :: r.1, r.2) := by
  have hcolon : skipBlank (':' :: after) = ':' :: after := skipBlank_cons (by decide)
  simp only [members, hinput, stringText_append hkey, hcolon, hvalue, hrest, bind, Option.bind]

/-- The last member of an object. -/
theorem members_single (hinput : skipBlank input = '"' :: (key ++ '"' :: ':' :: after))
    (hkey : key.all isPlain = true) (hvalue : value fuel (skipBlank after) = some (v, rest))
    (hrest : skipBlank rest = '}' :: more) :
    members (fuel + 1) input = some ([(key, v)], more) := by
  have hcolon : skipBlank (':' :: after) = ':' :: after := skipBlank_cons (by decide)
  simp only [members, hinput, stringText_append hkey, hcolon, hvalue, hrest, bind, Option.bind]

end Entries

/-- A text that the parser consumes as a whole. -/
theorem parse_of_value {text : List Char} {v : Value}
    (h : value text.length (skipBlank text) = some (v, [])) : parse text = some v := by
  simp [parse, h]

end WsServer.Foundations.Json
