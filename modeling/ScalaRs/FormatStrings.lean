import Mathlib.Data.Nat.Basic
import Mathlib.Data.List.Basic
import Mathlib.Data.List.TakeWhile
import Mathlib.Tactic.IntervalCases

/-! # Format strings

The format strings of `java.util.Formatter`: text with specifiers
`%[argument_index$][flags][width][.precision]conversion`. A specifier is read greedily from the
left, and `%%` and `%n` are specifiers that stand for text. -/
namespace FormatStrings

structure Specifier where
  index : Option ℕ
  flags : List Char
  width : Option ℕ
  precision : Option ℕ
  /-- The `t` or `T` of a date or time conversion. -/
  dateTime : Option Char
  conversion : Char
deriving DecidableEq

def number (digits : List Char) : ℕ := Nat.ofDigitChars 10 digits 0

def isFlag (c : Char) : Bool := c ∈ ['-', '#', '+', ' ', '0', ',', '(', '<']

def isConversion (c : Char) : Bool :=
  c ∈ ['b', 'B', 'h', 'H', 's', 'S', 'c', 'C', 'd', 'o', 'x', 'X', 'e', 'E', 'f', 'g', 'G', 'a',
    'A', '%', 'n']

def isDateConversion (c : Char) : Bool :=
  c ∈ ['H', 'I', 'k', 'l', 'M', 'S', 'L', 'N', 'p', 'z', 'Z', 's', 'Q', 'B', 'b', 'h', 'A', 'a',
    'C', 'Y', 'y', 'j', 'm', 'd', 'e', 'R', 'T', 'r', 'D', 'F', 'c']

def isValid (dateTime : Option Char) (c : Char) : Bool :=
  if dateTime.isSome then isDateConversion c else isConversion c

/-- A specifier for text takes no argument. -/
def Specifier.consumes (f : Specifier) : Bool :=
  f.dateTime.isSome || !(f.conversion == '%' || f.conversion == 'n')

/-! ## Reading one specifier -/

def readNumber (s : List Char) : Option ℕ × List Char :=
  if s.takeWhile Char.isDigit = [] then (none, s)
  else (some (number (s.takeWhile Char.isDigit)), s.dropWhile Char.isDigit)

def readIndex (s : List Char) : Option ℕ × List Char :=
  match readNumber s with
  | (some n, '$' :: rest) => (some n, rest)
  | _ => (none, s)

def readPrecision (s : List Char) : Option ℕ × List Char :=
  match s with
  | '.' :: t =>
      match readNumber t with
      | (some n, rest) => (some n, rest)
      | (none, _) => (none, s)
  | _ => (none, s)

def readDateTime (s : List Char) : Option Char × List Char :=
  match s with
  | c :: rest => if c = 't' ∨ c = 'T' then (some c, rest) else (none, s)
  | [] => (none, s)

/-- The specifier after a `%`, if there is one, and the text after it. -/
def readSpecifier (s : List Char) : Option (Specifier × List Char) :=
  let (index, s) := readIndex s
  let flags := s.takeWhile isFlag
  let (width, s) := readNumber (s.dropWhile isFlag)
  let (precision, s) := readPrecision s
  let (dateTime, s) := readDateTime s
  match s with
  | c :: rest =>
      if isValid dateTime c then
        some (⟨index, flags, width, precision, dateTime, c⟩, rest)
      else none
  | [] => none

section
-- Derives the equations of these definitions in front of the proofs that use them.
attribute [local simp] readNumber readIndex readPrecision readDateTime readSpecifier
end

theorem readNumber_length (s : List Char) : (readNumber s).2.length ≤ s.length := by
  unfold readNumber
  split
  · exact le_rfl
  · exact (List.dropWhile_suffix _).length_le

theorem readIndex_length (s : List Char) : (readIndex s).2.length ≤ s.length := by
  have h := readNumber_length s
  unfold readIndex
  split
  · rename_i n rest heq
    rw [heq] at h
    exact Nat.le_trans (Nat.le_succ _) h
  · exact le_rfl

theorem readPrecision_length (s : List Char) : (readPrecision s).2.length ≤ s.length := by
  unfold readPrecision
  split
  · rename_i t
    have h := readNumber_length t
    split
    · rename_i n rest heq
      rw [heq] at h
      exact Nat.le_trans h (Nat.le_succ _)
    · exact le_rfl
  · exact le_rfl

theorem readDateTime_length (s : List Char) : (readDateTime s).2.length ≤ s.length := by
  unfold readDateTime
  split
  · split
    · exact Nat.le_succ _
    · exact le_rfl
  · exact le_rfl

theorem readSpecifier_length {s rest : List Char} {f : Specifier}
    (h : readSpecifier s = some (f, rest)) : rest.length < s.length := by
  have hindex := readIndex_length s
  have hflags := (List.dropWhile_suffix isFlag (l := (readIndex s).2)).length_le
  have hwidth := readNumber_length ((readIndex s).2.dropWhile isFlag)
  have hprecision := readPrecision_length (readNumber ((readIndex s).2.dropWhile isFlag)).2
  have hdate := readDateTime_length
    (readPrecision (readNumber ((readIndex s).2.dropWhile isFlag)).2).2
  simp only [readSpecifier] at h
  split at h
  · rename_i c rest' heq
    rw [heq, List.length_cons] at hdate
    split at h
    · simp only [Option.some.injEq, Prod.mk.injEq] at h
      rw [← h.2]
      omega
    · simp at h
  · simp at h

/-! ## Writing one specifier -/

theorem takeWhile_append_cons {p : Char → Bool} {xs : List Char} {c : Char}
    (hxs : ∀ x ∈ xs, p x = true) (hc : p c = false) (s : List Char) :
    (xs ++ c :: s).takeWhile p = xs := by
  rw [List.takeWhile_append_of_pos hxs]
  simp [hc]

theorem dropWhile_append_cons {p : Char → Bool} {xs : List Char} {c : Char}
    (hxs : ∀ x ∈ xs, p x = true) (hc : p c = false) (s : List Char) :
    (xs ++ c :: s).dropWhile p = c :: s := by
  rw [List.dropWhile_append_of_pos hxs]
  simp [hc]

def Specifier.widthText (f : Specifier) : List Char :=
  match f.width with
  | some w => Nat.toDigits 10 w
  | none => []

def Specifier.precisionText (f : Specifier) : List Char :=
  match f.precision with
  | some p => '.' :: Nat.toDigits 10 p
  | none => []

/-- The text of a specifier after its `%`. -/
def Specifier.body (f : Specifier) : List Char :=
  f.flags ++ f.widthText ++ f.precisionText ++ [f.conversion]

/-- What a reader takes for a specifier that it finds without argument index. -/
structure Specifier.Plain (f : Specifier) : Prop where
  index : f.index = none
  dateTime : f.dateTime = none
  flags : ∀ c ∈ f.flags, isFlag c = true
  width : f.width ≠ some 0
  conversion : isConversion f.conversion = true

section
-- Derives the equations of these definitions in front of the proofs that use them.
attribute [local simp] isConversion isFlag isDateConversion isValid Specifier.consumes Specifier.widthText Specifier.precisionText Specifier.body
end

theorem toDigits_ne_zero {n : ℕ} (hn : n ≠ 0) :
    ∃ c cs, Nat.toDigits 10 n = c :: cs ∧ c.isDigit = true ∧ c ≠ '0' := by
  induction n using Nat.strong_induction_on with
  | _ n ih =>
      rw [Nat.toDigits_eq_if (by omega)]
      split
      · rename_i hlt
        refine ⟨_, [], rfl, ?_, ?_⟩ <;> interval_cases n <;> first | decide | contradiction
      · obtain ⟨c, cs, heq, hdigit, hzero⟩ := ih (n / 10) (by omega) (by omega)
        exact ⟨c, cs ++ [(n % 10).digitChar], by rw [heq]; rfl, hdigit, hzero⟩

theorem isDigit_of_mem_toDigits {n : ℕ} {c : Char} (hc : c ∈ Nat.toDigits 10 n) :
    c.isDigit = true := Nat.isDigit_of_mem_toDigits (by omega) (by omega) hc

theorem readNumber_of_not_isDigit {c : Char} (hc : c.isDigit = false) (s : List Char) :
    readNumber (c :: s) = (none, c :: s) := by
  simp [readNumber, hc]

theorem readNumber_toDigits (n : ℕ) {c : Char} (hc : c.isDigit = false) (s : List Char) :
    readNumber (Nat.toDigits 10 n ++ c :: s) = (some n, c :: s) := by
  have hdigits : ∀ d ∈ Nat.toDigits 10 n, d.isDigit = true := fun _ => isDigit_of_mem_toDigits
  rw [readNumber, takeWhile_append_cons hdigits hc, dropWhile_append_cons hdigits hc,
    if_neg Nat.toDigits_ne_nil, number, Nat.ofDigitChars_ten_toDigits]

/-- A conversion is none of the characters before it. -/
theorem not_of_isConversion {c : Char} (h : isConversion c = true) :
    c.isDigit = false ∧ isFlag c = false ∧ c ≠ '.' ∧ c ≠ '$' ∧ c ≠ 't' ∧ c ≠ 'T' := by
  simp only [isConversion, List.mem_cons, List.not_mem_nil, or_false, decide_eq_true_eq] at h
  rcases h with rfl | rfl | rfl | rfl | rfl | rfl | rfl | rfl | rfl | rfl | rfl | rfl | rfl |
    rfl | rfl | rfl | rfl | rfl | rfl | rfl | rfl <;> decide

theorem isFlag_of_digit {c : Char} (hdigit : c.isDigit = true) (hzero : c ≠ '0') :
    isFlag c = false := by
  rw [← Bool.not_eq_true]
  intro h
  simp only [isFlag, List.mem_cons, List.not_mem_nil, or_false, decide_eq_true_eq] at h
  rcases h with rfl | rfl | rfl | rfl | rfl | rfl | rfl | rfl <;>
    first | exact hzero rfl | exact absurd hdigit (by decide)

section
variable {f : Specifier} (hf : f.Plain) (rest : List Char)
include hf

theorem not_dollar_of_mem_body {c : Char} (hc : c ∈ f.body) : c ≠ '$' := by
  rintro rfl
  simp only [Specifier.body, List.mem_append, List.mem_singleton] at hc
  rcases hc with ((hc | hc) | hc) | hc
  · exact absurd (hf.flags _ hc) (by decide)
  · unfold Specifier.widthText at hc
    split at hc
    · exact absurd (isDigit_of_mem_toDigits hc) (by decide)
    · simp at hc
  · unfold Specifier.precisionText at hc
    split at hc
    · rcases List.mem_cons.1 hc with hc | hc
      · exact absurd hc (by decide)
      · exact absurd (isDigit_of_mem_toDigits hc) (by decide)
    · simp at hc
  · exact (not_of_isConversion hf.conversion).2.2.2.1 hc.symm

/-- No index is found, since no `$` stands before the conversion. -/
theorem readIndex_body : readIndex (f.body ++ rest) = (none, f.body ++ rest) := by
  have hstop : ∃ c s, f.body.dropWhile Char.isDigit = c :: s ∧ c ∈ f.body := by
    have hne : f.body.dropWhile Char.isDigit ≠ [] := by
      intro h
      have hall := List.dropWhile_eq_nil_iff.1 h f.conversion (by simp [Specifier.body])
      simp [(not_of_isConversion hf.conversion).1] at hall
    obtain ⟨c, s, heq⟩ := List.exists_cons_of_ne_nil hne
    exact ⟨c, s, heq, (List.dropWhile_suffix _).subset (heq ▸ List.mem_cons_self)⟩
  obtain ⟨c, s, heq, hmem⟩ := hstop
  have hdrop : (f.body ++ rest).dropWhile Char.isDigit = c :: (s ++ rest) := by
    rw [List.dropWhile_append, heq]
    rfl
  have hdollar := not_dollar_of_mem_body hf hmem
  unfold readIndex readNumber
  split
  · rename_i n t hnumber
    split at hnumber
    · simp at hnumber
    · simp only [Prod.mk.injEq, hdrop, List.cons.injEq] at hnumber
      exact absurd hnumber.2.1 hdollar
  · rfl

theorem readPrecision_text : readPrecision (f.precisionText ++ f.conversion :: rest) =
    (f.precision, f.conversion :: rest) := by
  obtain ⟨hdigit, -, hdot, -⟩ := not_of_isConversion hf.conversion
  cases hp : f.precision with
  | none =>
      simp only [Specifier.precisionText, hp, List.nil_append]
      unfold readPrecision
      split
      · rename_i t heq
        exact absurd (List.cons.inj heq).1 hdot
      · rfl
  | some p =>
      simp [Specifier.precisionText, hp, readPrecision, readNumber_toDigits p hdigit]

/-- What follows the width starts with no digit and no flag. -/
theorem precisionText_cons : ∃ c s, f.precisionText ++ f.conversion :: rest = c :: s ∧
    c.isDigit = false ∧ isFlag c = false := by
  obtain ⟨hdigit, hflag, -⟩ := not_of_isConversion hf.conversion
  cases hp : f.precision with
  | none => exact ⟨_, rest, by simp [Specifier.precisionText, hp], hdigit, hflag⟩
  | some p => exact ⟨'.', Nat.toDigits 10 p ++ f.conversion :: rest,
      by simp [Specifier.precisionText, hp], by decide, by decide⟩

theorem readNumber_text : readNumber (f.widthText ++ (f.precisionText ++ f.conversion :: rest)) =
    (f.width, f.precisionText ++ f.conversion :: rest) := by
  obtain ⟨c, s, heq, hdigit, -⟩ := precisionText_cons hf rest
  rw [heq]
  cases hw : f.width with
  | none => simp [Specifier.widthText, hw, readNumber_of_not_isDigit hdigit]
  | some w => simp [Specifier.widthText, hw, readNumber_toDigits w hdigit]

/-- What follows the flags starts with no flag: a width has no leading zero. -/
theorem widthText_cons : ∃ c s,
    f.widthText ++ (f.precisionText ++ f.conversion :: rest) = c :: s ∧ isFlag c = false := by
  cases hw : f.width with
  | none =>
      obtain ⟨c, s, heq, -, hflag⟩ := precisionText_cons hf rest
      exact ⟨c, s, by simpa [Specifier.widthText, hw] using heq, hflag⟩
  | some w =>
      obtain ⟨c, cs, heq, hdigit, hzero⟩ := toDigits_ne_zero fun h : w = 0 =>
        hf.width (h ▸ hw)
      exact ⟨c, cs ++ (f.precisionText ++ f.conversion :: rest),
        by simp only [Specifier.widthText, hw, heq, List.cons_append],
        isFlag_of_digit hdigit hzero⟩

/-- A specifier that is written is read back. -/
theorem readSpecifier_body : readSpecifier (f.body ++ rest) = some (f, rest) := by
  obtain ⟨-, -, -, -, ht, hT⟩ := not_of_isConversion hf.conversion
  have hdate : readDateTime (f.conversion :: rest) = (none, f.conversion :: rest) := by
    simp [readDateTime, ht, hT]
  obtain ⟨c, s, heq, hflag⟩ := widthText_cons hf rest
  have hbody : f.body ++ rest =
      f.flags ++ (f.widthText ++ (f.precisionText ++ f.conversion :: rest)) := by
    simp [Specifier.body]
  have htake : (f.body ++ rest).takeWhile isFlag = f.flags := by
    rw [hbody, heq, takeWhile_append_cons hf.flags hflag]
  have hdrop : (f.body ++ rest).dropWhile isFlag =
      f.widthText ++ (f.precisionText ++ f.conversion :: rest) := by
    rw [hbody, heq, dropWhile_append_cons hf.flags hflag]
  simp only [readSpecifier, readIndex_body hf rest, htake, hdrop, readNumber_text hf rest,
    readPrecision_text hf rest, hdate, isValid, hf.conversion, Option.isSome_none,
    Bool.false_eq_true, if_false, if_true]
  rw [← hf.index, ← hf.dateTime]

end

/-! ## Reading a format string -/

/-- The text before the first specifier that takes an argument, and each of these with the text
after it. -/
abbrev Layout := List Char × List (Specifier × List Char)

def Layout.text (t : List Char) (l : Layout) : Layout := (t ++ l.1, l.2)

def Layout.hole (f : Specifier) (l : Layout) : Layout := ([], (f, l.1) :: l.2)

def parse : List Char → Option Layout
  | [] => some ([], [])
  | c :: s =>
      if c = '%' then
        match _h : readSpecifier s with
        | some (f, rest) =>
            if f.consumes then (parse rest).map (Layout.hole f)
            else (parse rest).map (Layout.text ('%' :: s.take (s.length - rest.length)))
        | none => none
      else (parse s).map (Layout.text [c])
termination_by s => s.length
decreasing_by
  · exact Nat.lt_trans (readSpecifier_length _h) (Nat.lt_succ_self _)
  · exact Nat.lt_trans (readSpecifier_length _h) (Nat.lt_succ_self _)
  · exact Nat.lt_succ_self _

theorem parse_nil : parse [] = some ([], []) := by rw [parse]

theorem parse_plain {c : Char} (hc : c ≠ '%') (s : List Char) :
    parse (c :: s) = (parse s).map (Layout.text [c]) := by
  rw [parse, if_neg hc]

theorem parse_hole {s rest : List Char} {f : Specifier} (h : readSpecifier s = some (f, rest))
    (hf : f.consumes = true) : parse ('%' :: s) = (parse rest).map (Layout.hole f) := by
  rw [parse, if_pos rfl]
  split
  · rename_i g rest' heq
    rw [h] at heq
    simp only [Option.some.injEq, Prod.mk.injEq] at heq
    obtain ⟨rfl, rfl⟩ := heq
    rw [if_pos hf]
  · rename_i heq
    simp [h] at heq

theorem parse_escape {s rest : List Char} {f : Specifier} (h : readSpecifier s = some (f, rest))
    (hf : f.consumes = false) : parse ('%' :: s) =
      (parse rest).map (Layout.text ('%' :: s.take (s.length - rest.length))) := by
  rw [parse, if_pos rfl]
  split
  · rename_i g rest' heq
    rw [h] at heq
    simp only [Option.some.injEq, Prod.mk.injEq] at heq
    obtain ⟨rfl, rfl⟩ := heq
    rw [if_neg (by simp [hf])]
  · rename_i heq
    simp [h] at heq

theorem parse_of_readSpecifier_eq_none {s : List Char} (h : readSpecifier s = none) :
    parse ('%' :: s) = none := by
  rw [parse, if_pos rfl]
  split
  · rename_i heq
    simp [h] at heq
  · rfl

end FormatStrings
