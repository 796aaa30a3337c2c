import ScalaRs.LexerSpans
import ScalaRs.PatternParser

/-! # Integer literals

What the lexer and the parser make of an integer literal where an expression or a pattern is
expected, and after a unary minus. -/
namespace ScalaRs.Parsing
open Lexing

/-- The digits of a literal: of the radix, with underscores between them. -/
def isRadixDigit (hex : Bool) (c : Char) : Bool := if hex then isAsciiHexdigit c else isAsciiDigit c

structure IntegerText where
  /-- The `x` or `X` of a hexadecimal literal. -/
  marker : Option Char
  first : Char
  more : List Char
  /-- The `l` or `L` of a `Long` literal. -/
  suffix : Option Char
  markers : ∀ c, marker = some c → c = 'x' ∨ c = 'X'
  firstDigit : isRadixDigit marker.isSome first = true
  moreDigits : ∀ c ∈ more, isRadixDigit marker.isSome c = true ∨ c = '_'
  suffixes : ∀ c, suffix = some c → c = 'l' ∨ c = 'L'

namespace IntegerText
variable (n : IntegerText)

def digits : List Char := n.first :: n.more

def chars : List Char :=
  (match n.marker with
    | some x => ['0', x]
    | none => []) ++ n.digits ++ n.suffix.toList

def radix : ℕ := if n.marker.isSome then 16 else 10

def magnitude : ℕ :=
  (n.digits.filter (· ≠ '_')).foldl (fun value c => n.radix * value + hexValue c) 0

def width : ℕ := if n.suffix.isSome then 64 else 32

/-- The token with a value of the literal's type. -/
def token (value : ℕ) : TokenKind :=
  if n.suffix.isSome then .longLit (BitVec.ofNat 64 value) else .intLit (BitVec.ofNat 32 value)

/-- The literal of its type with a value, in two's complement. -/
def lit (value : ℤ) : Lit :=
  if n.suffix.isSome then .long (BitVec.ofInt 64 value) else .int (BitVec.ofInt 32 value)

/-- A decimal literal without a suffix ends before this text. -/
def Ends (after : List Char) : Prop :=
  (∀ c, after.head? = some c → isAsciiAlphabetic c = false ∧ isAsciiDigit c = false ∧ c ≠ '_') ∧
    ∀ cs c, after = '.' :: c :: cs → isAsciiDigit c = false

/-- The state of the lexer after the literal. -/
def lexed (s : Lexer) : Lexer :=
  let after := s.skip n.chars.length
  let lo := asU32 s.pos
  if n.marker.isSome then
    if n.magnitude < 2 ^ n.width then after.emitFrom lo (n.token n.magnitude)
    else after.errorFrom lo "hex literal out of range"
  else if n.magnitude ≤ 2 ^ (n.width - 1) then after.emitFrom lo (n.token n.magnitude)
  else (after.errorFrom lo "integer number too large").emitFrom lo (n.token 0)

end IntegerText

/-! ## Lexing -/

theorem isAsciiDigit_iff {c : Char} : isAsciiDigit c = true ↔ '0' ≤ c ∧ c ≤ '9' := by
  simp [isAsciiDigit]

theorem isAsciiDigit_false {c : Char} (h : isAsciiHexdigit c = false) : isAsciiDigit c = false := by
  unfold isAsciiHexdigit at h
  rw [Bool.or_eq_false_iff, Bool.or_eq_false_iff] at h
  exact h.1.1

theorem takeWhile_run {p : Char → Bool} {cs ds : List Char} (hcs : ∀ c ∈ cs, p c = true)
    (hds : ∀ d, ds.head? = some d → p d = false) : (cs ++ ds).takeWhile p = cs := by
  rw [List.takeWhile_append_of_pos hcs]
  cases ds with
  | nil => rw [List.takeWhile_nil, List.append_nil]
  | cons d ds =>
    rw [List.takeWhile_cons, if_neg (by simp [hds d rfl]), List.append_nil]

theorem skipWhile_run {s : Lexer} {p : Char → Bool} {cs ds : List Char} (hrest : s.rest = cs ++ ds)
    (hcs : ∀ c ∈ cs, p c = true) (hds : ∀ d, ds.head? = some d → p d = false) :
    s.skipWhile p = s.skip cs.length := by
  rw [Lexer.skipWhile, hrest, takeWhile_run hcs hds]

theorem parseU64_digits {radix : ℕ} {cs : List Char}
    (hcs : ∀ c ∈ cs, isRadixDigit (radix = 16) c = true) (hne : cs ≠ []) :
    parseU64 radix cs =
      let value := cs.foldl (fun value c => radix * value + hexValue c) 0
      if value < 2 ^ 64 then some value else none := by
  have hall : cs.all (if radix = 16 then isAsciiHexdigit else isAsciiDigit) = true := by
    rw [List.all_eq_true]
    intro c hc
    have hdigit := hcs c hc
    unfold isRadixDigit at hdigit
    split
    · simpa [*] using hdigit
    · simpa [*] using hdigit
  unfold parseU64
  dsimp only
  by_cases hvalue : cs.foldl (fun value c => radix * value + hexValue c) 0 < 2 ^ 64
  · rw [if_pos ⟨hne, hall, hvalue⟩, if_pos hvalue]
  · rw [if_neg fun h => hvalue h.2.2, if_neg hvalue]

namespace IntegerText
variable (n : IntegerText)

theorem digits_filter : ∀ c ∈ n.digits.filter (· ≠ '_'), isRadixDigit (n.radix = 16) c = true := by
  have hradix : decide (n.radix = 16) = n.marker.isSome := by
    unfold radix
    cases n.marker <;> rfl
  rw [hradix]
  intro c hc
  obtain ⟨hmem, hne⟩ := List.mem_filter.mp hc
  rcases List.mem_cons.mp hmem with rfl | hmem
  · exact n.firstDigit
  · rcases n.moreDigits c hmem with h | h
    · exact h
    · exact absurd h (by simpa using hne)

theorem first_ne_underscore : n.first ≠ '_' := by
  intro h
  have hdigit := n.firstDigit
  rw [h] at hdigit
  cases hm : n.marker.isSome <;> rw [hm] at hdigit <;> cases hdigit

theorem digits_filter_ne_nil : n.digits.filter (· ≠ '_') ≠ [] := by
  rw [digits, List.filter_cons_of_pos (by simpa using n.first_ne_underscore)]
  exact List.cons_ne_nil _ _

theorem parseU64_digits : parseU64 n.radix (n.digits.filter (· ≠ '_')) =
    if n.magnitude < 2 ^ 64 then some n.magnitude else none :=
  Parsing.parseU64_digits n.digits_filter n.digits_filter_ne_nil

variable {n}

/-- What follows the digits does not go on with them. -/
theorem tail_ends {after : List Char} (hends : n.suffix = none → Ends after) :
    (∀ c, (n.suffix.toList ++ after).head? = some c →
      isAsciiHexdigit c = false ∧ c ≠ '_' ∧ c ≠ 'x' ∧ c ≠ 'X') ∧
    ∀ cs c, n.suffix.toList ++ after = '.' :: c :: cs → isAsciiDigit c = false := by
  cases hsuffix : n.suffix with
  | some l =>
    have hl := n.suffixes l hsuffix
    constructor
    · intro c hc
      obtain rfl : l = c := Option.some.inj hc
      rcases hl with rfl | rfl <;> decide
    · intro cs c hcs
      obtain ⟨rfl, -⟩ := List.cons_eq_cons.mp hcs
      rcases hl with hl | hl <;> exact absurd hl (by decide)
  | none =>
    obtain ⟨hhead, hpoint⟩ := hends hsuffix
    refine ⟨fun c hc => ?_, hpoint⟩
    obtain ⟨halpha, hdigit, hne⟩ := hhead c hc
    have hletter : ∀ d, isAsciiAlphabetic d = true → c ≠ d := by
      intro d hd heq
      rw [heq, hd] at halpha
      cases halpha
    refine ⟨?_, hne, hletter _ rfl, hletter _ rfl⟩
    -- the hexadecimal digits that are no digits are letters
    unfold isAsciiHexdigit
    unfold isAsciiAlphabetic at halpha
    simp only [Bool.or_eq_false_iff, Bool.and_eq_false_iff, decide_eq_false_iff_not] at halpha
    simp only [hdigit, Bool.false_or, Bool.or_eq_false_iff, Bool.and_eq_false_iff,
      decide_eq_false_iff_not]
    have hf : 'f' ≤ 'z' := by decide
    have hF : 'F' ≤ 'Z' := by decide
    exact ⟨halpha.1.imp_right fun h hle => h (Char.le_trans hle hf),
      halpha.2.imp_right fun h hle => h (Char.le_trans hle hF)⟩

theorem eatNumSuffix_ends {s : Lexer} {after : List Char}
    (hrest : s.rest = n.suffix.toList ++ after) (hends : n.suffix = none → Ends after) :
    s.eatNumSuffix = (if n.suffix.isSome then .long else .none, s.skip n.suffix.toList.length) := by
  cases hsuffix : n.suffix with
  | some l =>
    rw [hsuffix] at hrest
    have hpeek : s.peek = some l := Lexer.peek_of_rest hrest
    unfold Lexer.eatNumSuffix
    rw [hpeek]
    rcases n.suffixes l hsuffix with rfl | rfl <;> rfl
  | none =>
    rw [hsuffix] at hrest
    obtain ⟨hhead, -⟩ := hends hsuffix
    unfold Lexer.eatNumSuffix
    cases hpeek : s.peek with
    | none => rfl
    | some c =>
      have hafter : after.head? = some c := by
        rw [← hpeek, Lexer.peek, hrest]
        rfl
      have halpha := (hhead c hafter).1
      split
      all_goals first
        | rfl
        | (rename_i heq
           rw [Option.some.inj heq] at halpha
           cases halpha)

/-! ### Decimal literals -/

section
variable (hdecimal : n.marker = none)
include hdecimal

theorem chars_decimal : n.chars = n.digits ++ n.suffix.toList := by
  rw [chars, hdecimal]
  rfl

theorem digits_decimal : ∀ c ∈ n.digits, isAsciiDigit c = true ∨ c = '_' := by
  have hfirst := n.firstDigit
  have hmore := n.moreDigits
  rw [hdecimal] at hfirst hmore
  intro c hc
  rcases List.mem_cons.mp hc with rfl | hc
  · exact .inl hfirst
  · exact hmore c hc

theorem not_startsWith {after : List Char} (hends : n.suffix = none → Ends after) {x : Char}
    (hx : x = 'x' ∨ x = 'X') : ['0', x].isPrefixOf (n.chars ++ after) = false := by
  have htail := (tail_ends hends).1
  have hmore := n.moreDigits
  rw [hdecimal] at hmore
  have hsecond : ∀ c, (n.more ++ (n.suffix.toList ++ after)).head? = some c → c ≠ x := by
    intro c hc
    cases hm : n.more with
    | nil =>
      rw [hm, List.nil_append] at hc
      obtain ⟨-, -, hne, hne'⟩ := htail c hc
      rcases hx with rfl | rfl
      · exact hne
      · exact hne'
    | cons d ds =>
      rw [hm] at hc
      obtain rfl : d = c := Option.some.inj hc
      intro heq
      have hd := hmore d (hm ▸ List.mem_cons_self)
      rw [heq] at hd
      rcases hx with rfl | rfl <;> exact absurd hd (by decide)
  rw [chars_decimal hdecimal, List.append_assoc, digits, List.cons_append]
  cases hcs : n.more ++ (n.suffix.toList ++ after) with
  | nil => simp [List.isPrefixOf]
  | cons c cs =>
    rw [hcs] at hsecond
    have hne := hsecond c rfl
    simp [List.isPrefixOf, Ne.symm hne]

theorem body_decimal : ((n.chars.reverse.dropWhile isNumSuffix).reverse) = n.digits := by
  have hdigits : n.digits.reverse.dropWhile isNumSuffix = n.digits.reverse := by
    cases hrev : n.digits.reverse with
    | nil => rfl
    | cons c cs =>
      have hc : c ∈ n.digits := by
        rw [← List.mem_reverse, hrev]
        exact List.mem_cons_self
      rw [List.dropWhile_cons_of_neg]
      rcases digits_decimal hdecimal c hc with hd | rfl
      · obtain ⟨-, hle⟩ := isAsciiDigit_iff.mp hd
        intro hsuffix
        have hletter : c = 'l' ∨ c = 'L' ∨ c = 'f' ∨ c = 'F' ∨ c = 'd' ∨ c = 'D' := by
          simpa [isNumSuffix] using hsuffix
        rcases hletter with rfl | rfl | rfl | rfl | rfl | rfl <;> exact absurd hle (by decide)
      · decide
  rw [chars_decimal hdecimal, List.reverse_append]
  cases hsuffix : n.suffix with
  | none => rw [Option.toList_none, List.reverse_nil, List.nil_append, hdigits, List.reverse_reverse]
  | some l =>
    have hl : isNumSuffix l = true := by
      rcases n.suffixes l hsuffix with rfl | rfl <;> rfl
    rw [Option.toList_some, List.reverse_singleton, List.singleton_append,
      List.dropWhile_cons_of_pos hl, hdigits, List.reverse_reverse]

theorem emitNumber_decimal (s : Lexer) (lo : UInt32) :
    s.emitNumber (n.digits.filter (· ≠ '_')) (if n.suffix.isSome then .long else .none) lo =
      if n.magnitude ≤ 2 ^ (n.width - 1) then s.emitFrom lo (n.token n.magnitude)
      else (s.errorFrom lo "integer number too large").emitFrom lo (n.token 0) := by
  have hparse := n.parseU64_digits
  have hradix : n.radix = 10 := by
    rw [radix, hdecimal]
    rfl
  have hdigits : ∀ c ∈ n.digits.filter (· ≠ '_'), isAsciiDigit c = true := by
    intro c hc
    have hc' := n.digits_filter c hc
    rw [hradix] at hc'
    exact hc'
  have hplain : ∀ c, isAsciiDigit c = false → c ∉ n.digits.filter (· ≠ '_') := by
    intro c hfalse hc
    rw [hdigits c hc] at hfalse
    cases hfalse
  rw [hradix] at hparse
  unfold Lexer.emitNumber token width
  cases hsuffix : n.suffix.isSome with
  | true =>
    rw [if_pos rfl, if_pos rfl, if_pos rfl]
    dsimp only
    rw [hparse]
    by_cases hvalue : n.magnitude < 2 ^ 64
    · rw [if_pos hvalue]
      rfl
    · rw [if_neg hvalue, if_neg (by omega)]
      rfl
  | false =>
    rw [if_neg Bool.false_ne_true, if_neg Bool.false_ne_true, if_neg Bool.false_ne_true]
    dsimp only
    rw [hparse, if_neg (by simp only [not_or]; exact ⟨hplain _ rfl, hplain _ rfl, hplain _ rfl⟩)]
    by_cases hvalue : n.magnitude < 2 ^ 64
    · rw [if_pos hvalue]
      rfl
    · rw [if_neg hvalue, if_neg (by omega)]
      rfl

theorem lexNumber_decimal {s : Lexer} {after : List Char} (hrest : s.rest = n.chars ++ after)
    (hends : n.suffix = none → Ends after) : s.lexNumber = n.lexed s := by
  have hx : s.startsWith "0x" = false := by
    rw [Lexer.startsWith, hrest]
    exact not_startsWith hdecimal hends (.inl rfl)
  have hX : s.startsWith "0X" = false := by
    rw [Lexer.startsWith, hrest]
    exact not_startsWith hdecimal hends (.inr rfl)
  obtain ⟨hhead, hpoint⟩ := tail_ends hends
  have hrest' : s.rest = n.digits ++ (n.suffix.toList ++ after) := by
    rw [hrest, chars_decimal hdecimal, List.append_assoc]
  have hrun : s.skipWhile isDigitOrUnderscore = s.skip n.digits.length := by
    apply skipWhile_run hrest'
    · intro c hc
      rw [isDigitOrUnderscore, Bool.or_eq_true, decide_eq_true_eq]
      exact digits_decimal hdecimal c hc
    · intro c hc
      obtain ⟨hdigit, hne, -⟩ := hhead c hc
      rw [isDigitOrUnderscore, isAsciiDigit_false hdigit, Bool.false_or]
      exact decide_eq_false hne
  have hskipped : (s.skip n.digits.length).rest = n.suffix.toList ++ after := by
    rw [Lexer.skip_rest, hrest', List.drop_left]
  have hpeek : (s.skip n.digits.length).peek = (n.suffix.toList ++ after).head? := by
    rw [Lexer.peek, hskipped]
  have hfraction : (s.skip n.digits.length).skipFraction = s.skip n.digits.length := by
    unfold Lexer.skipFraction
    apply if_neg
    rintro ⟨hdot, hdigit⟩
    rw [hpeek] at hdot
    rw [Lexer.peekAt, hskipped] at hdigit
    cases hcs : n.suffix.toList ++ after with
    | nil =>
      rw [hcs] at hdot
      cases hdot
    | cons d ds =>
      rw [hcs] at hdot hdigit
      cases hdot
      cases ds with
      | nil => cases hdigit
      | cons c cs =>
        have hc := hpoint cs c hcs
        rw [List.getElem?_cons_succ, List.getElem?_cons_zero, Option.any_some, hc] at hdigit
        cases hdigit
  have hexponent : (s.skip n.digits.length).skipExponent = s.skip n.digits.length := by
    unfold Lexer.skipExponent
    apply if_neg
    rw [hpeek]
    rintro (he | he)
    · cases (hhead _ he).1
    · cases (hhead _ he).1
  have hafter : (s.skip n.digits.length).skip n.suffix.toList.length = s.skip n.chars.length := by
    rw [Lexer.skip_skip, chars_decimal hdecimal, List.length_append]
  have htext : (s.skip n.chars.length).textSince s = n.chars := by
    rw [Lexer.textSince_skip, hrest, List.take_left]
  unfold Lexer.lexNumber lexed
  rw [hx, hX, if_neg (by simp), hrun, hfraction, hexponent]
  dsimp only
  rw [eatNumSuffix_ends hskipped hends]
  dsimp only
  rw [hafter, htext, body_decimal hdecimal, emitNumber_decimal hdecimal, hdecimal]
  rfl

end

/-! ### Hexadecimal literals -/

section
variable {x : Char} (hhex : n.marker = some x)
include hhex

theorem chars_hex : n.chars = ['0', x] ++ (n.digits ++ n.suffix.toList) := by
  rw [chars, hhex]
  rfl

theorem startsWith_hex (after : List Char) :
    "0x".toList.isPrefixOf (n.chars ++ after) ∨ "0X".toList.isPrefixOf (n.chars ++ after) := by
  rw [chars_hex hhex, List.append_assoc]
  rcases n.markers x hhex with rfl | rfl
  · exact .inl (by simp [List.isPrefixOf])
  · exact .inr (by simp [List.isPrefixOf])

theorem emitIntFromRadix_hex (s : Lexer) (lo : UInt32) :
    s.emitIntFromRadix (n.digits.filter (· ≠ '_')) (if n.suffix.isSome then .long else .none) lo =
      if n.magnitude < 2 ^ n.width then s.emitFrom lo (n.token n.magnitude)
      else s.errorFrom lo "hex literal out of range" := by
  have hparse := n.parseU64_digits
  have hradix : n.radix = 16 := by
    rw [radix, hhex]
    rfl
  rw [hradix] at hparse
  unfold Lexer.emitIntFromRadix token width
  cases hsuffix : n.suffix.isSome with
  | true =>
    rw [if_pos rfl, if_pos rfl, if_pos rfl]
    dsimp only
    rw [hparse]
    by_cases hvalue : n.magnitude < 2 ^ 64
    · rw [if_pos hvalue, if_pos hvalue]
    · rw [if_neg hvalue, if_neg hvalue]
  | false =>
    rw [if_neg Bool.false_ne_true, if_neg Bool.false_ne_true, if_neg Bool.false_ne_true]
    dsimp only
    rw [hparse]
    by_cases hvalue : n.magnitude < 2 ^ 64
    · rw [if_pos hvalue]
      by_cases hsmall : n.magnitude < 2 ^ 32
      · rw [if_pos hsmall]
        exact if_pos (by omega)
      · rw [if_neg hsmall]
        exact if_neg (by omega)
    · rw [if_neg hvalue, if_neg (by omega)]

theorem lexNumber_hex {s : Lexer} {after : List Char} (hrest : s.rest = n.chars ++ after)
    (hends : n.suffix = none → Ends after) : s.lexNumber = n.lexed s := by
  have hdigit := n.firstDigit
  have hmore := n.moreDigits
  rw [hhex] at hdigit hmore
  have hrest' : (s.skip 2).rest = n.digits ++ (n.suffix.toList ++ after) := by
    rw [Lexer.skip_rest, hrest, chars_hex hhex]
    simp
  have hrun : (s.skip 2).skipWhile (fun c => isAsciiHexdigit c || c = '_') =
      (s.skip 2).skip n.digits.length := by
    apply skipWhile_run hrest'
    · intro c hc
      rw [Bool.or_eq_true, decide_eq_true_eq]
      rcases List.mem_cons.mp hc with rfl | hc
      · exact .inl hdigit
      · exact hmore c hc
    · intro c hc
      obtain ⟨hdigit, hne, -⟩ := (tail_ends hends).1 c hc
      rw [hdigit, Bool.false_or]
      exact decide_eq_false hne
  have hskipped : ((s.skip 2).skip n.digits.length).rest = n.suffix.toList ++ after := by
    rw [Lexer.skip_rest, hrest', List.drop_left]
  have hmoved : ((s.skip 2).skip n.digits.length).pos ≠ (s.skip 2).pos := by
    have hsize := n.first.utf8Size_pos
    have hpos : ((s.skip 2).skip n.digits.length).pos = (s.skip 2).pos + byteLength n.digits := by
      rw [Lexer.skip, hrest', List.take_left]
    rw [hpos, digits, byteLength_cons]
    omega
  have htext : ((s.skip 2).skip n.digits.length).textSince (s.skip 2) = n.digits := by
    rw [Lexer.textSince_skip, hrest', List.take_left]
  have hafter : ((s.skip 2).skip n.digits.length).skip n.suffix.toList.length =
      s.skip n.chars.length := by
    rw [Lexer.skip_skip, Lexer.skip_skip, chars_hex hhex, List.length_append, List.length_append]
    rfl
  unfold Lexer.lexNumber lexed
  have hstarts : s.startsWith "0x" ∨ s.startsWith "0X" := by
    unfold Lexer.startsWith
    rw [hrest]
    exact startsWith_hex hhex after
  rw [if_pos hstarts, hhex, Option.isSome_some, if_pos rfl]
  unfold Lexer.lexHexNumber
  dsimp only
  rw [hrun, if_neg hmoved, htext, eatNumSuffix_ends hskipped hends]
  dsimp only
  rw [hafter, emitIntFromRadix_hex hhex]

end

theorem lexNumber_eq {s : Lexer} {after : List Char} (hrest : s.rest = n.chars ++ after)
    (hends : n.suffix = none → Ends after) : s.lexNumber = n.lexed s := by
  cases hmarker : n.marker with
  | none => exact lexNumber_decimal hmarker hrest hends
  | some x => exact lexNumber_hex hmarker hrest hends

theorem lexNormal_eq [CharTables] {s : Lexer} {after : List Char}
    (hrest : s.rest = n.chars ++ after) (hends : n.suffix = none → Ends after) :
    s.lexNormal = some (n.lexed s) := by
  obtain ⟨c, cs, hcs, hdigit⟩ : ∃ c cs, s.rest = c :: cs ∧ isAsciiDigit c = true := by
    cases hmarker : n.marker with
    | none =>
      have hfirst := n.firstDigit
      rw [hmarker] at hfirst
      exact ⟨n.first, _, by rw [hrest, chars_decimal hmarker]; rfl, hfirst⟩
    | some x => exact ⟨'0', _, by rw [hrest, chars_hex hmarker]; rfl, rfl⟩
  have hother : ∀ d : Char, isAsciiDigit d = false → c ≠ d := by
    intro d hd heq
    rw [heq, hd] at hdigit
    cases hdigit
  rw [← lexNumber_eq hrest hends]
  unfold Lexer.lexNormal
  rw [Lexer.peek_of_rest hcs]
  dsimp only
  rw [if_neg (by simp only [not_or]; exact ⟨hother _ rfl, hother _ rfl, hother _ rfl, hother _ rfl⟩),
    if_neg (hother _ rfl), if_neg (hother _ rfl), if_neg (hother _ rfl), if_neg (hother _ rfl),
    if_neg (hother _ rfl), if_pos hdigit]

/-! ## The token -/

/-- The magnitude that the lexer lets through: up to the magnitude of the least value, or any bits
of a hexadecimal literal. -/
def InRange (n : IntegerText) : Prop :=
  if n.marker.isSome then n.magnitude < 2 ^ n.width else n.magnitude ≤ 2 ^ (n.width - 1)

variable (n) in
theorem lexed_token {s : Lexer} {t : Token} (ht : (n.lexed s).tokens = s.tokens ++ [t]) :
    t.span = ⟨asU32 s.pos, asU32 (s.skip n.chars.length).pos⟩ ∧
      (n.InRange ∧ t.kind = n.token n.magnitude ∧ (n.lexed s).diags = s.diags ∨
        ¬n.InRange ∧ n.marker.isSome = false ∧ t.kind = n.token 0 ∧
          (n.lexed s).diags ≠ s.diags) := by
  have hspan : ∀ (s' : Lexer) (kind : TokenKind), s'.tokens = s.tokens →
      s'.pos = (s.skip n.chars.length).pos →
      (s'.emitFrom (asU32 s.pos) kind).tokens = s.tokens ++ [t] →
      t.span = ⟨asU32 s.pos, asU32 (s.skip n.chars.length).pos⟩ ∧ t.kind = kind := by
    intro s' kind htokens hpos h
    have hnew : [_] = [t] := List.append_cancel_left ((htokens ▸ h : _ ++ _ = _))
    rw [← List.singleton_inj.mp hnew, ← hpos]
    exact ⟨rfl, rfl⟩
  unfold lexed at ht ⊢
  unfold InRange
  dsimp only at ht ⊢
  cases hhex : n.marker.isSome with
  | true =>
    rw [hhex, if_pos rfl] at ht
    by_cases hrange : n.magnitude < 2 ^ n.width
    · rw [if_pos hrange] at ht
      obtain ⟨hsp, hkind⟩ := hspan (s.skip n.chars.length) _ rfl rfl ht
      refine ⟨hsp, .inl ⟨by simpa using hrange, hkind, ?_⟩⟩
      rw [if_pos rfl, if_pos hrange]
      rfl
    · rw [if_neg hrange] at ht
      have htokens : s.tokens = s.tokens ++ [t] := ht
      simp at htokens
  | false =>
    rw [hhex, if_neg Bool.false_ne_true] at ht
    by_cases hrange : n.magnitude ≤ 2 ^ (n.width - 1)
    · rw [if_pos hrange] at ht
      obtain ⟨hsp, hkind⟩ := hspan (s.skip n.chars.length) _ rfl rfl ht
      refine ⟨hsp, .inl ⟨by simpa using hrange, hkind, ?_⟩⟩
      rw [if_neg Bool.false_ne_true, if_pos hrange]
      rfl
    · rw [if_neg hrange] at ht
      obtain ⟨hsp, hkind⟩ := hspan ((s.skip n.chars.length).errorFrom (asU32 s.pos)
        "integer number too large") _ rfl rfl ht
      refine ⟨hsp, .inr ⟨by simpa using hrange, rfl, hkind, ?_⟩⟩
      rw [if_neg Bool.false_ne_true, if_neg hrange]
      exact fun h => List.cons_ne_nil _ _ (List.append_right_eq_self.mp h)

end IntegerText
/-! ## Parsing -/

theorem sourceText_literal {σ : Type*} {p : Parser σ} {s : Lexer} {cs after : List Char}
    (hs : s.Good) (hrest : s.rest = cs ++ after) (hsrc : p.src = s.src) :
    p.sourceText ⟨asU32 s.pos, asU32 (s.skip cs.length).pos⟩ = cs := by
  obtain ⟨before, hbefore, hpos⟩ := hs.before
  have hafter := ((Lexer.skips_skip s cs.length).good hs).1
  have hend : (s.skip cs.length).pos = s.pos + byteLength cs := by
    rw [Lexer.skip, hrest, List.take_left]
  unfold Parser.sourceText
  dsimp only
  rw [hs.asU32, hafter.asU32, hend, hsrc, hbefore, hpos, splitBytes_append, Option.bind_some,
    Nat.add_sub_cancel_left, hrest, splitBytes_append]
  rfl

namespace Parser
variable {σ : Type*} {p : Parser σ}

theorem tokAt_bump (h : p.kindAt 1 ≠ .eof) : p.bump.tokAt 0 = p.tokAt 1 := by
  have hlt : p.pos + 1 < p.tokens.length := by
    by_contra hge
    apply h
    have hnone : p.tokens[p.pos + 1]? = none := List.getElem?_eq_none (not_lt.mp hge)
    have hlast : p.tokens.getLast? = some (p.tokens.getLast p.tokens_ne_nil) :=
      List.getLast?_eq_getLast_of_ne_nil p.tokens_ne_nil
    have hends := p.ends
    rw [hlast, Option.map_some, Option.some.injEq] at hends
    rw [kindAt, tokAt, hnone, Option.getD_none, hends]
  have hpos : p.bump.pos = p.pos + 1 := if_pos hlt
  unfold tokAt
  rw [hpos]
  rfl

end Parser

/-- Where a literal may stand. -/
inductive Position where
  | expression
  | unaryMinus
  | pattern
  /-- After the unary minus of a negative literal pattern. -/
  | patternMinus
deriving DecidableEq

namespace Position

def negated : Position → Bool
  | .unaryMinus | .patternMinus => true
  | _ => false

/-- The parser reads the literal, and goes on with what it may be selected from. -/
def Reads {σ : Type*} [TokenTables] [NameTables] (position : Position) (p : Parser σ) (lit : Lit)
    (p' : Parser σ) : Prop :=
  match position with
  | .expression | .unaryMinus => ∃ span, ∀ (prods : Productions σ) (fuel : ℕ),
      parsePrefixExpr prods (fuel + 1) p = prods.simpleExprRest (.literal span lit) true p'
  | .pattern | .patternMinus => ∃ span, ∀ (prods : PatternProductions σ) (source3 : Bool) (fuel : ℕ),
      parseSimplePattern prods source3 (fuel + 1) p = some (.literal span lit, p')

end Position

/-- The value that a literal denotes. -/
def IntegerText.denoted (n : IntegerText) (position : Position) : ℤ :=
  if position.negated then -n.magnitude else n.magnitude

/-- The value fits the type of the literal, which a hexadecimal literal spells in two's
complement. -/
def IntegerText.Fits (n : IntegerText) (position : Position) : Prop :=
  if n.marker.isSome then n.magnitude < 2 ^ n.width
  else -2 ^ (n.width - 1) ≤ n.denoted position ∧ n.denoted position < 2 ^ (n.width - 1)

/-- The literal stands in front of the lexer, and its token in front of the parser. -/
structure Stands {σ : Type*} [CharTables] (n : IntegerText) (position : Position) (s : Lexer)
    (p : Parser σ) : Prop where
  good : s.Good
  text : ∃ after, s.rest = n.chars ++ after ∧ (n.suffix = none → IntegerText.Ends after)
  token : ∃ s' t, s.lexNormal = some s' ∧ s'.tokens = s.tokens ++ [t] ∧
    p.tokAt (if position.negated then 1 else 0) = t
  src : p.src = s.src
  minus : position.negated = true → p.kind = .ident ['-'] ∧ p.isBackquoted p.span = false

/-- The literal is read as `lit` without a diagnostic. -/
def Accepts {σ : Type*} [TokenTables] [NameTables] (position : Position) (s : Lexer) (p : Parser σ)
    (lit : Lit) : Prop :=
  ∃ s' p', s.lexNormal = some s' ∧ s'.diags = s.diags ∧ position.Reads p lit p' ∧
    p'.diags = p.diags

/-- The literal is accepted exactly when its value fits, and then read as this value. -/
def ReadsValue {σ : Type*} [TokenTables] [NameTables] (n : IntegerText) (position : Position)
    (s : Lexer) (p : Parser σ) : Prop :=
  ((∃ lit, Accepts position s p lit) ↔ n.Fits position) ∧
    ∀ lit, Accepts position s p lit → lit = n.lit (n.denoted position)

/-! ## What each production makes of the token -/

namespace Position
variable {σ : Type*} [TokenTables] [NameTables] {position : Position} {p p₁ p₂ : Parser σ}
  {lit₁ lit₂ : Lit}

theorem Reads.unique (h₁ : position.Reads p lit₁ p₁) (h₂ : position.Reads p lit₂ p₂) :
    lit₁ = lit₂ ∧ p₁ = p₂ := by
  have hexpression : ∀ span₁ span₂ : Span,
      (∀ (prods : Productions σ) (fuel : ℕ), parsePrefixExpr prods (fuel + 1) p =
        prods.simpleExprRest (.literal span₁ lit₁) true p₁) →
      (∀ (prods : Productions σ) (fuel : ℕ), parsePrefixExpr prods (fuel + 1) p =
        prods.simpleExprRest (.literal span₂ lit₂) true p₂) → lit₁ = lit₂ ∧ p₁ = p₂ := by
    intro span₁ span₂ h₁ h₂
    let prods : Productions σ := {
      xmlLiteral _ := none, newExpr _ := none, blockExpr _ := none, parenExpr _ := none
      interpolated _ _ := none, freshPlaceholder _ := none
      simpleExprRest t _ p := some (t, p) }
    have heq := (h₁ prods 0).symm.trans (h₂ prods 0)
    obtain ⟨htree, hp⟩ := Prod.mk.inj (Option.some.inj heq)
    exact ⟨(Tree.literal.inj htree).2, hp⟩
  have hpattern : ∀ span₁ span₂ : Span,
      (∀ (prods : PatternProductions σ) (source3 : Bool) (fuel : ℕ),
        parseSimplePattern prods source3 (fuel + 1) p = some (.literal span₁ lit₁, p₁)) →
      (∀ (prods : PatternProductions σ) (source3 : Bool) (fuel : ℕ),
        parseSimplePattern prods source3 (fuel + 1) p = some (.literal span₂ lit₂, p₂)) →
      lit₁ = lit₂ ∧ p₁ = p₂ := by
    intro span₁ span₂ h₁ h₂
    let prods : PatternProductions σ := ⟨fun _ => none, fun _ _ => none⟩
    have heq := (h₁ prods false 0).symm.trans (h₂ prods false 0)
    obtain ⟨htree, hp⟩ := Prod.mk.inj (Option.some.inj heq)
    exact ⟨(Tree.literal.inj htree).2, hp⟩
  cases position with
  | expression | unaryMinus =>
    obtain ⟨span₁, h₁⟩ := h₁
    obtain ⟨span₂, h₂⟩ := h₂
    exact hexpression span₁ span₂ h₁ h₂
  | pattern | patternMinus =>
    obtain ⟨span₁, h₁⟩ := h₁
    obtain ⟨span₂, h₂⟩ := h₂
    exact hpattern span₁ span₂ h₁ h₂

end Position

section
variable {n : IntegerText}

theorem lit_natCast (value : ℕ) : n.lit value =
    if n.suffix.isSome then .long (BitVec.ofNat 64 value) else .int (BitVec.ofNat 32 value) := by
  rw [IntegerText.lit, BitVec.ofInt_natCast, BitVec.ofInt_natCast]

theorem negativeLiteral_token (value : ℕ) :
    negativeLiteral (n.token value) = some (n.lit (-value)) := by
  unfold IntegerText.token IntegerText.lit
  rw [BitVec.ofInt_neg, BitVec.ofInt_neg, BitVec.ofInt_natCast, BitVec.ofInt_natCast]
  split <;> rfl

/-- A token and the literal of its value. -/
theorem token_lit (n : IntegerText) (value : ℕ) :
    n.suffix.isSome = true ∧ n.token value = .longLit (BitVec.ofNat 64 value) ∧
      n.lit value = .long (BitVec.ofNat 64 value) ∨
    n.suffix.isSome = false ∧ n.token value = .intLit (BitVec.ofNat 32 value) ∧
      n.lit value = .int (BitVec.ofNat 32 value) := by
  rw [lit_natCast, IntegerText.token]
  cases n.suffix.isSome with
  | true => exact .inl ⟨rfl, rfl, rfl⟩
  | false => exact .inr ⟨rfl, rfl, rfl⟩

theorem token_ne_newline (value : ℕ) : n.token value ≠ .newline := by
  unfold IntegerText.token
  split <;> simp

theorem token_ne_eof (value : ℕ) : n.token value ≠ .eof := by
  unfold IntegerText.token
  split <;> simp

theorem isExprIntro_token (value : ℕ) : isExprIntro (n.token value) = true := by
  unfold IntegerText.token
  split <;> rfl

/-- Within range, the least value of the type is the one that needs a minus. -/
theorem lit_eq_min_iff {value : ℕ} (h : value ≤ 2 ^ (n.width - 1)) :
    n.lit value = (if n.suffix.isSome then .long (BitVec.intMin 64) else .int (BitVec.intMin 32)) ↔
      value = 2 ^ (n.width - 1) := by
  have hmin : ∀ w, 0 < w → value ≤ 2 ^ (w - 1) →
      (BitVec.ofNat w value = BitVec.intMin w ↔ value = 2 ^ (w - 1)) := by
    intro w hw hle
    have hpow : 2 ^ w = 2 * 2 ^ (w - 1) := by
      rw [← pow_succ', Nat.sub_add_cancel hw]
    have hpos : 0 < 2 ^ (w - 1) := Nat.two_pow_pos _
    rw [← BitVec.toNat_inj, BitVec.toNat_ofNat, BitVec.toNat_intMin,
      Nat.mod_eq_of_lt (by omega), Nat.mod_eq_of_lt (by omega)]
  rw [lit_natCast]
  unfold IntegerText.width at h ⊢
  split
  · next hlong =>
    rw [if_pos hlong] at h
    rw [Lit.long.injEq]
    exact hmin 64 (by omega) h
  · next hint =>
    rw [if_neg hint] at h
    rw [Lit.int.injEq]
    exact hmin 32 (by omega) h

end

section
variable {σ : Type*} [TokenTables] [NameTables] {n : IntegerText} {p : Parser σ} {value : ℕ}

/-- The state after a literal that stands on its own. -/
def afterUnnegated (n : IntegerText) (value : ℕ) (p : Parser σ) : Parser σ :=
  if n.lit value = (if n.suffix.isSome then .long (BitVec.intMin 64) else .int (BitVec.intMin 32)) then
    p.bump.rejectUnnegatedMinValue p.span
  else p.bump

theorem reads_expression (h : p.kind = n.token value) :
    Position.expression.Reads p (n.lit value) (afterUnnegated n value p) := by
  have hnl : p.skipNl = p := by
    apply Parser.skipNl_of_kind_ne
    rw [h]
    exact token_ne_newline value
  have hident : p.identText = none := by
    rw [Parser.identText, h]
    obtain ⟨-, htoken, -⟩ | ⟨-, htoken, -⟩ := token_lit n value <;> rw [htoken]
  have hoperator : p.prefixOperator = none := by
    rw [Parser.prefixOperator, hident]
  have hstart : ∀ prods : Productions σ, p.simpleExprStart prods =
      some (.literal p.span (n.lit value), true, afterUnnegated n value p) := by
    intro prods
    unfold Parser.simpleExprStart afterUnnegated
    obtain ⟨hsuffix, htoken, hlit⟩ | ⟨hsuffix, htoken, hlit⟩ := token_lit n value
    · rw [h, htoken, hlit, hsuffix]
      rfl
    · rw [h, htoken, hlit, hsuffix]
      rfl
  refine ⟨p.span, fun prods fuel => ?_⟩
  rw [parsePrefixExpr]
  dsimp only
  rw [hnl, hoperator, Parser.parseSimpleExpr, hnl, hstart, Option.bind_some]

theorem reads_unaryMinus (hminus : p.kind = .ident ['-']) (hraw : p.isBackquoted p.span = false)
    (h : p.kindAt 1 = n.token value) :
    Position.unaryMinus.Reads p (n.lit (-value)) p.bump.bump := by
  have hnl : p.skipNl = p := by
    apply Parser.skipNl_of_kind_ne
    rw [hminus]
    simp
  have hoperator : p.prefixOperator = some ['-'] := by
    rw [Parser.prefixOperator, Parser.identText, hminus]
    dsimp only
    rw [h, isExprIntro_token, hraw, if_pos (by simp)]
  have hnext : p.bump.kind = n.token value := by
    rw [← h, Parser.kind, Parser.kindAt, Parser.tokAt_bump]
    · rfl
    · rw [h]
      exact token_ne_eof value
  refine ⟨p.span.merge p.bump.span, fun prods fuel => ?_⟩
  rw [parsePrefixExpr]
  dsimp only
  rw [hnl, hoperator]
  dsimp only
  rw [if_pos rfl, hnext, negativeLiteral_token]

theorem reads_pattern (h : p.kind = n.token value) :
    Position.pattern.Reads p (n.lit value) p.bump := by
  have hnl : p.skipNl = p := by
    apply Parser.skipNl_of_kind_ne
    rw [h]
    exact token_ne_newline value
  have hnegative : p.negativePattern = none := by
    unfold Parser.negativePattern
    apply if_neg
    rw [h]
    obtain ⟨-, htoken, -⟩ | ⟨-, htoken, -⟩ := token_lit n value <;> rw [htoken] <;> simp
  refine ⟨p.span, fun prods source3 fuel => ?_⟩
  unfold parseSimplePattern
  dsimp only
  rw [hnl, hnegative, h]
  obtain ⟨-, htoken, hlit⟩ | ⟨-, htoken, hlit⟩ := token_lit n value
  · rw [htoken, hlit]
    rfl
  · rw [htoken, hlit]
    rfl

theorem reads_patternMinus (hminus : p.kind = .ident ['-']) (h : p.kindAt 1 = n.token value) :
    Position.patternMinus.Reads p (n.lit (-value)) p.bump.bump := by
  have hnl : p.skipNl = p := by
    apply Parser.skipNl_of_kind_ne
    rw [hminus]
    simp
  have hnegative : p.negativePattern =
      some (.literal (p.span.merge p.bump.bump.prevSpan) (n.lit (-value)), p.bump.bump) := by
    unfold Parser.negativePattern
    rw [if_pos hminus, h, negativeLiteral_token]
    rfl
  refine ⟨p.span.merge p.bump.bump.prevSpan, fun prods source3 fuel => ?_⟩
  unfold parseSimplePattern
  dsimp only
  rw [hnl, hnegative]

end

/-! ## What is accepted -/

section
variable {σ : Type*} {n : IntegerText} {position : Position} {p : Parser σ}

theorem fits_decimal (hdecimal : n.marker = none) : n.Fits position ↔
    if position.negated then n.magnitude ≤ 2 ^ (n.width - 1)
    else n.magnitude < 2 ^ (n.width - 1) := by
  have hcast : ((2 : ℤ) ^ (n.width - 1)) = ((2 ^ (n.width - 1) : ℕ) : ℤ) := by push_cast; rfl
  have hpos : 0 < 2 ^ (n.width - 1) := Nat.two_pow_pos _
  unfold IntegerText.Fits IntegerText.denoted
  rw [hdecimal, Option.isSome_none, if_neg Bool.false_ne_true, hcast]
  generalize 2 ^ (n.width - 1) = least at hpos
  cases position.negated with
  | true =>
    rw [if_pos rfl, if_pos rfl]
    omega
  | false =>
    rw [if_neg Bool.false_ne_true, if_neg Bool.false_ne_true]
    omega

theorem afterUnnegated_diags (hrange : n.InRange) (hsource : p.sourceText p.span = n.chars) :
    (afterUnnegated n n.magnitude p).diags = p.diags ↔
      (n.marker = none → n.magnitude ≠ 2 ^ (n.width - 1)) := by
  have hbump : p.bump.sourceText p.span = n.chars := hsource
  unfold afterUnnegated
  cases hmarker : n.marker with
  | some x =>
    have hsame : p.bump.rejectUnnegatedMinValue p.span = p.bump := by
      have hstarts := IntegerText.startsWith_hex hmarker []
      rw [List.append_nil] at hstarts
      unfold Parser.rejectUnnegatedMinValue
      dsimp only
      rw [hbump]
      apply if_neg
      rcases hstarts with h | h <;> rw [h] <;> simp
    rw [hsame, ite_self]
    simp [Parser.bump]
  | none =>
    have hle : n.magnitude ≤ 2 ^ (n.width - 1) := by
      unfold IntegerText.InRange at hrange
      rw [hmarker] at hrange
      exact hrange
    have hends : n.suffix = none → IntegerText.Ends [] := fun _ => ⟨by simp, by simp⟩
    have hx := IntegerText.not_startsWith hmarker hends (.inl (rfl : 'x' = 'x'))
    have hX := IntegerText.not_startsWith hmarker hends (.inr (rfl : 'X' = 'X'))
    rw [List.append_nil] at hx hX
    have hrejected : (p.bump.rejectUnnegatedMinValue p.span).diags ≠ p.diags := by
      unfold Parser.rejectUnnegatedMinValue
      dsimp only
      rw [hbump]
      have hboth : (!("0x".toList.isPrefixOf n.chars) && !("0X".toList.isPrefixOf n.chars)) = true := by
        change (!(['0', 'x'].isPrefixOf n.chars) && !(['0', 'X'].isPrefixOf n.chars)) = true
        rw [hx, hX]
        rfl
      rw [if_pos hboth]
      exact fun h => List.cons_ne_nil _ _ (List.append_right_eq_self.mp h)
    by_cases hmin : n.magnitude = 2 ^ (n.width - 1)
    · rw [if_pos ((lit_eq_min_iff hle).mpr hmin)]
      exact iff_of_false hrejected fun h => h rfl hmin
    · rw [if_neg fun h => hmin ((lit_eq_min_iff hle).mp h)]
      exact iff_of_true rfl fun _ => hmin

end

section
variable {σ : Type*} [TokenTables] [NameTables] {n : IntegerText} {position : Position} {s s' : Lexer}
  {p p' : Parser σ} {lit : Lit}

/-- Once it is known how the literal is read. -/
theorem readsValue_of (hlex : s.lexNormal = some s') (hreads : position.Reads p lit p') :
    ReadsValue n position s p ↔
      ((s'.diags = s.diags ∧ p'.diags = p.diags) ↔ n.Fits position) ∧
        (s'.diags = s.diags ∧ p'.diags = p.diags → lit = n.lit (n.denoted position)) := by
  have haccepts : ∀ lit', Accepts position s p lit' ↔
      lit' = lit ∧ s'.diags = s.diags ∧ p'.diags = p.diags := by
    intro lit'
    constructor
    · rintro ⟨s'', p'', hlex', hdiags, hreads', hdiags'⟩
      rw [hlex, Option.some.injEq] at hlex'
      obtain ⟨rfl, rfl⟩ := hreads'.unique hreads
      exact ⟨rfl, hlex' ▸ hdiags, hdiags'⟩
    · rintro ⟨rfl, hdiags, hdiags'⟩
      exact ⟨s', p', hlex, hdiags, hreads, hdiags'⟩
  have hexists : (∃ lit', Accepts position s p lit') ↔ s'.diags = s.diags ∧ p'.diags = p.diags := by
    constructor
    · rintro ⟨lit', h⟩
      exact ((haccepts lit').mp h).2
    · intro h
      exact ⟨lit, (haccepts lit).mpr ⟨rfl, h⟩⟩
  unfold ReadsValue
  rw [hexists]
  apply and_congr_right'
  constructor
  · intro h hdiags
    exact h lit ((haccepts lit).mpr ⟨rfl, hdiags⟩)
  · intro h lit' hlit'
    obtain ⟨rfl, hdiags⟩ := (haccepts lit').mp hlit'
    exact h hdiags

omit [TokenTables] in
/-- The token of a literal in range, where it stands. -/
theorem Stands.cases (h : Stands n position s p) :
    s.lexNormal = some (n.lexed s) ∧
      (n.InRange ∧ (n.lexed s).diags = s.diags ∧
          p.kindAt (if position.negated then 1 else 0) = n.token n.magnitude ∧
          (position.negated = false → p.sourceText p.span = n.chars) ∨
        ¬n.InRange ∧ n.marker = none ∧ (n.lexed s).diags ≠ s.diags ∧
          p.kindAt (if position.negated then 1 else 0) = n.token 0) := by
  obtain ⟨after, hrest, hends⟩ := h.text
  obtain ⟨s', t, hlex, htokens, hhere⟩ := h.token
  have hlexed := IntegerText.lexNormal_eq hrest hends
  rw [hlexed, Option.some.injEq] at hlex
  rw [← hlex] at htokens
  obtain ⟨hspan, hcases⟩ := n.lexed_token htokens
  refine ⟨hlexed, ?_⟩
  rcases hcases with ⟨hrange, hkind, hdiags⟩ | ⟨hrange, hmarker, hkind, hdiags⟩
  · refine .inl ⟨hrange, hdiags, ?_, ?_⟩
    · rw [Parser.kindAt, hhere, hkind]
    · intro hnegated
      rw [hnegated, if_neg Bool.false_ne_true] at hhere
      rw [Parser.span, hhere, hspan]
      exact sourceText_literal h.good hrest h.src
  · refine .inr ⟨hrange, by simpa using hmarker, hdiags, ?_⟩
    rw [Parser.kindAt, hhere, hkind]

/-- However a token of the literal's type stands there, it is read. -/
theorem Stands.reads (h : Stands n position s p) {value : ℕ}
    (hkind : p.kindAt (if position.negated then 1 else 0) = n.token value) :
    position.Reads p (n.lit (if position.negated then -value else value))
      (match position with
        | .expression => afterUnnegated n value p
        | .pattern => p.bump
        | .unaryMinus | .patternMinus => p.bump.bump) := by
  cases position with
  | expression => exact reads_expression hkind
  | unaryMinus =>
    obtain ⟨hminus, hraw⟩ := h.minus rfl
    exact reads_unaryMinus hminus hraw hkind
  | pattern => exact reads_pattern hkind
  | patternMinus => exact reads_patternMinus (h.minus rfl).1 hkind

/-- In each position except a pattern without a minus, a literal is accepted exactly when its value
fits. -/
theorem Stands.readsValue (h : Stands n position s p)
    (hposition : ¬(position = .pattern ∧ n.marker = none ∧ n.magnitude = 2 ^ (n.width - 1))) :
    ReadsValue n position s p := by
  obtain ⟨hlex, ⟨hrange, hdiags, hkind, hsource⟩ | ⟨hrange, hmarker, hdiags, hkind⟩⟩ := h.cases
  · -- what the lexer lets through
    have hlit : n.lit (if position.negated then -(n.magnitude : ℤ) else n.magnitude) =
        n.lit (n.denoted position) := rfl
    refine (readsValue_of hlex (h.reads hkind)).mpr ⟨?_, fun _ => hlit⟩
    rw [and_iff_right hdiags]
    have hunchanged : ∀ p' : Parser σ, p'.diags = p.diags → n.Fits position →
        (p'.diags = p.diags ↔ n.Fits position) := fun _ => iff_of_true
    have hhex : n.marker ≠ none → n.Fits position := by
      intro hmarker
      unfold IntegerText.InRange at hrange
      unfold IntegerText.Fits
      rw [if_pos (Option.isSome_iff_ne_none.mpr hmarker)] at hrange ⊢
      exact hrange
    have hdecimal : n.marker = none → n.magnitude ≤ 2 ^ (n.width - 1) := by
      intro hmarker
      unfold IntegerText.InRange at hrange
      rw [hmarker] at hrange
      exact hrange
    cases position with
    | expression =>
      rw [afterUnnegated_diags hrange (hsource rfl)]
      by_cases hmarker : n.marker = none
      · rw [fits_decimal hmarker]
        constructor
        · intro hne
          exact lt_of_le_of_ne (hdecimal hmarker) (hne hmarker)
        · intro hlt _
          exact ne_of_lt hlt
      · exact iff_of_true (fun h => absurd h hmarker) (hhex hmarker)
    | unaryMinus =>
      apply hunchanged _ rfl
      by_cases hmarker : n.marker = none
      · rw [fits_decimal hmarker]
        exact hdecimal hmarker
      · exact hhex hmarker
    | pattern =>
      apply hunchanged _ rfl
      by_cases hmarker : n.marker = none
      · rw [fits_decimal hmarker]
        exact lt_of_le_of_ne (hdecimal hmarker) fun heq => hposition ⟨rfl, hmarker, heq⟩
      · exact hhex hmarker
    | patternMinus =>
      apply hunchanged _ rfl
      by_cases hmarker : n.marker = none
      · rw [fits_decimal hmarker]
        exact hdecimal hmarker
      · exact hhex hmarker
  · -- what the lexer reports
    have hfits : ¬n.Fits position := by
      unfold IntegerText.InRange at hrange
      rw [hmarker] at hrange
      rw [fits_decimal hmarker]
      intro hfits
      apply hrange
      cases position <;> first | exact hfits | exact le_of_lt hfits
    refine (readsValue_of hlex (h.reads hkind)).mpr ⟨?_, fun hboth => absurd hboth.1 hdiags⟩
    exact iff_of_false (fun hboth => hdiags hboth.1) hfits

/-- A pattern accepts the magnitude that only a minus brings into range. -/
theorem Stands.not_readsValue (h : Stands n .pattern s p) (hmarker : n.marker = none)
    (hmagnitude : n.magnitude = 2 ^ (n.width - 1)) : ¬ReadsValue n .pattern s p := by
  have hrange : n.InRange := by
    unfold IntegerText.InRange
    rw [hmarker]
    exact le_of_eq hmagnitude
  obtain ⟨hlex, ⟨-, hdiags, hkind, -⟩ | ⟨hout, -⟩⟩ := h.cases
  · intro hreads
    have hfits := ((readsValue_of hlex (h.reads hkind)).mp hreads).1.mp ⟨hdiags, rfl⟩
    rw [fits_decimal hmarker] at hfits
    exact absurd hmagnitude (ne_of_lt hfits)
  · exact absurd hrange hout

/-- Exactly the decimal literals of magnitude 2^31, or 2^63 with a suffix, that stand in a pattern
without a minus are misread. -/
theorem readsValue_iff (h : Stands n position s p) : ReadsValue n position s p ↔
    ¬(position = .pattern ∧ n.marker = none ∧ n.magnitude = 2 ^ (n.width - 1)) := by
  constructor
  · rintro hreads ⟨rfl, hmarker, hmagnitude⟩
    exact h.not_readsValue hmarker hmagnitude hreads
  · exact h.readsValue

end
/-- A decimal `Int` literal without underscores. -/
def IntegerText.ofDigits (first : Char) (more : List Char) (hfirst : isAsciiDigit first = true)
    (hmore : ∀ c ∈ more, isAsciiDigit c = true) : IntegerText where
  marker := none
  first
  more
  suffix := none
  markers _ h := by cases h
  firstDigit := hfirst
  moreDigits c hc := .inl (hmore c hc)
  suffixes _ h := by cases h

/-- The parser in front of a text that is one token. -/
def oneToken (src : List Char) (kind : TokenKind) : Parser Unit where
  src
  fileIndex := 0
  tokens := [⟨kind, ⟨0, asU32 (byteLength src)⟩, false, false⟩,
    ⟨.eof, ⟨asU32 (byteLength src), asU32 (byteLength src)⟩, false, false⟩]
  ends := rfl
  pos := 0
  diags := []
  others := ()

attribute [local instance] asciiNames plainTables in
/-- `5`. -/
theorem readsValue_iff_five :
    ∃ (n : IntegerText) (s : Lexer) (p : Parser Unit), n.chars = ['5'] ∧
      Stands n .expression s p ∧
        (ReadsValue n .expression s p ↔ ¬(Position.expression = .pattern ∧ n.marker = none ∧
          n.magnitude = 2 ^ (n.width - 1))) := by
  have hstands : Stands (.ofDigits '5' [] rfl (by simp)) .expression (Lexer.start ['5'] 0 false)
      (oneToken ['5'] (.intLit 5)) :=
    ⟨Lexer.good_start (by decide) 0 false, ⟨[], rfl, fun _ => ⟨by simp, by simp⟩⟩,
      ⟨_, _, rfl, rfl, rfl⟩, rfl, fun h => by cases h⟩
  exact ⟨_, _, _, rfl, hstands, readsValue_iff hstands⟩

attribute [local instance] asciiNames plainTables in
/-- `case 2147483648`. -/
theorem not_readsValue_minValue :
    ¬∀ (n : IntegerText) (position : Position) (s : Lexer) (p : Parser Unit),
      Stands n position s p → ReadsValue n position s p := by
  intro h
  have hstands : Stands (.ofDigits '2' "147483648".toList rfl (by simp [isAsciiDigit])) .pattern
      (Lexer.start "2147483648".toList 0 false)
      (oneToken "2147483648".toList (.intLit (BitVec.ofNat 32 2147483648))) :=
    ⟨Lexer.good_start (by decide) 0 false, ⟨[], rfl, fun _ => ⟨by simp, by simp⟩⟩,
      ⟨_, _, rfl, rfl, rfl⟩, rfl, fun h => by cases h⟩
  exact hstands.not_readsValue rfl rfl (h _ _ _ _ hstands)

end ScalaRs.Parsing
