import ScalaRs.CodeUnits
import ScalaRs.GreedyTokens
import ScalaRs.JavaIdentifierParts
import ScalaRs.ModifiedUtf8

/-! # Encoded names

Operator characters become mnemonics and what may not stand in a Java identifier
becomes `$uXXXX`, without separators between them. The decoder reads from the left.
Names are sequences of characters and lengths count characters: a `$u` followed by
four bytes that are not four characters holds no hexadecimal number. -/
namespace ScalaRs.NameTransformer

open GreedyTokens CodeUnits ModifiedUtf8

def OPERATORS : List (Char × List Char) := [
  ('~', "$tilde".toList), ('=', "$eq".toList), ('<', "$less".toList), ('>', "$greater".toList),
  ('!', "$bang".toList), ('#', "$hash".toList), ('%', "$percent".toList), ('^', "$up".toList),
  ('&', "$amp".toList), ('|', "$bar".toList), ('*', "$times".toList), ('/', "$div".toList),
  ('+', "$plus".toList), ('-', "$minus".toList), (':', "$colon".toList),
  ('\\', "$bslash".toList), ('?', "$qmark".toList), ('@', "$at".toList)]

/-! ## The encoder -/

def hexDigit (n : ℕ) : Char := if n < 10 then Char.ofNat (48 + n) else Char.ofNat (55 + n)

/-- `$u{unit:04X}` -/
def unicodeEscape (unit : UInt16) : List Char :=
  let n := unit.toNat
  ['$', 'u', hexDigit (n / 4096), hexDigit (n / 256 % 16), hexDigit (n / 16 % 16),
    hexDigit (n % 16)]

def encodeChar (c : Char) : List Char :=
  match OPERATORS.find? fun op => op.1 = c with
  | some (_, code) => code
  | none => if isJavaIdentifierPart c then [c] else (utf16.encode c).flatMap unicodeEscape

def isSpecial (name : List Char) : Bool := name = "<init>".toList || name = "<clinit>".toList

def encodeMethodName (name : List Char) : List Char :=
  if isSpecial name then name
  else if name.all fun c => c.isAlphanum || c = '_' || c = '$' then name
  else name.flatMap encodeChar

/-! ## The decoder -/

def hexValue (c : Char) : Option ℕ :=
  if c.isDigit then some (c.toNat - 48)
  else if 'A' ≤ c ∧ c ≤ 'F' then some (c.toNat - 55)
  else if 'a' ≤ c ∧ c ≤ 'f' then some (c.toNat - 87)
  else none

def fromStrRadix16 (digits : List Char) : Option ℕ :=
  digits.foldlM (fun n d => (hexValue d).map (16 * n + ·)) 0

def isLeadingHex (c : Char) : Bool := c.isDigit || ('A' ≤ c && c ≤ 'F')

/-- `unit` -/
def escapedUnit : List Char → Option ℕ
  | x :: y :: a :: b :: c :: d :: _ =>
    if x = '$' ∧ y = 'u' ∧ isLeadingHex a then fromStrRadix16 [a, b, c, d] else none
  | _ => none

def decodeUnicodeEscape (s : List Char) : Option (Char × ℕ) := do
  let first ← escapedUnit s
  match charFromU32 first with
  | some c => some (c, 6)
  | none => do
    let second ← escapedUnit (s.drop 6)
    if 0xD800 ≤ first ∧ first ≤ 0xDBFF ∧ 0xDC00 ≤ second ∧ second ≤ 0xDFFF then do
      let c ← charFromU32 (0x10000 + ((first - 0xD800) <<< 10 ||| (second - 0xDC00)))
      some (c, 12)
    else none

def operatorAt (s : List Char) : Option (Char × ℕ) :=
  OPERATORS.findSome? fun op => if op.2 <+: s then some (op.1, op.2.length) else none

def symbolAt (s : List Char) : Option (Char × ℕ) := decodeUnicodeEscape s <|> operatorAt s

/-! ## Symbols are tokens -/

theorem escapedUnit_eq_some {s : List Char} {n : ℕ} (h : escapedUnit s = some n) :
    ∃ a b c d t, s = '$' :: 'u' :: a :: b :: c :: d :: t ∧ isLeadingHex a = true ∧
      fromStrRadix16 [a, b, c, d] = some n := by
  unfold escapedUnit at h
  split at h
  · next x y a b c d t =>
    split at h
    · next hx =>
      obtain ⟨rfl, rfl, ha⟩ := hx
      exact ⟨a, b, c, d, t, rfl, ha, h⟩
    · cases h
  · cases h

theorem escapedUnit_append {s : List Char} {n : ℕ} (h : escapedUnit s = some n) (t : List Char) :
    escapedUnit (s ++ t) = some n := by
  obtain ⟨a, b, c, d, u, rfl, ha, hn⟩ := escapedUnit_eq_some h
  simp [escapedUnit, ha, hn]

theorem escapedUnit_of_append {s t : List Char} (hs : 6 ≤ s.length) :
    escapedUnit (s ++ t) = escapedUnit s := by
  match s, hs with
  | x :: y :: a :: b :: c :: d :: u, _ => rfl

/-- A single unit, or a pair of surrogates, that makes up a character. -/
inductive Escape (s : List Char) : Char → ℕ → Prop
  | single {n : ℕ} {c : Char} (hfirst : escapedUnit s = some n) (hc : charFromU32 n = some c) :
      Escape s c 6
  | pair {n m : ℕ} {c : Char} (hfirst : escapedUnit s = some n) (hn : charFromU32 n = none)
      (hsecond : escapedUnit (s.drop 6) = some m)
      (hrange : 0xD800 ≤ n ∧ n ≤ 0xDBFF ∧ 0xDC00 ≤ m ∧ m ≤ 0xDFFF)
      (hc : charFromU32 (0x10000 + ((n - 0xD800) <<< 10 ||| (m - 0xDC00))) = some c) :
      Escape s c 12

theorem decodeUnicodeEscape_eq_some_iff {s : List Char} {c : Char} {k : ℕ} :
    decodeUnicodeEscape s = some (c, k) ↔ Escape s c k := by
  constructor
  · intro h
    obtain ⟨n, hfirst, h⟩ := Option.bind_eq_some_iff.mp h
    split at h
    · next hc =>
      cases h
      exact .single hfirst hc
    · next hn =>
      obtain ⟨m, hsecond, h⟩ := Option.bind_eq_some_iff.mp h
      split at h
      · next hrange =>
        obtain ⟨d, hd, h⟩ := Option.bind_eq_some_iff.mp h
        cases h
        exact .pair hfirst hn hsecond hrange hd
      · cases h
  · intro h
    cases h with
    | single hfirst hc => simp [decodeUnicodeEscape, hfirst, hc]
    | pair hfirst hn hsecond hrange hc =>
      simp [decodeUnicodeEscape, hfirst, hn, hsecond, hrange, hc]

theorem Escape.length_le {s : List Char} {c : Char} {k : ℕ} (h : Escape s c k) :
    k ≤ s.length := by
  cases h with
  | single hfirst _ =>
    obtain ⟨_, _, _, _, t, rfl, -, -⟩ := escapedUnit_eq_some hfirst
    simp
  | pair _ _ hsecond _ _ =>
    obtain ⟨_, _, _, _, t, ht, -, -⟩ := escapedUnit_eq_some hsecond
    have hlen := congrArg List.length ht
    simp only [List.length_drop, List.length_cons] at hlen
    omega

theorem Escape.append {s : List Char} {c : Char} {k : ℕ} (h : Escape s c k) (t : List Char) :
    Escape (s ++ t) c k := by
  have hlen := h.length_le
  cases h with
  | single hfirst hc => exact .single (escapedUnit_append hfirst t) hc
  | pair hfirst hn hsecond hrange hc =>
    apply Escape.pair (escapedUnit_append hfirst t) hn _ hrange hc
    rw [List.drop_append_of_le_length (by omega)]
    exact escapedUnit_append hsecond t

theorem Escape.of_append {s t : List Char} {c : Char} {k : ℕ} (h : Escape (s ++ t) c k)
    (hk : k ≤ s.length) : Escape s c k := by
  cases h with
  | single hfirst hc => exact .single (escapedUnit_of_append hk ▸ hfirst) hc
  | pair hfirst hn hsecond hrange hc =>
    have hlong : 6 ≤ s.length := Nat.le_trans (by decide) hk
    have hrest : 6 ≤ (s.drop 6).length := by
      rw [List.length_drop]
      omega
    rw [List.drop_append_of_le_length hlong, escapedUnit_of_append hrest] at hsecond
    exact .pair (escapedUnit_of_append hlong ▸ hfirst) hn hsecond hrange hc

/-- No mnemonic continues another. -/
theorem operator_unique {a b : Char × List Char} (ha : a ∈ OPERATORS) (hb : b ∈ OPERATORS)
    (h : a.2 <+: b.2) : a = b := by
  have hall : ∀ a ∈ OPERATORS, ∀ b ∈ OPERATORS, a.2 <+: b.2 → a = b := by decide
  exact hall a ha b hb h

/-- A mnemonic has two characters at least, which do not start an escaped unit. -/
theorem operator_shape {op : Char × List Char} (h : op ∈ OPERATORS) :
    ∃ y z w, op.2 = '$' :: y :: z :: w ∧ (y = 'u' → isLeadingHex z = false) := by
  have hall : ∀ op ∈ OPERATORS, op.2.head? = some '$' ∧ 3 ≤ op.2.length ∧
      (op.2[1]? = some 'u' → op.2[2]?.all (fun z => !isLeadingHex z) = true) := by decide
  obtain ⟨hhead, hlength, hhex⟩ := hall op h
  obtain ⟨name, text⟩ := op
  rcases text with _ | ⟨x, _ | ⟨y, _ | ⟨z, w⟩⟩⟩
  · cases hhead
  · simp at hlength
  · simp at hlength
  · cases hhead
    refine ⟨y, z, w, rfl, fun hy => ?_⟩
    simpa [hy] using hhex

theorem operatorAt_eq_some_iff {s : List Char} {c : Char} {k : ℕ} :
    operatorAt s = some (c, k) ↔ ∃ op ∈ OPERATORS, op.2 <+: s ∧ op.1 = c ∧ op.2.length = k := by
  have hfound : ∀ {x : Char × ℕ}, operatorAt s = some x →
      ∃ op ∈ OPERATORS, op.2 <+: s ∧ (op.1, op.2.length) = x := by
    intro x h
    obtain ⟨op, hop, h⟩ := List.exists_of_findSome?_eq_some h
    split at h
    · next hpre => exact ⟨op, hop, hpre, Option.some.inj h⟩
    · cases h
  constructor
  · intro h
    obtain ⟨op, hop, hpre, hx⟩ := hfound h
    cases hx
    exact ⟨op, hop, hpre, rfl, rfl⟩
  · intro h
    obtain ⟨op, hop, hpre, rfl, rfl⟩ := h
    cases hat : operatorAt s with
    | none =>
      have hno := List.findSome?_eq_none_iff.mp hat op hop
      rw [if_pos hpre] at hno
      cases hno
    | some x =>
      obtain ⟨op', hop', hpre', rfl⟩ := hfound hat
      rcases List.prefix_or_prefix_of_prefix hpre hpre' with hle | hle
      · rw [operator_unique hop hop' hle]
      · rw [operator_unique hop' hop hle]

/-- Where a mnemonic stands there is no escape. -/
theorem not_escape_of_operator {s : List Char} {op : Char × List Char} (hop : op ∈ OPERATORS)
    (hpre : op.2 <+: s) : decodeUnicodeEscape s = none := by
  cases h : decodeUnicodeEscape s with
  | none => rfl
  | some x =>
    obtain ⟨n, hfirst, -⟩ := Option.bind_eq_some_iff.mp h
    obtain ⟨a, _, _, _, t, rfl, ha, -⟩ := escapedUnit_eq_some hfirst
    obtain ⟨y, z, w, hw, hz⟩ := operator_shape hop
    rw [hw, List.cons_prefix_cons, List.cons_prefix_cons, List.cons_prefix_cons] at hpre
    obtain ⟨-, hy, rfl, -⟩ := hpre
    rw [hz hy] at ha
    cases ha

theorem symbolAt_eq_some_iff {s : List Char} {c : Char} {k : ℕ} :
    symbolAt s = some (c, k) ↔
      Escape s c k ∨ ∃ op ∈ OPERATORS, op.2 <+: s ∧ op.1 = c ∧ op.2.length = k := by
  rw [← decodeUnicodeEscape_eq_some_iff, ← operatorAt_eq_some_iff]
  unfold symbolAt
  cases h : decodeUnicodeEscape s with
  | none => simp
  | some x =>
    have hno : operatorAt s ≠ some (c, k) := by
      intro hat
      obtain ⟨op, hop, hpre, -, -⟩ := operatorAt_eq_some_iff.mp hat
      rw [not_escape_of_operator hop hpre] at h
      cases h
    simp [hno]

/-- A symbol starts with a dollar. -/
theorem head_of_symbolAt {s : List Char} {c : Char} {k : ℕ} (h : symbolAt s = some (c, k)) :
    ∃ t, s = '$' :: t := by
  rcases symbolAt_eq_some_iff.mp h with h | ⟨op, hop, hpre, -, -⟩
  · cases h with
    | single hfirst _ =>
      obtain ⟨_, _, _, _, t, rfl, -, -⟩ := escapedUnit_eq_some hfirst
      exact ⟨_, rfl⟩
    | pair hfirst _ _ _ _ =>
      obtain ⟨_, _, _, _, t, rfl, -, -⟩ := escapedUnit_eq_some hfirst
      exact ⟨_, rfl⟩
  · obtain ⟨y, z, w, hw, -⟩ := operator_shape hop
    obtain ⟨t, rfl⟩ := hpre
    exact ⟨y :: z :: w ++ t, by rw [hw]; rfl⟩

/-- Escapes and mnemonics, the tokens of encoded names. -/
def symbols : Reader Char Char where
  read := symbolAt
  length_pos h := by
    rcases symbolAt_eq_some_iff.mp h with h | ⟨op, hop, -, -, rfl⟩
    · cases h <;> omega
    · obtain ⟨y, z, w, hw, -⟩ := operator_shape hop
      rw [hw, List.length_cons]
      omega
  length_le h := by
    rcases symbolAt_eq_some_iff.mp h with h | ⟨op, -, hpre, -, rfl⟩
    · exact h.length_le
    · exact hpre.length_le
  extend t h := by
    apply symbolAt_eq_some_iff.mpr
    rcases symbolAt_eq_some_iff.mp h with h | ⟨op, hop, hpre, hx⟩
    · exact .inl (h.append t)
    · exact .inr ⟨op, hop, hpre.trans (List.prefix_append _ _), hx⟩
  shorten h hn := by
    apply symbolAt_eq_some_iff.mpr
    rcases symbolAt_eq_some_iff.mp h with h | ⟨op, hop, hpre, hc, rfl⟩
    · exact .inl (h.of_append hn)
    · exact .inr ⟨op, hop, List.prefix_of_prefix_length_le hpre (List.prefix_append _ _) hn,
        hc, rfl⟩

def decodeLoop (out : List Char) : List Char → List Char
  | [] => out
  | c :: s => match h : symbolAt (c :: s) with
    | some (d, n) => decodeLoop (out ++ [d]) ((c :: s).drop n)
    | none => decodeLoop (out ++ [c]) s
termination_by rest => rest.length
decreasing_by
  · exact symbols.length_drop_lt h
  · exact Nat.lt_succ_self _

def decodeMethodName (name : List Char) : List Char :=
  if name.contains '$' then decodeLoop [] name else name

end ScalaRs.NameTransformer
