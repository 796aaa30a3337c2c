import Mathlib.Data.Nat.Notation

/-! # Decoding UTF-8 with replacement characters

Each maximal ill-formed prefix of a sequence becomes one `U+FFFD`. -/
namespace Utf8Lossy

def replacement : Char := '\uFFFD'

def IsContinuation (b : UInt8) : Prop := b.toNat / 64 = 2

instance (b : UInt8) : Decidable (IsContinuation b) := inferInstanceAs (Decidable (_ = _))

/-- The length of the sequence this byte starts, `0` if it starts none. -/
def utf8CharWidth (b : UInt8) : ℕ :=
  let n := b.toNat
  if n < 0x80 then 1
  else if 0xc2 ≤ n ∧ n ≤ 0xdf then 2
  else if 0xe0 ≤ n ∧ n ≤ 0xef then 3
  else if 0xf0 ≤ n ∧ n ≤ 0xf4 then 4
  else 0

/-- The second bytes that exclude overlong forms, surrogates and what lies
above the last scalar value. -/
def SecondByteOk (b0 b1 : UInt8) : Prop :=
  let n := b0.toNat
  let m := b1.toNat
  (n = 0xe0 ∧ 0xa0 ≤ m ∧ m ≤ 0xbf) ∨ (0xe1 ≤ n ∧ n ≤ 0xec ∧ 0x80 ≤ m ∧ m ≤ 0xbf) ∨
  (n = 0xed ∧ 0x80 ≤ m ∧ m ≤ 0x9f) ∨ (0xee ≤ n ∧ n ≤ 0xef ∧ 0x80 ≤ m ∧ m ≤ 0xbf) ∨
  (n = 0xf0 ∧ 0x90 ≤ m ∧ m ≤ 0xbf) ∨ (0xf1 ≤ n ∧ n ≤ 0xf3 ∧ 0x80 ≤ m ∧ m ≤ 0xbf) ∨
  (n = 0xf4 ∧ 0x80 ≤ m ∧ m ≤ 0x8f)

instance (b0 b1 : UInt8) : Decidable (SecondByteOk b0 b1) :=
  inferInstanceAs (Decidable (_ ∨ _))

/-- The next character, and how many bytes it takes besides the first. -/
def nextChar (b0 : UInt8) (bs : List UInt8) : Char × ℕ :=
  match utf8CharWidth b0, bs with
  | 1, _ => (Char.ofNat b0.toNat, 0)
  | 2, b1 :: _ =>
    if IsContinuation b1 then (Char.ofNat (b0.toNat % 32 * 64 + b1.toNat % 64), 1)
    else (replacement, 0)
  | 3, b1 :: bs =>
    if SecondByteOk b0 b1 then
      match bs with
      | b2 :: _ =>
        if IsContinuation b2 then
          (Char.ofNat (b0.toNat % 16 * 4096 + b1.toNat % 64 * 64 + b2.toNat % 64), 2)
        else (replacement, 1)
      | [] => (replacement, 1)
    else (replacement, 0)
  | 4, b1 :: bs =>
    if SecondByteOk b0 b1 then
      match bs with
      | b2 :: bs =>
        if IsContinuation b2 then
          match bs with
          | b3 :: _ =>
            if IsContinuation b3 then
              (Char.ofNat (b0.toNat % 8 * 262144 + b1.toNat % 64 * 4096 + b2.toNat % 64 * 64
                + b3.toNat % 64), 3)
            else (replacement, 2)
          | [] => (replacement, 2)
        else (replacement, 1)
      | [] => (replacement, 1)
    else (replacement, 0)
  | _, _ => (replacement, 0)

def charsLossy : List UInt8 → List Char
  | [] => []
  | b :: bs => (nextChar b bs).1 :: charsLossy (bs.drop (nextChar b bs).2)
termination_by bs => bs.length

def fromUtf8Lossy (bytes : List UInt8) : String := String.ofList (charsLossy bytes)

/-- The UTF-8 bytes of a string. -/
def utf8Bytes (s : String) : List UInt8 := s.toList.flatMap String.utf8EncodeChar

theorem toNat_ofNat_small {n : ℕ} (h : n < 256) : (UInt8.ofNat n).toNat = n :=
  UInt8.toNat_ofNat_of_lt' h

theorem isContinuation_ofNat (v : ℕ) : IsContinuation (UInt8.ofNat (v % 64 + 128)) := by
  rw [IsContinuation, toNat_ofNat_small (by omega)]
  omega

theorem charOfNat_eq {c : Char} {n : ℕ} (h : n = c.toNat) : Char.ofNat n = c := by
  rw [h, Char.ofNat_toNat]

theorem nextChar_encode (c : Char) : ∃ b bs, String.utf8EncodeChar c = b :: bs ∧
    ∀ rest, nextChar b (bs ++ rest) = (c, bs.length) := by
  have hvalid : c.toNat < 0xd800 ∨ 0xdfff < c.toNat ∧ c.toNat < 0x110000 := c.valid
  have hval : c.val.toNat = c.toNat := rfl
  rw [String.utf8EncodeChar, hval]
  generalize hv : c.toNat = v at hvalid
  split
  · next h =>
    have hwidth : utf8CharWidth (UInt8.ofNat v) = 1 := by
      simp only [utf8CharWidth, toNat_ofNat_small (show v < 256 by omega)]
      rw [if_pos (by omega)]
    refine ⟨_, _, rfl, fun rest => ?_⟩
    simp only [nextChar, hwidth, toNat_ofNat_small (show v < 256 by omega)]
    rw [charOfNat_eq hv.symm]
    rfl
  · split
    · next h1 h =>
      have hlead := toNat_ofNat_small (show v / 64 % 32 + 192 < 256 by omega)
      have hwidth : utf8CharWidth (UInt8.ofNat (v / 64 % 32 + 192)) = 2 := by
        simp only [utf8CharWidth, hlead]
        rw [if_neg (by omega), if_pos (by omega)]
      refine ⟨_, _, rfl, fun rest => ?_⟩
      simp only [nextChar, hwidth, List.cons_append, isContinuation_ofNat, if_true, hlead,
        toNat_ofNat_small (show v % 64 + 128 < 256 by omega)]
      rw [charOfNat_eq (c := c) (by omega)]
      rfl
    · split
      · next h1 h2 h =>
        have hlead := toNat_ofNat_small (show v / 4096 % 16 + 224 < 256 by omega)
        have hsecond := toNat_ofNat_small (show v / 64 % 64 + 128 < 256 by omega)
        have hwidth : utf8CharWidth (UInt8.ofNat (v / 4096 % 16 + 224)) = 3 := by
          simp only [utf8CharWidth, hlead]
          rw [if_neg (by omega), if_neg (by omega), if_pos (by omega)]
        have hok : SecondByteOk (UInt8.ofNat (v / 4096 % 16 + 224))
            (UInt8.ofNat (v / 64 % 64 + 128)) := by
          simp only [SecondByteOk, hlead, hsecond]
          omega
        refine ⟨_, _, rfl, fun rest => ?_⟩
        simp only [nextChar, hwidth, List.cons_append, hok, isContinuation_ofNat, if_true, hlead,
          hsecond, toNat_ofNat_small (show v % 64 + 128 < 256 by omega)]
        rw [charOfNat_eq (c := c) (by omega)]
        rfl
      · next h1 h2 h =>
        have hlead := toNat_ofNat_small (show v / 262144 % 8 + 240 < 256 by omega)
        have hsecond := toNat_ofNat_small (show v / 4096 % 64 + 128 < 256 by omega)
        have hwidth : utf8CharWidth (UInt8.ofNat (v / 262144 % 8 + 240)) = 4 := by
          simp only [utf8CharWidth, hlead]
          rw [if_neg (by omega), if_neg (by omega), if_neg (by omega), if_pos (by omega)]
        have hok : SecondByteOk (UInt8.ofNat (v / 262144 % 8 + 240))
            (UInt8.ofNat (v / 4096 % 64 + 128)) := by
          simp only [SecondByteOk, hlead, hsecond]
          omega
        refine ⟨_, _, rfl, fun rest => ?_⟩
        simp only [nextChar, hwidth, List.cons_append, hok, isContinuation_ofNat, if_true, hlead,
          hsecond, toNat_ofNat_small (show v / 64 % 64 + 128 < 256 by omega),
          toNat_ofNat_small (show v % 64 + 128 < 256 by omega)]
        rw [charOfNat_eq (c := c) (by omega)]
        rfl

theorem charsLossy_encode (cs : List Char) :
    charsLossy (cs.flatMap String.utf8EncodeChar) = cs := by
  induction cs with
  | nil => simp [charsLossy]
  | cons c cs ih =>
    obtain ⟨b, bs, hencode, hnext⟩ := nextChar_encode c
    rw [List.flatMap_cons, hencode, List.cons_append, charsLossy, hnext]
    simp [ih]

theorem fromUtf8Lossy_utf8Bytes (s : String) : fromUtf8Lossy (utf8Bytes s) = s := by
  rw [fromUtf8Lossy, utf8Bytes, charsLossy_encode, String.ofList_toList]

end Utf8Lossy
