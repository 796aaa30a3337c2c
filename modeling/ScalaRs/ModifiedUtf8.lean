import Mathlib.Data.Nat.Bitwise
import Mathlib.Tactic.Ring

/-! # Modified UTF-8

Strings of the constant pool. The writer has no form of its own for characters
above `U+FFFF`, so only the others are read back. -/
namespace ModifiedUtf8

def modifiedUtf8Width (c : Char) : ℕ :=
  let u := c.toNat
  if u = 0 then 2 else if u < 0x80 then 1 else if u < 0x800 then 2 else 3

def encodeChar (c : Char) : List UInt8 :=
  let u := c.toNat
  if u = 0 then [0xc0, 0x80]
  else if u < 0x80 then [UInt8.ofNat u]
  else if u < 0x800 then
    [UInt8.ofNat (0xc0 ||| u >>> 6), UInt8.ofNat (0x80 ||| (u &&& 0x3f))]
  else
    [UInt8.ofNat (0xe0 ||| u >>> 12), UInt8.ofNat (0x80 ||| (u >>> 6 &&& 0x3f)),
      UInt8.ofNat (0x80 ||| (u &&& 0x3f))]

def modifiedUtf8Bytes (s : String) : List UInt8 := s.toList.flatMap encodeChar

/-- `char::from_u32`, which has no surrogates. -/
def charFromU32 (n : ℕ) : Option Char := if n.isValidChar then some (Char.ofNat n) else none

def decodeChars : List UInt8 → Option (List Char)
  | [] => some []
  | x :: bs =>
    if x = 0 then none
    else if x < 0x80 then do
      let cs ← decodeChars bs
      pure (Char.ofNat x.toNat :: cs)
    else if x &&& 0xe0 = 0xc0 then
      match bs with
      | y :: bs => do
        let c ← charFromU32 ((x.toNat &&& 0x1f) <<< 6 ||| (y.toNat &&& 0x3f))
        let cs ← decodeChars bs
        pure (c :: cs)
      | [] => none
    else if x &&& 0xf0 = 0xe0 then
      match bs with
      | y :: z :: bs => do
        let c ← charFromU32
          ((x.toNat &&& 0x0f) <<< 12 ||| (y.toNat &&& 0x3f) <<< 6 ||| (z.toNat &&& 0x3f))
        let cs ← decodeChars bs
        pure (c :: cs)
      | _ => none
    else none

def modifiedUtf8ToString (bs : List UInt8) : Option String := (decodeChars bs).map String.ofList

/-- Every character is in the basic multilingual plane. -/
def Basic (s : String) : Prop := ∀ c ∈ s.toList, c.toNat < 0x10000

instance (s : String) : Decidable (Basic s) :=
  List.decidableBAll (fun c : Char => c.toNat < 0x10000) s.toList

theorem length_encodeChar (c : Char) : (encodeChar c).length = modifiedUtf8Width c := by
  unfold encodeChar modifiedUtf8Width
  dsimp only
  split
  · rfl
  · split
    · rfl
    · split <;> rfl

private theorem lead_two (a : Fin 32) :
    let x := UInt8.ofNat (0xc0 ||| a.val)
    x ≠ 0 ∧ ¬ x < 0x80 ∧ x &&& 0xe0 = 0xc0 ∧ x.toNat &&& 0x1f = a.val := by
  revert a
  decide

private theorem lead_three (a : Fin 16) :
    let x := UInt8.ofNat (0xe0 ||| a.val)
    x ≠ 0 ∧ ¬ x < 0x80 ∧ ¬ x &&& 0xe0 = 0xc0 ∧ x &&& 0xf0 = 0xe0 ∧
      x.toNat &&& 0x0f = a.val := by
  revert a
  decide

private theorem continuation (a : Fin 64) :
    (UInt8.ofNat (0x80 ||| a.val)).toNat &&& 0x3f = a.val := by
  revert a
  decide

private theorem and_continuation (u : ℕ) :
    (UInt8.ofNat (0x80 ||| (u &&& 0x3f))).toNat &&& 0x3f = u % 64 := by
  have hmask : u &&& 0x3f = u % 64 := Nat.and_two_pow_sub_one_eq_mod u 6
  rw [hmask]
  exact continuation ⟨u % 64, Nat.mod_lt _ (by decide)⟩

theorem charFromU32_toNat (c : Char) : charFromU32 c.toNat = some c := by
  have hvalid : c.toNat.isValidChar := c.valid
  rw [charFromU32, if_pos hvalid, Char.ofNat_toNat]

private theorem or_two {a b : ℕ} (hb : b < 64) : a <<< 6 ||| b = a * 64 + b := by
  rw [← Nat.shiftLeft_add_eq_or_of_lt hb, Nat.shiftLeft_eq]

private theorem or_three {a b c : ℕ} (hb : b < 64) (hc : c < 64) :
    a <<< 12 ||| b <<< 6 ||| c = a * 4096 + b * 64 + c := by
  have hhigh : a <<< 12 ||| b <<< 6 = (a * 64 + b) <<< 6 := by
    have hlt : b <<< 6 < 2 ^ 12 := by
      rw [Nat.shiftLeft_eq]
      omega
    rw [← Nat.shiftLeft_add_eq_or_of_lt hlt, Nat.shiftLeft_eq, Nat.shiftLeft_eq, Nat.shiftLeft_eq]
    ring
  rw [hhigh, or_two hc]
  ring

/-- A character of the basic plane is read back, whatever follows it. -/
theorem decodeChars_encodeChar {c : Char} (hc : c.toNat < 0x10000) (bs : List UInt8) :
    decodeChars (encodeChar c ++ bs) = (decodeChars bs).map (c :: ·) := by
  have hchar := charFromU32_toNat c
  generalize hu : c.toNat = u at hc hchar
  have hback : ∀ n, n = u → (do
      let c ← charFromU32 n
      let cs ← decodeChars bs
      pure (c :: cs)) = (decodeChars bs).map (c :: ·) := by
    intro n hn
    subst hn
    rw [hchar]
    cases decodeChars bs <;> rfl
  unfold encodeChar
  dsimp only
  rw [hu]
  split
  · next hzero =>
    rw [List.cons_append, List.cons_append, List.nil_append, decodeChars, if_neg (by decide),
      if_neg (by decide), if_pos (by decide)]
    apply hback
    rw [hzero]
    rfl
  · split
    · next hne hlt =>
      have hx : (UInt8.ofNat u).toNat = u := by
        rw [UInt8.toNat_ofNat']
        omega
      have hcu : Char.ofNat u = c := by rw [← hu, Char.ofNat_toNat]
      have hne' : UInt8.ofNat u ≠ 0 := by
        intro h
        have := congrArg UInt8.toNat h
        rw [hx] at this
        exact hne this
      have hlt' : UInt8.ofNat u < 0x80 := by
        rw [UInt8.lt_iff_toNat_lt, hx]
        exact hlt
      rw [List.singleton_append, decodeChars.eq_def]
      dsimp only
      rw [if_neg hne', if_pos hlt', hx, hcu]
      cases decodeChars bs <;> rfl
    · split
      · next hlt =>
        have ha : u >>> 6 < 32 := by
          rw [Nat.shiftRight_eq_div_pow]
          omega
        obtain ⟨h0, h1, h2, hlead⟩ := lead_two ⟨u >>> 6, ha⟩
        dsimp only at h0 h1 h2 hlead
        rw [List.cons_append, List.cons_append, List.nil_append, decodeChars, if_neg h0,
          if_neg h1, if_pos h2]
        apply hback
        rw [hlead, and_continuation, or_two (Nat.mod_lt _ (by decide)), Nat.shiftRight_eq_div_pow]
        omega
      · have ha : u >>> 12 < 16 := by
          rw [Nat.shiftRight_eq_div_pow]
          omega
        obtain ⟨h0, h1, h2, h3, hlead⟩ := lead_three ⟨u >>> 12, ha⟩
        dsimp only at h0 h1 h2 h3 hlead
        rw [List.cons_append, List.cons_append, List.cons_append, List.nil_append, decodeChars,
          if_neg h0, if_neg h1, if_neg h2, if_pos h3]
        apply hback
        rw [hlead, and_continuation, and_continuation,
          or_three (Nat.mod_lt _ (by decide)) (Nat.mod_lt _ (by decide)),
          Nat.shiftRight_eq_div_pow, Nat.shiftRight_eq_div_pow]
        omega

/-- Strings of the basic plane are read back. -/
theorem modifiedUtf8ToString_modifiedUtf8Bytes {s : String} (h : Basic s) :
    modifiedUtf8ToString (modifiedUtf8Bytes s) = some s := by
  have hchars : ∀ cs : List Char, (∀ c ∈ cs, c.toNat < 0x10000) →
      decodeChars (cs.flatMap encodeChar) = some cs := by
    intro cs hcs
    induction cs with
    | nil => rfl
    | cons c cs ih =>
      rw [List.flatMap_cons, decodeChars_encodeChar (hcs c List.mem_cons_self),
        ih fun d hd => hcs d (List.mem_cons_of_mem _ hd)]
      rfl
  rw [modifiedUtf8ToString, modifiedUtf8Bytes, hchars _ h, Option.map_some, String.ofList_toList]

/-- The writer keeps only the low sixteen bits of a supplementary character. -/
example : modifiedUtf8ToString (modifiedUtf8Bytes (String.ofList [Char.ofNat 0x10ffff])) =
    some (String.ofList ['\uffff']) := by decide

end ModifiedUtf8
