import Mathlib.Data.Int.Notation
import Mathlib.Data.Nat.Notation
import Mathlib.Algebra.Group.Nat.Defs
import Mathlib.Algebra.Group.Int.Defs

/-! # Machine arithmetic

Fixed-width operations as operations on integers of which the low bits are kept, and
what the floating-point formats of a machine offer. -/
namespace MachineArithmetic

/-! ## Integers -/

section Integers

variable {w : ℕ} (x y : BitVec w)

theorem ofInt_add : BitVec.ofInt w (x.toInt + y.toInt) = x + y := by
  rw [BitVec.ofInt_add, BitVec.ofInt_toInt, BitVec.ofInt_toInt]

theorem ofInt_sub : BitVec.ofInt w (x.toInt - y.toInt) = x - y := by
  apply BitVec.eq_of_toInt_eq
  rw [BitVec.toInt_ofInt, BitVec.toInt_sub]

theorem ofInt_mul : BitVec.ofInt w (x.toInt * y.toInt) = x * y := by
  rw [BitVec.ofInt_mul, BitVec.ofInt_toInt, BitVec.ofInt_toInt]

theorem ofInt_neg : BitVec.ofInt w (-x.toInt) = -x := by
  rw [BitVec.ofInt_neg, BitVec.ofInt_toInt]

/-- The only quotient that does not fit wraps around. -/
theorem ofInt_tdiv : BitVec.ofInt w (x.toInt.tdiv y.toInt) = x.sdiv y := by
  apply BitVec.eq_of_toInt_eq
  rw [BitVec.toInt_ofInt, BitVec.toInt_sdiv]

theorem ofInt_tmod : BitVec.ofInt w (x.toInt.tmod y.toInt) = x.srem y := by
  rw [← BitVec.toInt_srem, BitVec.ofInt_toInt]

theorem ofInt_complement : BitVec.ofInt w (-x.toInt - 1) = ~~~x := by
  rw [BitVec.not_eq_neg_add, Int.sub_eq_add_neg, BitVec.ofInt_add, BitVec.ofInt_neg,
    BitVec.ofInt_neg, BitVec.ofInt_toInt, BitVec.sub_eq_add_neg]
  rfl

theorem ofInt_shiftLeft (s : ℕ) : BitVec.ofInt w (x.toInt * 2 ^ s) = x <<< s := by
  have hpow : BitVec.ofInt w (2 ^ s) = BitVec.twoPow w s := by
    have hcast : (2 : ℤ) ^ s = ((2 ^ s : ℕ) : ℤ) := (Int.natCast_pow 2 s).symm
    apply BitVec.eq_of_toNat_eq
    rw [hcast, BitVec.ofInt_natCast, BitVec.toNat_ofNat, BitVec.toNat_twoPow]
  rw [BitVec.ofInt_mul, BitVec.ofInt_toInt, hpow, BitVec.mul_twoPow_eq_shiftLeft]

theorem ofInt_shiftRight (s : ℕ) : BitVec.ofInt w (x.toInt / 2 ^ s) = x.sshiftRight s := by
  have hshift : (x.sshiftRight s).toInt = x.toInt / 2 ^ s := by
    rw [BitVec.toInt_sshiftRight, Int.shiftRight_eq_div_pow]
    rfl
  rw [← hshift, BitVec.ofInt_toInt]

theorem ofNat_shiftRight (s : ℕ) : BitVec.ofNat w (x.toNat / 2 ^ s) = x >>> s := by
  apply BitVec.eq_of_toNat_eq
  rw [BitVec.toNat_ofNat, BitVec.toNat_ushiftRight, Nat.shiftRight_eq_div_pow]
  exact Nat.mod_eq_of_lt (Nat.lt_of_le_of_lt (Nat.div_le_self _ _) x.isLt)

theorem toInt_eq_iff : x.toInt = y.toInt ↔ x = y :=
  ⟨BitVec.eq_of_toInt_eq, congrArg BitVec.toInt⟩

/-- Signed or not, a number has the same low bits. -/
theorem toInt_emod_two_pow {k : ℕ} (hk : k ≤ w) :
    x.toInt % 2 ^ k = ((x.toNat % 2 ^ k : ℕ) : ℤ) := by
  obtain ⟨c, hc⟩ : (2 ^ k : ℕ) ∣ 2 ^ w := Nat.pow_dvd_pow 2 hk
  have hpow : (2 : ℤ) ^ k = ((2 ^ k : ℕ) : ℤ) := (Int.natCast_pow 2 k).symm
  rw [BitVec.toInt_eq_toNat_cond, hpow]
  split
  · exact (Int.natCast_emod _ _).symm
  · rw [hc, Int.natCast_mul, Int.sub_mul_emod_self_left]
    exact (Int.natCast_emod _ _).symm

theorem toNat_and_mask {k : ℕ} (hk : k ≤ w) :
    (x &&& BitVec.ofNat w (2 ^ k - 1)).toNat = (x.toInt % 2 ^ k).toNat := by
  have hmask : (BitVec.ofNat w (2 ^ k - 1)).toNat = 2 ^ k - 1 := by
    rw [BitVec.toNat_ofNat]
    apply Nat.mod_eq_of_lt
    have hle := Nat.pow_le_pow_right (n := 2) (by decide) hk
    have hpos := Nat.two_pow_pos k
    omega
  rw [BitVec.toNat_and, hmask, Nat.and_two_pow_sub_one_eq_mod, toInt_emod_two_pow x hk,
    Int.toNat_natCast]

theorem ofInt_toInt_of_le {k : ℕ} (hk : k ≤ w) : BitVec.ofInt k x.toInt = x.setWidth k := by
  have hpow : ((2 ^ k : ℕ) : ℤ) = (2 : ℤ) ^ k := Int.natCast_pow 2 k
  apply BitVec.eq_of_toNat_eq
  rw [BitVec.toNat_ofInt, BitVec.toNat_setWidth, hpow, toInt_emod_two_pow x hk, Int.toNat_natCast]

end Integers

/-! ## Floating-point formats -/

/-- The operations of one format. Conversions round to nearest, or toward zero to the
closest number that fits. -/
class Format (F : Type) where
  ofInt : ℤ → F
  toInt : (w : ℕ) → F → BitVec w
  neg : F → F
  add : F → F → F
  sub : F → F → F
  mul : F → F → F
  div : F → F → F
  rem : F → F → F
  eq : F → F → Bool
  lt : F → F → Bool
  le : F → F → Bool

/-- A format with a wider one, which has all its values. -/
class Widening (F D : Type) [Format F] [Format D] where
  widen : F → D
  narrow : D → F
  toInt_widen : ∀ (w : ℕ) (v : F), Format.toInt w (widen v) = Format.toInt w v

export Widening (widen narrow toInt_widen)

end MachineArithmetic
