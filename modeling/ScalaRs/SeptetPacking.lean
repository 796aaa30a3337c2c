import Mathlib.Data.Nat.Bitwise
import Mathlib.Tactic.Ring

/-! # Packing bytes into septets

The packing reads `8`-bit bytes and writes `7`-bit ones, low bits first, with up
to `7` bits carried along. -/
namespace SeptetPacking

/-- The septets of a byte sequence, when `out` holds `k` bits of the byte before it. -/
def pack (k out : ℕ) : List UInt8 → List UInt8
  | [] => if k = 0 then [] else [UInt8.ofNat out]
  | b :: bs => UInt8.ofNat (out ||| (b.toNat <<< k) &&& 0x7f) ::
      if k = 6 then UInt8.ofNat (b.toNat >>> 1) :: pack 0 0 bs
      else pack (k + 1) (b.toNat >>> (7 - k)) bs

/-- The bytes of a septet sequence, when `out` holds the bits of the septet
before it that start a byte, `k` bits being still to come. -/
def unpack (k out : ℕ) : List UInt8 → List UInt8
  | [] => []
  | s :: ss => if k = 0 then unpack 1 s.toNat ss
      else UInt8.ofNat (out ||| (s.toNat &&& (2 ^ k - 1)) <<< (8 - k)) ::
        if k = 7 then unpack 0 0 ss else unpack (k + 1) (s.toNat >>> k) ss

theorem length_pack (bs : List UInt8) : ∀ {k : ℕ} (_ : k ≤ 6) (out : ℕ),
    (pack k out bs).length = (k + 8 * bs.length + 6) / 7 := by
  induction bs with
  | nil =>
    intro k hk out
    rw [pack]
    split <;> simp <;> omega
  | cons b bs ih =>
    intro k hk out
    rw [pack]
    split
    · simp only [List.length_cons, ih (Nat.zero_le 6)]
      omega
    · simp only [List.length_cons, ih (show k + 1 ≤ 6 by omega)]
      omega

/-- Without a septet before it, as with `k` bits to come, `8 - k` bits are there. -/
theorem length_unpack_from (ss : List UInt8) : ∀ {k : ℕ} (_ : k ≤ 7) (out : ℕ),
    (unpack k out ss).length = ((8 - k) % 8 + 7 * ss.length) / 8 := by
  induction ss with
  | nil =>
    intro k hk out
    simp [unpack]
  | cons s ss ih =>
    intro k hk out
    rw [unpack]
    split
    · rw [ih (by omega), List.length_cons]
      omega
    · split
      · simp only [List.length_cons, ih (Nat.zero_le 7)]
        omega
      · simp only [List.length_cons, ih (show k + 1 ≤ 7 by omega)]
        omega

theorem length_unpack (ss : List UInt8) : (unpack 0 0 ss).length = ss.length * 7 / 8 := by
  rw [length_unpack_from ss (Nat.zero_le 7)]
  omega

theorem shift_and_septet {k : ℕ} (hk : k ≤ 7) (y : ℕ) :
    (y <<< k) &&& 0x7f = 2 ^ k * (y % 2 ^ (7 - k)) := by
  have hpow : 2 ^ k * 2 ^ (7 - k) = 2 ^ 7 := by rw [← pow_add, Nat.add_sub_cancel' hk]
  rw [show 0x7f = 2 ^ 7 - 1 from rfl, Nat.and_two_pow_sub_one_eq_mod, Nat.shiftLeft_eq,
    Nat.mul_comm, ← hpow, Nat.mul_mod_mul_left]

theorem septet_eq {k out : ℕ} (hk : k ≤ 7) (hout : out < 2 ^ k) (y : ℕ) :
    out ||| (y <<< k) &&& 0x7f = 2 ^ k * (y % 2 ^ (7 - k)) + out := by
  rw [shift_and_septet hk, Nat.two_pow_add_eq_or_of_lt hout, Nat.or_comm]

theorem byte_eq {k out : ℕ} (hout : out < 2 ^ (8 - k)) (s : ℕ) :
    out ||| (s &&& (2 ^ k - 1)) <<< (8 - k) = 2 ^ (8 - k) * (s % 2 ^ k) + out := by
  rw [Nat.and_two_pow_sub_one_eq_mod, Nat.shiftLeft_eq, Nat.mul_comm (s % 2 ^ k),
    Nat.two_pow_add_eq_or_of_lt hout, Nat.or_comm]

theorem septet_lt {k out : ℕ} (hk : k ≤ 7) (hout : out < 2 ^ k) (y : ℕ) :
    2 ^ k * (y % 2 ^ (7 - k)) + out < 128 := by
  have hy : y % 2 ^ (7 - k) < 2 ^ (7 - k) := Nat.mod_lt _ (Nat.two_pow_pos _)
  calc 2 ^ k * (y % 2 ^ (7 - k)) + out
      < 2 ^ k * (y % 2 ^ (7 - k) + 1) := by rw [Nat.mul_add_one]; omega
    _ ≤ 2 ^ k * 2 ^ (7 - k) := Nat.mul_le_mul_left _ hy
    _ = 2 ^ 7 := by rw [← pow_add, Nat.add_sub_cancel' hk]

theorem shift_lt {b : UInt8} {k : ℕ} (hk : k ≤ 8) : b.toNat >>> (8 - k) < 2 ^ k := by
  rw [Nat.shiftRight_eq_div_pow, Nat.div_lt_iff_lt_mul (Nat.two_pow_pos _), ← pow_add,
    Nat.add_sub_cancel' hk]
  exact b.toNat_lt

theorem toNat_ofNat {n : ℕ} (h : n < 256) : (UInt8.ofNat n).toNat = n :=
  UInt8.toNat_ofNat_of_lt' h

theorem toNat_septet {k out : ℕ} (hk : k ≤ 7) (hout : out < 2 ^ k) (y : ℕ) :
    (UInt8.ofNat (out ||| (y <<< k) &&& 0x7f)).toNat = 2 ^ k * (y % 2 ^ (7 - k)) + out := by
  have hlt := septet_lt hk hout y
  rw [septet_eq hk hout, toNat_ofNat (by omega)]

theorem pack_lt (bs : List UInt8) : ∀ {k out : ℕ}, k ≤ 6 → out < 2 ^ k →
    ∀ s ∈ pack k out bs, s < 0x80 := by
  have hbound : ∀ {k out : ℕ}, k ≤ 7 → out < 2 ^ k → UInt8.ofNat out < 0x80 := by
    intro k out hk hout
    have hlt : out < 128 := hout.trans_le (Nat.pow_le_pow_right (by decide) hk)
    rw [UInt8.lt_iff_toNat_lt, toNat_ofNat (by omega)]
    exact hlt
  induction bs with
  | nil =>
    intro k out hk hout s hs
    rw [pack] at hs
    split at hs
    · simp at hs
    · rw [List.mem_singleton.mp hs]
      exact hbound (by omega) hout
  | cons b bs ih =>
    intro k out hk hout s hs
    rw [pack] at hs
    rcases List.mem_cons.mp hs with rfl | hs
    · rw [UInt8.lt_iff_toNat_lt, toNat_septet (by omega) hout]
      exact septet_lt (by omega) hout _
    · split at hs
      · rcases List.mem_cons.mp hs with rfl | hs
        · exact hbound (le_refl 7) (shift_lt (b := b) (k := 7) (by decide))
        · exact ih (Nat.zero_le 6) (by decide) s hs
      · have hout' : b.toNat >>> (7 - k) < 2 ^ (k + 1) := by
          rw [show 7 - k = 8 - (k + 1) by omega]
          exact shift_lt (by omega)
        exact ih (by omega) hout' s hs

/-- The byte that ends in this septet. -/
theorem byte_of_septet {k : ℕ} (b : UInt8) {s : ℕ}
    (hs : s % 2 ^ k = b.toNat >>> (8 - k)) :
    UInt8.ofNat (b.toNat % 2 ^ (8 - k) ||| (s &&& (2 ^ k - 1)) <<< (8 - k)) = b := by
  rw [byte_eq (Nat.mod_lt _ (Nat.two_pow_pos _)), hs, Nat.shiftRight_eq_div_pow,
    Nat.div_add_mod]
  exact UInt8.ofNat_toNat

theorem unpack_pack_from (bs : List UInt8) : unpack 0 0 (pack 0 0 bs) = bs ∧
    ∀ {k : ℕ} (_ : 1 ≤ k) (_ : k ≤ 6) (b : UInt8),
      unpack k (b.toNat % 2 ^ (8 - k)) (pack k (b.toNat >>> (8 - k)) bs) = b :: bs := by
  induction bs with
  | nil =>
    refine ⟨rfl, fun {k} hk1 hk b => ?_⟩
    have hlt := shift_lt (b := b) (show k ≤ 8 by omega)
    have hsmall : b.toNat >>> (8 - k) < 256 :=
      hlt.trans_le (Nat.pow_le_pow_right (n := 2) (by decide) (show k ≤ 8 by omega))
    rw [pack, if_neg (by omega), unpack, if_neg (by omega),
      byte_of_septet b (by rw [toNat_ofNat hsmall, Nat.mod_eq_of_lt hlt])]
    split <;> simp [unpack]
  | cons b' bs ih =>
    constructor
    · rw [pack, if_neg (by decide), unpack, if_pos rfl,
        toNat_septet (by decide) (by decide)]
      simpa using ih.2 (le_refl 1) (by decide) b'
    · intro k hk1 hk b
      have hlt := shift_lt (b := b) (show k ≤ 8 by omega)
      have hseptet := toNat_septet (show k ≤ 7 by omega) hlt b'.toNat
      have hbits : (2 ^ k * (b'.toNat % 2 ^ (7 - k)) + b.toNat >>> (8 - k)) >>> k =
          b'.toNat % 2 ^ (7 - k) := by
        rw [Nat.shiftRight_eq_div_pow, Nat.mul_add_div (Nat.two_pow_pos k), Nat.div_eq_of_lt hlt,
          Nat.add_zero]
      rw [pack, unpack, if_neg (by omega), hseptet,
        byte_of_septet b (by rw [Nat.mul_add_mod, Nat.mod_eq_of_lt hlt]), hbits,
        if_neg (by omega)]
      congr 1
      split
      · next h6 =>
        subst h6
        have hsmall : b'.toNat >>> 1 < 2 ^ 7 := shift_lt (k := 7) (by decide)
        have hbyte := byte_of_septet (k := 7) (s := (UInt8.ofNat (b'.toNat >>> 1)).toNat) b' (by
          rw [toNat_ofNat (by omega), Nat.mod_eq_of_lt hsmall])
        rw [unpack, if_neg (by decide), if_pos rfl, ih.1]
        exact congrArg (· :: bs) hbyte
      · have hnext : 7 - k = 8 - (k + 1) := by omega
        rw [hnext]
        exact ih.2 (by omega) (by omega) b'

theorem unpack_pack (bs : List UInt8) : unpack 0 0 (pack 0 0 bs) = bs := (unpack_pack_from bs).1

end SeptetPacking
