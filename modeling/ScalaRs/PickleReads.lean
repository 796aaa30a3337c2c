import ScalaRs.PickleReaderSafety
import ScalaRs.PickleWriter
import ScalaRs.SeptetPacking
import Mathlib.Data.Nat.Bitwise
import Mathlib.Tactic.NormNum

/-! # Reading back what was written

`Reads p enc a`: in front of the bytes `enc`, whatever comes after them, `p`
reads exactly these bytes and returns `a`. -/
namespace ScalaRs.Pickling
open CheckedReaders CheckedReaders.CheckedM

/-- The bytes still to be read. -/
def Reader.rest (r : Reader) : List UInt8 := r.bytes.bytes.drop r.pos

def Reader.skip (r : Reader) (k : ℕ) : Reader := { r with pos := r.pos + k }

theorem Reader.rest_skip {r : Reader} {enc rest : List UInt8} (h : r.rest = enc ++ rest) :
    (r.skip enc.length).rest = rest := by
  rw [Reader.rest] at h ⊢
  change r.bytes.bytes.drop (r.pos + enc.length) = rest
  rw [← List.drop_drop, h, List.drop_left]

theorem Reader.skip_skip (r : Reader) (j k : ℕ) : (r.skip j).skip k = r.skip (j + k) := by
  simp [Reader.skip, Nat.add_assoc]

def Reads {α : Type} (p : Read α) (enc : List UInt8) (a : α) : Prop :=
  ∀ r rest, r.rest = enc ++ rest → p r = .ok (a, r.skip enc.length)

/-- As `Reads`, for a reader that is given where the bytes end. -/
def ReadsTo {α : Type} (p : ℕ → Read α) (enc : List UInt8) (a : α) : Prop :=
  ∀ r rest, r.rest = enc ++ rest → p (r.pos + enc.length) r = .ok (a, r.skip enc.length)

variable {α β : Type}

theorem Reads.pure (a : α) : Reads (Pure.pure a) [] a := fun _ _ _ => rfl

theorem Reads.bind {p : Read α} {f : α → Read β} {enc enc' : List UInt8} {a : α} {b : β}
    (hp : Reads p enc a) (hf : Reads (f a) enc' b) : Reads (p >>= f) (enc ++ enc') b := by
  intro r rest h
  rw [List.append_assoc] at h
  rw [bind_of_ok (hp r _ h), hf _ rest (Reader.rest_skip h), Reader.skip_skip, List.length_append]

theorem Reads.map {p : Read α} {enc : List UInt8} {a : α} (h : Reads p enc a) (f : α → β) :
    Reads (f <$> p) enc (f a) := fun r rest hr => map_of_ok (h r rest hr)

theorem Reads.to {p : Read α} {enc : List UInt8} {a : α} (h : Reads p enc a) :
    ReadsTo (fun _ => p) enc a := h

theorem ReadsTo.bind {p : Read α} {f : ℕ → α → Read β} {enc enc' : List UInt8} {a : α} {b : β}
    (hp : Reads p enc a) (hf : ReadsTo (fun fin => f fin a) enc' b) :
    ReadsTo (fun fin => p >>= f fin) (enc ++ enc') b := by
  intro r rest h
  rw [List.append_assoc] at h
  have hrest := hf _ rest (Reader.rest_skip h)
  have hfin : r.pos + (enc ++ enc').length = (r.skip enc.length).pos + enc'.length := by
    simp [Reader.skip, Nat.add_assoc]
  change (p >>= f (r.pos + (enc ++ enc').length)) r = _
  rw [bind_of_ok (hp r _ h), hfin, List.length_append, ← Reader.skip_skip]
  exact hrest

theorem ReadsTo.map {p : ℕ → Read α} {enc : List UInt8} {a : α} (h : ReadsTo p enc a) (f : α → β) :
    ReadsTo (fun fin => p fin >>= fun a => Pure.pure (f a)) enc (f a) :=
  fun r rest hr => bind_of_ok (h r rest hr)

/-! ## Base-128 numbers -/

theorem writeDigitsTo_eq (x : UInt64) : ∀ out, writeDigitsTo out x = out ++ writeDigitsTo [] x := by
  induction h : x.toNat using Nat.strongRecOn generalizing x with
  | ind n ih =>
    intro out
    rw [writeDigitsTo.eq_def out, writeDigitsTo.eq_def []]
    simp only
    split
    · next hy =>
      have hlt := shift_seven_lt hy
      rw [ih _ (by omega) (x >>> 7) rfl out, List.append_assoc]
    · rfl

theorem writeLongNatTo_eq (out : List UInt8) (x : UInt64) :
    writeLongNatTo out x = out ++ writeLongNatTo [] x := by
  simp only [writeLongNatTo]
  split
  · rw [writeDigitsTo_eq _ out, List.append_assoc]
  · simp

theorem writeNatTo_eq (out : List UInt8) (x : UInt32) : writeNatTo out x = out ++ writeNatTo [] x :=
  writeLongNatTo_eq out x.toUInt64

/-- The digits before the last one. -/
def highDigits (x : UInt64) : List UInt8 := if x >>> 7 ≠ 0 then writeDigitsTo [] (x >>> 7) else []

theorem writeDigitsTo_nil (x : UInt64) :
    writeDigitsTo [] x = highDigits x ++ [((x &&& 0x7f) ||| 0x80).toUInt8] := by
  rw [writeDigitsTo, highDigits]
  rfl

theorem writeLongNatTo_nil (x : UInt64) :
    writeLongNatTo [] x = highDigits x ++ [(x &&& 0x7f).toUInt8] := rfl

theorem toNat_and_low (x : UInt64) : (x &&& 0x7f).toNat = x.toNat % 128 := by
  rw [UInt64.toNat_and]
  exact Nat.and_two_pow_sub_one_eq_mod x.toNat 7

theorem toNat_digit (x : UInt64) : ((x &&& 0x7f).toUInt8).toNat = x.toNat % 128 := by
  rw [UInt64.toNat_toUInt8, toNat_and_low]
  omega

theorem toNat_continued (x : UInt64) :
    (((x &&& 0x7f) ||| 0x80).toUInt8).toNat = x.toNat % 128 + 128 := by
  have hlow := toNat_and_low x
  have hor : (x &&& 0x7f).toNat ||| 128 = 128 + (x &&& 0x7f).toNat := by
    rw [Nat.or_comm]
    exact (Nat.two_pow_add_eq_or_of_lt (i := 7) (by omega) 1).symm
  rw [UInt64.toNat_toUInt8, UInt64.toNat_or]
  change ((x &&& 0x7f).toNat ||| 128) % 256 = _
  omega

/-- Shifting in the last seven bits. -/
theorem shift_in_digit {x : UInt64} {b : UInt8} (h : b.toNat % 128 = x.toNat % 128) :
    ((x >>> 7) <<< 7) ||| (b.toUInt64 &&& 0x7f) = x := by
  have hb : (b.toUInt64 &&& 0x7f).toNat = x.toNat % 128 := by
    rw [toNat_and_low, UInt8.toNat_toUInt64, h]
  have hx : ((x >>> 7) <<< 7).toNat = 2 ^ 7 * (x.toNat / 128) := by
    have hlt := x.toNat_lt
    rw [UInt64.toNat_shiftLeft, toNat_shift_seven, Nat.shiftLeft_eq]
    change x.toNat / 128 * 2 ^ 7 % 2 ^ 64 = _
    omega
  apply UInt64.toNat_inj.mp
  rw [UInt64.toNat_or, hb, hx, ← Nat.two_pow_add_eq_or_of_lt (Nat.mod_lt _ (by decide))]
  omega

theorem continues_iff (b : UInt8) : b.toUInt64 &&& 0x80 = 0 ↔ b.toNat < 128 := by
  have hb := b.toNat_lt
  have hand : b.toNat &&& 2 ^ 7 = (b.toNat.testBit 7).toNat * 2 ^ 7 := Nat.and_two_pow _ 7
  rw [Nat.testBit_eq_decide_div_mod_eq] at hand
  rw [← UInt64.toNat_inj, UInt64.toNat_and, UInt8.toNat_toUInt64]
  change b.toNat &&& 2 ^ 7 = 0 ↔ _
  rw [hand]
  by_cases hbit : b.toNat / 2 ^ 7 % 2 = 1
  · simp
    omega
  · simp
    omega

theorem length_highDigits_le (k : ℕ) : ∀ x : UInt64, x.toNat < 128 ^ (k + 1) →
    (highDigits x).length ≤ k := by
  induction k with
  | zero =>
    intro x hx
    have hy : x >>> 7 = 0 := by
      apply UInt64.toNat_inj.mp
      rw [toNat_shift_seven]
      exact Nat.div_eq_of_lt hx
    simp [highDigits, hy]
  | succ k ih =>
    intro x hx
    rw [highDigits]
    split
    · have hy : (x >>> 7).toNat < 128 ^ (k + 1) := by
        rw [toNat_shift_seven, Nat.div_lt_iff_lt_mul (by decide)]
        exact hx
      have hlen := ih _ hy
      rw [writeDigitsTo_nil, List.length_append, List.length_singleton]
      omega
    · exact Nat.zero_le _

/-! ## Big-endian constants -/

theorem writeLongSigned_stop {x : ℤ} (h : -(x / 256) = x % 256 / 128) :
    writeLongSigned256 [] x = [UInt8.ofNat (x % 256).toNat] := by
  rw [writeLongSigned256]
  simp [h]

theorem writeLongSigned256_eq (x : ℤ) : ∀ out,
    writeLongSigned256 out x = out ++ writeLongSigned256 [] x := by
  induction h : x.natAbs using Nat.strongRecOn generalizing x with
  | ind n ih =>
    intro out
    rw [writeLongSigned256.eq_def out, writeLongSigned256.eq_def []]
    simp only
    split
    · rw [ih _ (by omega) (x / 256) rfl out, List.append_assoc]
    · rfl

theorem writeLongSigned_continue {x : ℤ} (h : -(x / 256) ≠ x % 256 / 128) :
    writeLongSigned256 [] x =
      writeLongSigned256 [] (x / 256) ++ [UInt8.ofNat (x % 256).toNat] := by
  rw [writeLongSigned256.eq_def]
  simp only [ne_eq, h, not_false_eq_true, if_true]

theorem length_writeLongSigned_pos (x : ℤ) : 0 < (writeLongSigned256 [] x).length := by
  rw [writeLongSigned256]
  simp

theorem two_pow_succ_byte (k : ℕ) : (2 : ℤ) ^ (8 * (k + 1) + 7) = 256 * 2 ^ (8 * k + 7) := by
  rw [show 8 * (k + 1) + 7 = 8 + (8 * k + 7) by omega, Int.pow_add]
  rfl

/-- `k + 1` bytes suffice for a number of `8 * k + 7` bits and a sign. -/
theorem length_writeLongSigned_le (k : ℕ) : ∀ x : ℤ, -2 ^ (8 * k + 7) ≤ x → x < 2 ^ (8 * k + 7) →
    (writeLongSigned256 [] x).length ≤ k + 1 := by
  induction k with
  | zero =>
    intro x hlow hhigh
    rw [writeLongSigned_stop (by simp at hlow hhigh; omega)]
    simp
  | succ k ih =>
    intro x hlow hhigh
    rw [two_pow_succ_byte] at hlow hhigh
    by_cases hstop : -(x / 256) = x % 256 / 128
    · rw [writeLongSigned_stop hstop]
      simp
    · have hlen := ih (x / 256) (by omega) (by omega)
      rw [writeLongSigned_continue hstop, List.length_append, List.length_singleton]
      omega

/-- The value of big-endian bytes. -/
def bigEndian (bytes : List UInt8) : ℕ := bytes.foldl (fun n b => n * 256 + b.toNat) 0

theorem emod_mul_byte (x m : ℤ) (hm : 0 < m) : x % (256 * m) = x / 256 % m * 256 + x % 256 := by
  have hdigit := Int.emod_nonneg x (show (256 : ℤ) ≠ 0 by decide)
  have hdigit' := Int.emod_lt_of_pos x (show (0 : ℤ) < 256 by decide)
  have hhigh := Int.emod_nonneg (x / 256) (Int.ne_of_gt hm)
  have hhigh' := Int.emod_lt_of_pos (x / 256) hm
  have hsplit : x = x / 256 % m * 256 + x % 256 + 256 * m * (x / 256 / m) := by
    have h := Int.emod_add_mul_ediv (x / 256) m
    have h' := Int.emod_add_mul_ediv x 256
    rw [Int.mul_assoc]
    omega
  conv_lhs => rw [hsplit]
  rw [Int.add_mul_emod_self_left]
  apply Int.emod_eq_of_lt (by omega)
  omega

/-- The bytes written hold the value, within their width. -/
theorem writeLongSigned_spec (k : ℕ) : ∀ x : ℤ, (writeLongSigned256 [] x).length = k + 1 →
    -2 ^ (8 * k + 7) ≤ x ∧ x < 2 ^ (8 * k + 7) ∧
      (bigEndian (writeLongSigned256 [] x) : ℤ) = x % (2 * 2 ^ (8 * k + 7)) := by
  have hbyte : ∀ x : ℤ, (((UInt8.ofNat (x % 256).toNat).toNat : ℕ) : ℤ) = x % 256 := by
    intro x
    rw [SeptetPacking.toNat_ofNat (by omega)]
    omega
  induction k with
  | zero =>
    intro x hlen
    by_cases hstop : -(x / 256) = x % 256 / 128
    · rw [writeLongSigned_stop hstop]
      simp only [bigEndian, List.foldl_cons, List.foldl_nil, Nat.zero_mul, Nat.zero_add, hbyte]
      norm_num
      omega
    · have hpos := length_writeLongSigned_pos (x / 256)
      rw [writeLongSigned_continue hstop, List.length_append, List.length_singleton] at hlen
      omega
  | succ k ih =>
    intro x hlen
    by_cases hstop : -(x / 256) = x % 256 / 128
    · rw [writeLongSigned_stop hstop] at hlen
      simp at hlen
    · rw [writeLongSigned_continue hstop] at hlen ⊢
      obtain ⟨hlow, hhigh, hvalue⟩ := ih (x / 256) (by simpa using hlen)
      rw [two_pow_succ_byte]
      refine ⟨by omega, by omega, ?_⟩
      have hfold : (bigEndian (writeLongSigned256 [] (x / 256) ++ [UInt8.ofNat (x % 256).toNat]) : ℤ)
          = bigEndian (writeLongSigned256 [] (x / 256)) * 256 + x % 256 := by
        have hlow := hbyte x
        simp only [bigEndian, List.foldl_append, List.foldl_cons, List.foldl_nil]
        omega
      rw [hfold, hvalue, show 2 * (256 * 2 ^ (8 * k + 7)) = 256 * (2 * 2 ^ (8 * k + 7) : ℤ) by omega,
        emod_mul_byte]
      exact Int.mul_pos (by decide) (Int.pow_pos (by decide))

/-! ## Reading numbers -/

variable [Build]

theorem reads_byte (b : UInt8) : Reads byte [b] b := by
  intro r rest h
  have hb : r.bytes.bytes[r.pos]? = some b := by
    rw [← Nat.add_zero r.pos, ← List.getElem?_drop]
    change r.rest[0]? = some b
    rw [h]
    rfl
  exact byte_of_lt hb

theorem longNatFrom_succ {fuel : ℕ} {acc : UInt64} {b : UInt8} {r : Reader} {rest : List UInt8}
    (h : r.rest = b :: rest) : longNatFrom (fuel + 1) acc r =
      if b.toUInt64 &&& 0x80 = 0 then .ok ((acc <<< 7) ||| (b.toUInt64 &&& 0x7f), r.skip 1)
      else longNatFrom fuel ((acc <<< 7) ||| (b.toUInt64 &&& 0x7f)) (r.skip 1) := by
  rw [longNatFrom, bind_of_ok (reads_byte b r rest h)]
  split <;> rfl

/-- The digits before the last leave the reader with their value. -/
theorem longNatFrom_highDigits (x : UInt64) : ∀ fuel r rest, r.rest = highDigits x ++ rest →
    longNatFrom (fuel + (highDigits x).length) 0 r =
      longNatFrom fuel (x >>> 7) (r.skip (highDigits x).length) := by
  induction h : x.toNat using Nat.strongRecOn generalizing x with
  | ind n ih =>
    intro fuel r rest hr
    rw [highDigits] at hr ⊢
    split at hr
    · next hy =>
      have hlt := shift_seven_lt hy
      have hdigit := toNat_continued (x >>> 7)
      rw [if_pos hy, writeDigitsTo_nil, List.length_append, List.length_singleton, ← Nat.add_assoc,
        Nat.add_right_comm, ← Reader.skip_skip]
      rw [writeDigitsTo_nil, List.append_assoc] at hr
      rw [ih _ (by omega) (x >>> 7) rfl (fuel + 1) r _ hr,
        longNatFrom_succ (Reader.rest_skip hr), shift_in_digit (by omega), if_neg]
      rw [continues_iff]
      omega
    · next hy =>
      have hzero : x >>> 7 = 0 := Decidable.not_not.mp hy
      rw [if_neg hy, hzero]
      rfl

theorem reads_longNat (x : UInt64) : Reads longNat (writeLongNatTo [] x) x := by
  intro r rest h
  have hlen := length_highDigits_le 9 x (Nat.lt_trans x.toNat_lt (by decide))
  have hdigit := toNat_digit x
  obtain ⟨fuel, hfuel⟩ : ∃ fuel, 10 = fuel + 1 + (highDigits x).length :=
    ⟨9 - (highDigits x).length, by omega⟩
  rw [writeLongNatTo_nil, List.append_assoc] at h
  rw [longNat, hfuel, longNatFrom_highDigits x (fuel + 1) r _ h,
    longNatFrom_succ (Reader.rest_skip h), shift_in_digit (by omega), if_pos, Reader.skip_skip,
    writeLongNatTo_nil, List.length_append, List.length_singleton]
  rw [continues_iff]
  omega

theorem reads_nat (x : UInt32) : Reads nat (writeNatTo [] x) x := by
  intro r rest h
  have hlong := reads_longNat x.toUInt64 r rest h
  rw [nat, bind_of_ok hlong, if_neg]
  · rw [UInt32.toUInt32_toUInt64]
    rfl
  · have hx := x.toNat_lt
    rw [gt_iff_lt, UInt64.lt_iff_toNat_lt, UInt32.toNat_toUInt64]
    change ¬ 0xffffffff < x.toNat
    omega

/-! ## Reading constants -/

omit [Build] in
theorem bigEndian_concat (bytes : List UInt8) (b : UInt8) :
    bigEndian (bytes ++ [b]) = bigEndian bytes * 256 + b.toNat := by
  simp [bigEndian]

omit [Build] in
theorem or_low_byte (n : ℕ) (b : UInt8) :
    (BitVec.ofNat 64 n <<< 8) ||| b.toBitVec.setWidth 64 = BitVec.ofNat 64 (n * 256 + b.toNat) := by
  have hb := b.toNat_lt
  apply BitVec.eq_of_toNat_eq
  have hlow : (b.toBitVec.setWidth 64).toNat = b.toNat := by
    rw [BitVec.toNat_setWidth, UInt8.toNat_toBitVec]
    omega
  have hhigh : (BitVec.ofNat 64 n <<< 8).toNat = 2 ^ 8 * (n % 2 ^ 56) := by
    rw [BitVec.toNat_shiftLeft, BitVec.toNat_ofNat, Nat.shiftLeft_eq]
    omega
  rw [BitVec.toNat_or, hlow, hhigh, ← Nat.two_pow_add_eq_or_of_lt hb, BitVec.toNat_ofNat]
  omega

theorem reads_longBytes (bytes : List UInt8) : ∀ n : ℕ,
    Reads (longBytes bytes.length (BitVec.ofNat 64 n)) bytes
      (BitVec.ofNat 64 (bytes.foldl (fun n b => n * 256 + b.toNat) n)) := by
  induction bytes with
  | nil => exact fun n => Reads.pure _
  | cons b bytes ih =>
    intro n
    rw [← List.singleton_append]
    apply Reads.bind (reads_byte b)
    rw [or_low_byte]
    exact ih (n * 256 + b.toNat)

omit [Build] in
theorem signExtend_ofNat {k N : ℕ} {x : ℤ} (hk : k < 8) (hlow : -2 ^ (8 * k + 7) ≤ x)
    (hhigh : x < 2 ^ (8 * k + 7)) (hvalue : (N : ℤ) = x % (2 * 2 ^ (8 * k + 7))) :
    signExtend (k + 1) (BitVec.ofNat 64 N) = BitVec.ofInt 64 x := by
  have hpow : (2 : ℤ) ^ (8 * k + 7) * 2 ^ (64 - 8 * (k + 1)) = 2 ^ 63 := by
    rw [← Int.pow_add]
    congr 1
    omega
  rw [signExtend]
  generalize 64 - 8 * (k + 1) = s at hpow
  generalize (2 : ℤ) ^ (8 * k + 7) = m at hpow hlow hhigh hvalue
  have hs : (0 : ℤ) < 2 ^ s := Int.pow_pos (by decide)
  have hm : m ≤ 2 ^ 63 := by
    calc m = m * 1 := (Int.mul_one m).symm
      _ ≤ m * 2 ^ s := Int.mul_le_mul_of_nonneg_left (by omega) (by omega)
      _ = 2 ^ 63 := hpow
  have hlt := Int.emod_lt_of_pos x (show 0 < 2 * m by omega)
  have hN : N % 2 ^ 64 = N := Nat.mod_eq_of_lt (by omega)
  have hshifted : (N : ℤ) * 2 ^ s = x * 2 ^ s + (2 ^ 64 : ℕ) * -(x / (2 * m)) := by
    have hdiv := Int.emod_add_mul_ediv x (2 * m)
    rw [hvalue, show x % (2 * m) = x - 2 * m * (x / (2 * m)) by omega, Int.sub_mul]
    rw [show ((2 ^ 64 : ℕ) : ℤ) = 2 * (m * 2 ^ s) by rw [hpow]; rfl]
    grind
  have hbounds : -2 ^ 63 ≤ x * 2 ^ s ∧ x * 2 ^ s < 2 ^ 63 := by
    rw [← hpow, ← Int.neg_mul]
    exact ⟨Int.mul_le_mul_of_nonneg_right hlow (by omega), Int.mul_lt_mul_of_pos_right hhigh hs⟩
  have hleft : ((BitVec.ofNat 64 N) <<< s).toInt = x * 2 ^ s := by
    rw [BitVec.toInt_shiftLeft, BitVec.toNat_ofNat, hN, Nat.shiftLeft_eq, Int.natCast_mul,
      Int.natCast_pow]
    change ((N : ℤ) * 2 ^ s).bmod (2 ^ 64) = _
    rw [hshifted, Int.add_mul_bmod_self_left, Int.bmod_eq_of_le_mul_two (by omega) (by omega)]
  apply BitVec.toInt_inj.mp
  rw [BitVec.toInt_sshiftRight, hleft, Int.shiftRight_eq_div_pow, BitVec.toInt_ofInt,
    Int.bmod_eq_of_le_mul_two (by omega) (by omega), Int.natCast_pow]
  exact Int.mul_ediv_cancel x (by omega)

theorem reads_long {x : ℤ} (hlow : -2 ^ 63 ≤ x) (hhigh : x < 2 ^ 63) :
    Reads (long (writeLongSigned256 [] x).length) (writeLongSigned256 [] x) (BitVec.ofInt 64 x) := by
  have hlen := length_writeLongSigned_le 7 x hlow hhigh
  obtain ⟨k, hk⟩ : ∃ k, (writeLongSigned256 [] x).length = k + 1 :=
    Nat.exists_eq_succ_of_ne_zero (Nat.ne_of_gt (length_writeLongSigned_pos x))
  obtain ⟨hlow', hhigh', hvalue⟩ := writeLongSigned_spec k x hk
  rw [long_of_pos (length_writeLongSigned_pos x) hlen]
  have hread := (reads_longBytes (writeLongSigned256 [] x) 0).map
    (signExtend (writeLongSigned256 [] x).length)
  rw [hk] at hread ⊢
  rw [← signExtend_ofNat (by omega) hlow' hhigh' hvalue]
  exact hread

theorem readsTo_readLong {x : ℤ} (hlow : -2 ^ 63 ≤ x) (hhigh : x < 2 ^ 63) :
    ReadsTo readLong (writeLongSigned256 [] x) (BitVec.ofInt 64 x) := by
  intro r rest h
  rw [readLong_of_le (Nat.le_add_right _ _), Nat.add_sub_cancel_left]
  exact reads_long hlow hhigh r rest h

end ScalaRs.Pickling
