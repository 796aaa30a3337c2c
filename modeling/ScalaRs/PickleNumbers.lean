import ScalaRs.PickleReads

/-! # The numbers of a pickle

A natural number is a sequence of base-128 digits, high digits first, whose last
byte alone is below `128`. The reader shifts up to ten digits into a `u64`. -/
namespace ScalaRs.Pickling
open CheckedReaders CheckedReaders.CheckedM

/-- The value of base-128 digits after digits with value `n`. -/
def digitsFrom : ℕ → List UInt8 → ℕ
  | n, [] => n
  | n, b :: bs => digitsFrom (n * 128 + b.toNat % 128) bs

def digitsValue (bytes : List UInt8) : ℕ := digitsFrom 0 bytes

/-- The digits of one number. -/
inductive Terminated : List UInt8 → Prop
  | last {b} : b.toNat < 128 → Terminated [b]
  | cons {b bs} : 128 ≤ b.toNat → Terminated bs → Terminated (b :: bs)

/-- A number ends where its first byte below `128` is. -/
theorem Terminated.unique {digits digits' rest rest' : List UInt8} (h : Terminated digits)
    (h' : Terminated digits') (heq : digits ++ rest = digits' ++ rest') : digits = digits' := by
  induction h generalizing digits' with
  | last hb =>
    cases h' with
    | last hb' =>
      cases heq
      rfl
    | cons hb' _ =>
      cases heq
      omega
  | cons hb _ ih =>
    cases h' with
    | last hb' =>
      cases heq
      omega
    | cons hb' hbs' =>
      rw [List.cons_append, List.cons_append, List.cons.injEq] at heq
      rw [heq.1, ih hbs' heq.2]

theorem shift_in_ofNat (n : ℕ) (b : UInt8) :
    ((UInt64.ofNat n) <<< 7) ||| (b.toUInt64 &&& 0x7f) = UInt64.ofNat (n * 128 + b.toNat % 128) := by
  have hb : (b.toUInt64 &&& 0x7f).toNat = b.toNat % 128 := by
    rw [toNat_and_low, UInt8.toNat_toUInt64]
  have hshift : ((UInt64.ofNat n) <<< 7).toNat = 2 ^ 7 * (n % 2 ^ 57) := by
    rw [UInt64.toNat_shiftLeft, UInt64.toNat_ofNat', Nat.shiftLeft_eq]
    change n % 2 ^ 64 * 2 ^ 7 % 2 ^ 64 = _
    omega
  apply UInt64.toNat_inj.mp
  rw [UInt64.toNat_or, hb, hshift, ← Nat.two_pow_add_eq_or_of_lt (Nat.mod_lt _ (by decide)),
    UInt64.toNat_ofNat']
  omega

variable [Build]

theorem byte_of_rest_nil {r : Reader} (h : r.rest = []) : ∃ e, byte r = .error (.error e) :=
  ⟨_, byte_of_ge (List.drop_eq_nil_iff.mp h)⟩

/-- What the reader does with at most `fuel` more digits: it reads a number, or
there is none that short and it reports an error. -/
theorem longNatFrom_spec (fuel : ℕ) : ∀ (n : ℕ) (r : Reader),
    (∃ digits rest, r.rest = digits ++ rest ∧ Terminated digits ∧ digits.length ≤ fuel ∧
      longNatFrom fuel (.ofNat n) r =
        .ok (.ofNat (digitsFrom n digits), r.skip digits.length)) ∨
    (∀ digits rest, r.rest = digits ++ rest → Terminated digits → fuel < digits.length) ∧
      ∃ e, longNatFrom fuel (.ofNat n) r = .error (.error e) := by
  have hpos : ∀ {digits : List UInt8}, Terminated digits → 0 < digits.length := by
    intro digits h
    cases h <;> simp
  induction fuel with
  | zero => exact fun n r => .inr ⟨fun _ _ _ h => hpos h, _, rfl⟩
  | succ fuel ih =>
    intro n r
    cases hr : r.rest with
    | nil =>
      obtain ⟨e, he⟩ := byte_of_rest_nil hr
      apply Or.inr
      constructor
      · intro digits rest hd h
        rw [(List.append_eq_nil_iff.mp hd.symm).1] at h
        cases h
      · exact ⟨e, by rw [longNatFrom, bind_of_error he]⟩
    | cons b rest =>
      rw [longNatFrom_succ hr, shift_in_ofNat]
      by_cases hb : b.toNat < 128
      · rw [if_pos ((continues_iff b).mpr hb)]
        exact .inl ⟨[b], rest, rfl, .last hb, by simp, rfl⟩
      · rw [if_neg (mt (continues_iff b).mp hb)]
        have hrest : (r.skip 1).rest = rest := @Reader.rest_skip r [b] rest hr
        rcases ih (n * 128 + b.toNat % 128) (r.skip 1) with
          ⟨digits, rest', hd, hterm, hlen, hok⟩ | ⟨hlong, herr⟩
        · apply Or.inl
          rw [hrest] at hd
          exact ⟨b :: digits, rest', by rw [hd, List.cons_append], .cons (by omega) hterm,
            Nat.succ_le_succ hlen, by
              rw [hok, Reader.skip_skip, List.length_cons, Nat.add_comm 1]
              rfl⟩
        · apply Or.inr
          refine ⟨fun digits rest' hd h => ?_, herr⟩
          cases h with
          | last hb' =>
            cases hd
            omega
          | cons hb' h =>
            cases hd
            exact Nat.succ_lt_succ (hlong _ _ hrest h)

/-- An error, or the value of the digits that were read. -/
def ReadsExactly {α : Type} (p : Read α) (value : α → ℕ) (r : Reader) : Prop :=
  (∃ e, p r = .error (.error e)) ∨
    ∃ a k, p r = .ok (a, r.skip k) ∧ value a = digitsValue (r.rest.take k)

/-- A number of at most ten digits at the reader, which `longNat` reads. -/
def NumberAt (r : Reader) (digits : List UInt8) : Prop :=
  Terminated digits ∧ digits.length ≤ 10 ∧ ∃ rest, r.rest = digits ++ rest

omit [Build] in
theorem NumberAt.unique {r : Reader} {digits digits' : List UInt8} (h : NumberAt r digits)
    (h' : NumberAt r digits') : digits = digits' := by
  obtain ⟨hterm, -, rest, hr⟩ := h
  obtain ⟨hterm', -, rest', hr'⟩ := h'
  exact hterm.unique hterm' (hr.symm.trans hr')

theorem longNat_spec (r : Reader) :
    (∃ digits, NumberAt r digits ∧
      longNat r = .ok (.ofNat (digitsValue digits), r.skip digits.length)) ∨
    (∀ digits, ¬ NumberAt r digits) ∧ ∃ e, longNat r = .error (.error e) := by
  rcases longNatFrom_spec 10 0 r with ⟨digits, rest, hd, hterm, hlen, hok⟩ | ⟨hlong, herr⟩
  · exact .inl ⟨digits, ⟨hterm, hlen, rest, hd⟩, hok⟩
  · refine .inr ⟨fun digits h => ?_, herr⟩
    obtain ⟨hterm, hlen, rest, hd⟩ := h
    have hlt := hlong digits rest hd hterm
    omega

theorem longNat_of_numberAt {r : Reader} {digits : List UInt8} (h : NumberAt r digits) :
    longNat r = .ok (.ofNat (digitsValue digits), r.skip digits.length) := by
  rcases longNat_spec r with ⟨digits', h', hok⟩ | ⟨hnone, -⟩
  · rw [h.unique h', hok]
  · exact absurd h (hnone digits)

omit [Build] in
/-- A reader that returns the number at hand is exact when that number is the value. -/
theorem readsExactly_iff {α : Type} {p : Read α} {value : α → ℕ} {r : Reader}
    {digits : List UInt8} {a : α} (h : NumberAt r digits) (hok : p r = .ok (a, r.skip digits.length)) :
    ReadsExactly p value r ↔ value a = digitsValue digits := by
  obtain ⟨-, -, rest, hr⟩ := h
  have htake : r.rest.take digits.length = digits := by rw [hr, List.take_left]
  constructor
  · rintro (⟨e, he⟩ | ⟨a', k, hok', hvalue⟩)
    · rw [hok] at he
      cases he
    · rw [hok] at hok'
      injection hok' with hpair
      obtain ⟨rfl, hskip⟩ := Prod.mk.inj hpair
      have hk : digits.length = k := Nat.add_left_cancel (congrArg Reader.pos hskip)
      rw [hvalue, ← hk, htake]
  · intro hvalue
    exact .inr ⟨a, digits.length, hok, by rw [htake, hvalue]⟩

theorem longNat_exact_iff (r : Reader) : ReadsExactly longNat UInt64.toNat r ↔
    ∀ digits, NumberAt r digits → digitsValue digits < 2 ^ 64 := by
  rcases longNat_spec r with ⟨digits, h, hok⟩ | ⟨hnone, herr⟩
  · rw [readsExactly_iff h hok, UInt64.toNat_ofNat']
    constructor
    · intro hvalue digits' h'
      rw [← h.unique h']
      omega
    · exact fun hlt => Nat.mod_eq_of_lt (hlt digits h)
  · exact iff_of_true (.inl herr) fun digits h => absurd h (hnone digits)

theorem nat_exact_iff (r : Reader) : ReadsExactly nat UInt32.toNat r ↔
    ∀ digits, NumberAt r digits → digitsValue digits % 2 ^ 64 < 2 ^ 32 →
      digitsValue digits < 2 ^ 64 := by
  rcases longNat_spec r with ⟨digits, h, hok⟩ | ⟨hnone, e, herr⟩
  · have hv : (UInt64.ofNat (digitsValue digits)).toNat = digitsValue digits % 2 ^ 64 :=
      UInt64.toNat_ofNat'
    by_cases hfits : digitsValue digits % 2 ^ 64 < 2 ^ 32
    · have hnat : nat r = .ok ((UInt64.ofNat (digitsValue digits)).toUInt32,
          r.skip digits.length) := by
        rw [nat, bind_of_ok hok, if_neg]
        · rfl
        · rw [gt_iff_lt, UInt64.lt_iff_toNat_lt, hv]
          change ¬ 0xffffffff < _
          omega
      rw [readsExactly_iff h hnat, UInt64.toNat_toUInt32, hv]
      constructor
      · intro hvalue digits' h' _
        rw [← h.unique h']
        omega
      · intro hlt
        have := hlt digits h hfits
        omega
    · have hnat : ∃ e, nat r = .error (.error e) := by
        rw [nat, bind_of_ok hok, if_pos]
        · exact ⟨_, rfl⟩
        · rw [gt_iff_lt, UInt64.lt_iff_toNat_lt, hv]
          change 0xffffffff < _
          omega
      apply iff_of_true (.inl hnat)
      intro digits' h' hfits'
      rw [← h.unique h'] at hfits'
      exact absurd hfits' hfits
  · have hnat : nat r = .error (.error e) := by rw [nat, bind_of_error herr]
    exact iff_of_true (.inl ⟨e, hnat⟩) fun digits h => absurd h (hnone digits)

/-- Both readers are exact where the ten digits they accept fit into a `u64`. -/
theorem numbers_exact_iff (r : Reader) :
    (ReadsExactly longNat UInt64.toNat r ↔
      ∀ digits, NumberAt r digits → digitsValue digits < 2 ^ 64) ∧
    (ReadsExactly nat UInt32.toNat r ↔
      ∀ digits, NumberAt r digits → digitsValue digits % 2 ^ 64 < 2 ^ 32 →
        digitsValue digits < 2 ^ 64) :=
  ⟨longNat_exact_iff r, nat_exact_iff r⟩

/-- Ten digits with value `2 ^ 64`. -/
def overlongZero : Slice := ⟨[0x82, 0x80, 0x80, 0x80, 0x80, 0x80, 0x80, 0x80, 0x80, 0x00], by decide⟩

omit [Build] in
/-- The number `2 ^ 64` is read as `0`. -/
theorem overlong_read_as_zero : ¬ ∀ (_ : Build) (bytes : Slice),
    ReadsExactly longNat UInt64.toNat (.new bytes) ∧
      ReadsExactly nat UInt32.toNat (.new bytes) := by
  intro h
  have hterm : Terminated overlongZero.bytes := by
    apply Terminated.cons (by decide)
    iterate 8 apply Terminated.cons (by decide)
    exact .last (by decide)
  have hexact := (@nat_exact_iff ⟨false⟩ _).mp (h ⟨false⟩ overlongZero).2
  have hlt := hexact overlongZero.bytes ⟨hterm, by decide, [], rfl⟩ (by decide)
  exact absurd hlt (by decide)

/-- What the writers write is read back, whatever follows it. -/
theorem numbers_read_back :
    (∀ (out : List UInt8) (x : UInt64), ∃ enc, writeLongNatTo out x = out ++ enc ∧
      Reads longNat enc x) ∧
    (∀ (out : List UInt8) (x : BitVec 64), ∃ enc, writeLongSigned256 out x.toInt = out ++ enc ∧
      1 ≤ enc.length ∧ enc.length ≤ 8 ∧ Reads (long enc.length) enc x) := by
  constructor
  · intro out x
    exact ⟨_, writeLongNatTo_eq out x, reads_longNat x⟩
  · intro out x
    have hlow := x.le_toInt
    have hhigh := x.toInt_lt
    refine ⟨_, writeLongSigned256_eq x.toInt out, length_writeLongSigned_pos x.toInt,
      length_writeLongSigned_le 7 x.toInt (by simpa using hlow) (by simpa using hhigh), ?_⟩
    have hread := reads_long (by simpa using hlow) (by simpa using hhigh)
    rwa [BitVec.ofInt_toInt] at hread

end ScalaRs.Pickling
