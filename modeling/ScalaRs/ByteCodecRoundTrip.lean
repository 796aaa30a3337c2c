import ScalaRs.ByteCodecs
import ScalaRs.SeptetPacking

/-! # Decoding what was encoded

Each loop is the packing, or the unpacking, of what is left to read; both
in-place loops read ahead of what they write. -/
namespace ScalaRs.Pickling.ByteCodecs
open BufferPrograms BufferPrograms.BufferM SeptetPacking

variable {γ : Type}

@[simp] theorem readInt_bind (i : ℕ) (f : ℕ → BufferM UInt8 γ) :
    (readInt i >>= f) = get i fun b => f b.toNat := rfl

@[simp] theorem writeInt_bind (j value : ℕ) (f : PUnit → BufferM UInt8 γ) :
    (writeInt j value >>= f) = set j (UInt8.ofNat value) (f ⟨⟩) := rfl

theorem getElem?_of_drop {src bs : List UInt8} {i : ℕ} (h : src.drop i = bs) (k : ℕ) :
    src[i + k]? = bs[k]? := by rw [← h, List.getElem?_drop]

theorem length_of_drop {src bs : List UInt8} {i : ℕ} (h : src.drop i = bs) (hbs : 0 < bs.length) :
    src.length = i + bs.length := by
  have hlen := congrArg List.length h
  rw [List.length_drop] at hlen
  omega

/-! ## The encoder -/

/-- The last septet is returned, not written. -/
theorem encodeTail_emits {src bs : List UInt8} {i : ℕ} (j : ℕ) (hsrc : src.drop i = bs)
    (hne : 0 < bs.length) (hbs : bs.length ≤ 6) :
    ∃ carry packed, pack 0 0 bs = packed ++ [UInt8.ofNat carry] ∧
      (encodeTail src.length i j).emits src j = some ((j + packed.length, carry), packed) := by
  have hlen := length_of_drop hsrc hne
  have hread := getElem?_of_drop hsrc
  have h0 := hread 0
  rw [Nat.add_zero] at h0
  rw [hlen]
  match bs, hne, hbs with
  | [b0], _, _ => simp [pack, encodeTail, emits_get h0]
  | [b0, b1], _, _ => simp [pack, encodeTail, emits_get h0, emits_get (hread 1)]
  | [b0, b1, b2], _, _ =>
    simp [pack, encodeTail, emits_get h0, emits_get (hread 1), emits_get (hread 2)]
  | [b0, b1, b2, b3], _, _ =>
    simp [pack, encodeTail, emits_get h0, emits_get (hread 1), emits_get (hread 2),
      emits_get (hread 3)]
  | [b0, b1, b2, b3, b4], _, _ =>
    simp [pack, encodeTail, emits_get h0, emits_get (hread 1), emits_get (hread 2),
      emits_get (hread 3), emits_get (hread 4)]
  | [b0, b1, b2, b3, b4, b5], _, _ =>
    simp [pack, encodeTail, emits_get h0, emits_get (hread 1), emits_get (hread 2),
      emits_get (hread 3), emits_get (hread 4), emits_get (hread 5)]

theorem exists_block (bs : List UInt8) (h : 7 ≤ bs.length) : ∃ b0 b1 b2 b3 b4 b5 b6 rest,
    bs = b0 :: b1 :: b2 :: b3 :: b4 :: b5 :: b6 :: rest := by
  match bs, h with
  | b0 :: b1 :: b2 :: b3 :: b4 :: b5 :: b6 :: rest, _ => exact ⟨b0, b1, b2, b3, b4, b5, b6, rest, rfl⟩

/-- The blocks are packed; fewer than seven bytes are left. -/
theorem encodeBlocks_emits (src : List UInt8) (i : ℕ) : ∀ (j : ℕ), i ≤ src.length →
    ∃ i' packed, i' ≤ src.length ∧ src.length < i' + 7 ∧
      pack 0 0 (src.drop i) = packed ++ pack 0 0 (src.drop i') ∧
      (encodeBlocks src.length i j).emits src j = some ((i', j + packed.length), packed) := by
  induction h : src.length - i using Nat.strongRecOn generalizing i with
  | ind n ih =>
    intro j hi
    rw [encodeBlocks]
    split
    · obtain ⟨b0, b1, b2, b3, b4, b5, b6, bs, hsrc⟩ :=
        exists_block (src.drop i) (by rw [List.length_drop]; omega)
      have hread := getElem?_of_drop hsrc
      have h0 := hread 0
      rw [Nat.add_zero] at h0
      have hrest : src.drop (i + 7) = bs := by rw [← List.drop_drop, hsrc]; rfl
      obtain ⟨i', packed, hi', hlast, hpack, hemits⟩ :=
        ih _ (by omega) (i + 7) rfl (j + 8) (by omega)
      rw [hrest] at hpack
      refine ⟨i', ?_⟩
      simp [hsrc, pack, hpack, hi', hlast, emits_get h0, emits_get (hread 1), emits_get (hread 2),
        emits_get (hread 3), emits_get (hread 4), emits_get (hread 5), emits_get (hread 6), hemits]
      omega
    · exact ⟨i, [], hi, by omega, rfl, by simp⟩

theorem divCeil_eq (n : ℕ) : divCeil (n * 8) 7 = (8 * n + 6) / 7 := by
  rw [divCeil]
  split <;> omega

theorem encode8to7Program_emits (src : List UInt8) :
    (encode8to7Program src.length (divCeil (src.length * 8) 7)).emits src 0 =
      some (⟨⟩, pack 0 0 src) := by
  obtain ⟨i, packed, hi, hlast, hpack, hemits⟩ := encodeBlocks_emits src 0 0 (Nat.zero_le _)
  rw [List.drop_zero] at hpack
  rw [encode8to7Program, emits_bind _ hemits]
  by_cases hleft : i < src.length
  · obtain ⟨carry, tail, hpackTail, htail⟩ := encodeTail_emits (packed.length) (rfl : src.drop i = _)
      (by rw [List.length_drop]; omega) (by rw [List.length_drop]; omega)
    have hroom : packed.length + tail.length < divCeil (src.length * 8) 7 := by
      have hlen := congrArg List.length hpack
      rw [length_pack _ (by decide), hpackTail] at hlen
      simp only [List.length_append, List.length_singleton] at hlen
      rw [divCeil_eq]
      omega
    simp only [hleft, if_true, Nat.zero_add]
    rw [emits_bind _ htail]
    simp only [hroom, if_true]
    simp [hpack, hpackTail, writeInt, write]
  · have hend : src.drop i = [] := List.drop_eq_nil_of_le (by omega)
    simp [hleft, hpack, hend, pack]

theorem encode8to7_eq (src : List UInt8) : encode8to7 src = some (pack 0 0 src) := by
  have hlen := length_pack src (Nat.zero_le 6) 0
  have hrun := apart_of_emits _ [] (List.replicate (divCeil (src.length * 8) 7) 0)
    (encode8to7Program_emits src) (by
      rw [List.length_replicate, hlen, divCeil_eq]
      omega)
  rw [List.nil_append] at hrun
  rw [encode8to7, hrun]
  simp [hlen, divCeil_eq]

theorem encodeBytes_eq (src : List UInt8) : encodeBytes src = some (avoidZero (pack 0 0 src)) := by
  rw [encodeBytes, encode8to7_eq]
  rfl

theorem avoidZero_lt {src : List UInt8} (h : ∀ b ∈ src, b < 0x80) : ∀ b ∈ avoidZero src, b < 0x80 := by
  intro b hb
  obtain ⟨inp, hinp, rfl⟩ := List.mem_map.mp hb
  split
  · decide
  · next hne =>
    have hlt := UInt8.lt_iff_toNat_lt.mp (h inp hinp)
    have hne' : inp.toNat ≠ 127 := fun heq => hne (UInt8.toNat_inj.mp heq)
    rw [UInt8.lt_iff_toNat_lt, UInt8.toNat_add]
    change inp.toNat < 128 at hlt
    change (inp.toNat + 1) % 256 < 128
    omega

/-! ## The decoder -/

theorem decodeTail_emits {src bs : List UInt8} {i : ℕ} (j : ℕ) (hsrc : src.drop i = bs)
    (hne : 0 < bs.length) (hbs : bs.length ≤ 7) :
    ∃ carry, (decodeTail src.length i j).emits src j =
      some ((j + (unpack 0 0 bs).length, carry), unpack 0 0 bs) := by
  have hlen := length_of_drop hsrc hne
  have hread := getElem?_of_drop hsrc
  have h0 := hread 0
  rw [Nat.add_zero] at h0
  rw [hlen]
  match bs, hne, hbs with
  | [b0], _, _ => simp [unpack, decodeTail, emits_get h0]
  | [b0, b1], _, _ => simp [unpack, decodeTail, emits_get h0, emits_get (hread 1)]
  | [b0, b1, b2], _, _ =>
    simp [unpack, decodeTail, emits_get h0, emits_get (hread 1), emits_get (hread 2)]
  | [b0, b1, b2, b3], _, _ =>
    simp [unpack, decodeTail, emits_get h0, emits_get (hread 1), emits_get (hread 2),
      emits_get (hread 3)]
  | [b0, b1, b2, b3, b4], _, _ =>
    simp [unpack, decodeTail, emits_get h0, emits_get (hread 1), emits_get (hread 2),
      emits_get (hread 3), emits_get (hread 4)]
  | [b0, b1, b2, b3, b4, b5], _, _ =>
    simp [unpack, decodeTail, emits_get h0, emits_get (hread 1), emits_get (hread 2),
      emits_get (hread 3), emits_get (hread 4), emits_get (hread 5)]
  | [b0, b1, b2, b3, b4, b5, b6], _, _ =>
    simp [unpack, decodeTail, emits_get h0, emits_get (hread 1), emits_get (hread 2),
      emits_get (hread 3), emits_get (hread 4), emits_get (hread 5), emits_get (hread 6)]

theorem exists_septets (bs : List UInt8) (h : 8 ≤ bs.length) : ∃ b0 b1 b2 b3 b4 b5 b6 b7 rest,
    bs = b0 :: b1 :: b2 :: b3 :: b4 :: b5 :: b6 :: b7 :: rest := by
  match bs, h with
  | b0 :: b1 :: b2 :: b3 :: b4 :: b5 :: b6 :: b7 :: rest, _ =>
    exact ⟨b0, b1, b2, b3, b4, b5, b6, b7, rest, rfl⟩

/-- The last byte of a block takes all of the last septet: its high bit is shifted out. -/
theorem shift_and_127 (b : UInt8) : (b &&& 127) <<< 1 = b <<< 1 := by
  have hseptet : b.toNat &&& 127 = b.toNat % 2 ^ 7 := Nat.and_two_pow_sub_one_eq_mod b.toNat 7
  apply UInt8.toNat_inj.mp
  simp only [UInt8.toNat_shiftLeft, UInt8.toNat_and, Nat.shiftLeft_eq]
  change (b.toNat &&& 127) * 2 % 256 = b.toNat * 2 % 256
  rw [hseptet]
  omega

/-- The blocks are unpacked; fewer than eight septets are left. -/
theorem decodeBlocks_emits (src : List UInt8) (i : ℕ) : ∀ (j : ℕ), i ≤ src.length →
    ∃ i' unpacked, i' ≤ src.length ∧ src.length < i' + 8 ∧
      unpack 0 0 (src.drop i) = unpacked ++ unpack 0 0 (src.drop i') ∧
      (decodeBlocks src.length i j).emits src j = some ((i', j + unpacked.length), unpacked) := by
  induction h : src.length - i using Nat.strongRecOn generalizing i with
  | ind n ih =>
    intro j hi
    rw [decodeBlocks]
    split
    · obtain ⟨b0, b1, b2, b3, b4, b5, b6, b7, bs, hsrc⟩ :=
        exists_septets (src.drop i) (by rw [List.length_drop]; omega)
      have hread := getElem?_of_drop hsrc
      have h0 := hread 0
      rw [Nat.add_zero] at h0
      have hrest : src.drop (i + 8) = bs := by rw [← List.drop_drop, hsrc]; rfl
      obtain ⟨i', unpacked, hi', hlast, hunpack, hemits⟩ :=
        ih _ (by omega) (i + 8) rfl (j + 7) (by omega)
      rw [hrest] at hunpack
      refine ⟨i', ?_⟩
      simp [hsrc, unpack, hunpack, hi', hlast, shift_and_127, emits_get h0, emits_get (hread 1),
        emits_get (hread 2), emits_get (hread 3), emits_get (hread 4), emits_get (hread 5),
        emits_get (hread 6), emits_get (hread 7), hemits]
      omega
    · exact ⟨i, [], hi, by omega, rfl, by simp⟩

theorem decode7to8_emits (src : List UInt8) :
    (decode7to8 src.length).emits src 0 = some ((unpack 0 0 src).length, unpack 0 0 src) := by
  obtain ⟨i, unpacked, hi, hlast, hunpack, hemits⟩ := decodeBlocks_emits src 0 0 (Nat.zero_le _)
  rw [List.drop_zero] at hunpack
  have hlen := length_unpack src
  rw [decode7to8, emits_bind _ hemits]
  by_cases hleft : i < src.length
  · obtain ⟨carry, htail⟩ := decodeTail_emits unpacked.length (rfl : src.drop i = _)
      (by rw [List.length_drop]; omega) (by rw [List.length_drop]; omega)
    have hfull : ¬ unpacked.length + (unpack 0 0 (src.drop i)).length < src.length * 7 / 8 := by
      rw [← hlen, hunpack, List.length_append]
      omega
    simp only [hleft, if_true, Nat.zero_add]
    rw [emits_bind _ htail]
    simp only [hfull, if_false]
    simp [← hlen, hunpack]
  · have hend : src.drop i = [] := List.drop_eq_nil_of_le (by omega)
    simp [hleft, ← hlen, hunpack, hend, unpack]

/-- The bytes shifted back; `0x7f` is stored as `0`, or as `0xc0 0x80`. -/
def regenerated : List UInt8 → List UInt8
  | [] => []
  | b :: bs =>
    if b = 0xc0 ∧ bs.head? = some 0x80 then 0x7f :: regenerated bs.tail
    else (if b = 0 then 0x7f else b - 1) :: regenerated bs
termination_by bs => bs.length

theorem toNat_eq_iff (b : UInt8) {n : ℕ} (hn : n < 256) : b.toNat = n ↔ b = UInt8.ofNat n := by
  rw [← UInt8.toNat_inj, SeptetPacking.toNat_ofNat hn]

theorem isEscaped_emits {src bs : List UInt8} {i : ℕ} {b : UInt8} (hsrc : src.drop i = b :: bs)
    (j : ℕ) : (isEscaped src.length i b.toNat).emits src j =
      some (decide (b = 0xc0 ∧ bs.head? = some 0x80), []) := by
  have hlen := length_of_drop hsrc (by simp)
  have hnext := getElem?_of_drop hsrc 1
  have hmark := toNat_eq_iff b (show 0xc0 < 256 by decide)
  rw [List.getElem?_cons_succ] at hnext
  cases bs with
  | nil => simp [isEscaped, hlen]
  | cons b' bs =>
    have hpair := toNat_eq_iff b' (show 0x80 < 256 by decide)
    have hmore : i + 1 < src.length := by simp at hlen; omega
    rw [isEscaped]
    split
    · next h => simp [emits_get hnext, hmark.mp h.1, Bool.beq_eq_decide_eq, hpair]
    · next h =>
      have hb : ¬ b = 0xc0 := fun hb => h ⟨hmark.mpr hb, hmore⟩
      simp [hb]

theorem regenerateZeroFrom_emits (src : List UInt8) (i : ℕ) : ∀ (j : ℕ), i ≤ src.length →
    (regenerateZeroFrom src.length i j).emits src j =
      some (j + (regenerated (src.drop i)).length, regenerated (src.drop i)) := by
  induction h : src.length - i using Nat.strongRecOn generalizing i with
  | ind n ih =>
    intro j hi
    rw [regenerateZeroFrom]
    split
    · obtain ⟨b, bs, hsrc⟩ : ∃ b bs, src.drop i = b :: bs := by
        apply List.exists_cons_of_length_pos
        rw [List.length_drop]
        omega
      have h0 := getElem?_of_drop hsrc 0
      rw [Nat.add_zero] at h0
      have hnext := ih _ (by omega) (i + 1) rfl (j + 1) (by omega)
      rw [← List.drop_drop, hsrc, List.drop_one, List.tail_cons] at hnext
      have hzero := toNat_eq_iff b (show 0 < 256 by decide)
      rw [hsrc, regenerated, readInt_bind, emits_get h0, emits_bind _ (isEscaped_emits hsrc j)]
      by_cases hescaped : b = 0xc0 ∧ bs.head? = some 0x80
      · obtain ⟨bs, rfl⟩ := List.head?_eq_some_iff.mp hescaped.2
        have hskip := ih _ (by omega) (i + 2) rfl (j + 1) (by
          have hlen := length_of_drop hsrc (by simp)
          simp at hlen
          omega)
        rw [← List.drop_drop, hsrc, show (b :: 0x80 :: bs).drop 2 = bs from rfl] at hskip
        simp [hescaped, hskip]
        omega
      · by_cases hb : b = 0
        · simp [hb, hnext]
          omega
        · simp [hescaped, hzero, hb, hnext]
          omega
    · have hend : src.drop i = [] := List.drop_eq_nil_of_le (by omega)
      simp [hend, regenerated]

theorem regenerateZero_emits (src : List UInt8) : (regenerateZero src.length).emits src 0 =
    some ((regenerated src).length, regenerated src) := by
  rw [regenerateZero, regenerateZeroFrom_emits src 0 0 (Nat.zero_le _)]
  simp

theorem regenerated_avoidZero {bs : List UInt8} (h : ∀ b ∈ bs, b < 0x80) :
    regenerated (avoidZero bs) = bs := by
  induction bs with
  | nil => simp [avoidZero, regenerated]
  | cons b bs ih =>
    have hb := avoidZero_lt h
    have hrest := ih fun b' hb' => h b' (List.mem_cons_of_mem b hb')
    rw [avoidZero, List.map_cons] at hb ⊢
    rw [regenerated, if_neg]
    · congr 1
      by_cases hlast : b = 0x7f
      · simp [hlast]
      · have hpos : b + 1 ≠ 0 := by
          intro hzero
          have hlt := UInt8.lt_iff_toNat_lt.mp (h b List.mem_cons_self)
          have hsum := congrArg UInt8.toNat hzero
          rw [UInt8.toNat_add] at hsum
          change (b.toNat + 1) % 256 = 0 at hsum
          change b.toNat < 128 at hlt
          omega
        simp [hlast, hpos]
    · rintro ⟨hmark, -⟩
      have := hb _ (List.mem_cons_self)
      rw [hmark] at this
      exact absurd this (by decide)

/-! ## Reading ahead -/

theorem decodeBlocks_readsAhead {src : List UInt8} {srclen : ℕ}
    {next : ℕ × ℕ → BufferM UInt8 γ}
    (hnext : ∀ i j, j ≤ i → (next (i, j)).ReadsAhead src j) (i : ℕ) :
    ∀ j ≤ i, (decodeBlocks srclen i j >>= next).ReadsAhead src j := by
  induction h : srclen - i using Nat.strongRecOn generalizing i with
  | ind n ih =>
    intro j hj
    rw [decodeBlocks]
    split
    · have hrec := ih _ (by omega) (i + 8) rfl (j + 7) (by omega)
      simp only [readInt_bind, writeInt_bind, get_bind, set_bind, ReadsAhead]
      grind
    · exact hnext i j hj

theorem decodeTail_readsAhead {src : List UInt8} {srclen : ℕ}
    {next : ℕ × ℕ → BufferM UInt8 γ} (hnext : ∀ j out, (next (j, out)).ReadsAhead src j)
    {i j : ℕ} (hj : j ≤ i) : (decodeTail srclen i j >>= next).ReadsAhead src j := by
  have hdone : ∀ j' out, ReadsAhead src (BufferM.done (j', out) >>= next) j' := hnext
  rw [decodeTail]
  split_ifs <;>
    simp only [pure_eq, readInt_bind, writeInt_bind, get_bind, set_bind, ReadsAhead] <;> grind

theorem decode7to8_readsAhead (src : List UInt8) (srclen : ℕ) :
    (decode7to8 srclen).ReadsAhead src 0 := by
  rw [decode7to8]
  apply decodeBlocks_readsAhead _ 0 0 (le_refl 0)
  intro i j hj
  dsimp only
  split
  · apply decodeTail_readsAhead _ hj
    intro j' out
    dsimp only
    split
    · exact ⟨rfl, trivial⟩
    · trivial
  · trivial

theorem regenerateZeroFrom_readsAhead (src : List UInt8) (srclen i : ℕ) : ∀ j ≤ i,
    (regenerateZeroFrom srclen i j).ReadsAhead src j := by
  induction h : srclen - i using Nat.strongRecOn generalizing i with
  | ind n ih =>
    intro j hj
    rw [regenerateZeroFrom]
    split
    · have hskip := ih _ (by omega) (i + 2) rfl (j + 1) (by omega)
      have hnext := ih _ (by omega) (i + 1) rfl (j + 1) (by omega)
      have hstep : ∀ inp escaped, ReadsAhead src (if escaped = true then do
            write j 0x7f
            regenerateZeroFrom srclen (i + 2) (j + 1)
          else if inp = 0 then do
            write j 0x7f
            regenerateZeroFrom srclen (i + 1) (j + 1)
          else do
            write j (UInt8.ofNat inp - 1)
            regenerateZeroFrom srclen (i + 1) (j + 1)) j := by
        intro inp escaped
        split
        · exact ⟨rfl, hskip⟩
        · split
          · exact ⟨rfl, hnext⟩
          · exact ⟨rfl, hnext⟩
      rw [readInt_bind]
      refine ⟨hj, fun b _ => ?_⟩
      simp only [isEscaped]
      split
      · exact ⟨by omega, fun b' _ => hstep b.toNat (b'.toNat == 0x80)⟩
      · exact hstep b.toNat false
    · trivial

theorem regenerateZero_readsAhead (src : List UInt8) (srclen : ℕ) :
    (regenerateZero srclen).ReadsAhead src 0 :=
  regenerateZeroFrom_readsAhead src srclen 0 0 (le_refl 0)

theorem latin1_toNat (b : UInt8) : UInt8.ofNat (Char.ofNat b.toNat).toNat = b := by
  have hvalid : b.toNat.isValidChar := Or.inl (b.toNat_lt.trans (by decide))
  rw [Char.ofNat, dif_pos hvalid]
  exact UInt8.ofNat_toNat

theorem inPlace_of_emits {src out : List UInt8} {p : BufferM UInt8 ℕ} {n : ℕ}
    (hahead : p.ReadsAhead src 0) (hemits : p.emits src 0 = some (n, out))
    (hout : out.length ≤ src.length) : p.inPlace src = some (n, out ++ src.drop out.length) := by
  rw [inPlace_eq_apart (hahead.readsFresh p (by simp))]
  exact apart_of_emits p [] src hemits hout

theorem decodeAnnotationString_encode (src : List UInt8) :
    ∃ s, encodeToAnnotationString src = some s ∧ decodeAnnotationString s = some src := by
  have hregenerated := regenerated_avoidZero
    (pack_lt src (Nat.zero_le 6) (show 0 < 2 ^ 0 by decide))
  have hlen : (avoidZero (pack 0 0 src)).length = (pack 0 0 src).length := by simp [avoidZero]
  have hunpacked := length_unpack (pack 0 0 src)
  have hshift := inPlace_of_emits (regenerateZero_readsAhead _ _)
    (regenerateZero_emits (avoidZero (pack 0 0 src))) (by rw [hregenerated, hlen])
  have hdecode := inPlace_of_emits (decode7to8_readsAhead _ _) (decode7to8_emits (pack 0 0 src))
    (by omega)
  rw [hregenerated, List.drop_eq_nil_of_le (by omega), List.append_nil] at hshift
  rw [unpack_pack] at hdecode hunpacked
  refine ⟨_, by rw [encodeToAnnotationString, encodeBytes_eq]; rfl, ?_⟩
  rw [decodeAnnotationString]
  simp [Function.comp_def, latin1_toNat, hshift, hdecode]

/-- The decoder inverts the encoder, encoded bytes have seven bits, and the
in-place loops read no position they have overwritten. -/
theorem annotation_codec_correct (src : List UInt8) :
    (∃ s, encodeToAnnotationString src = some s ∧ decodeAnnotationString s = some src) ∧
    (∃ bytes, encodeBytes src = some bytes ∧ ∀ b ∈ bytes, b < 0x80) ∧
    (∀ srclen, (regenerateZero srclen).ReadsFresh src ∅ ∧
      (regenerateZero srclen).inPlace src = (regenerateZero srclen).apart src src) ∧
    ∀ srclen, (decode7to8 srclen).ReadsFresh src ∅ ∧
      (decode7to8 srclen).inPlace src = (decode7to8 srclen).apart src src := by
  refine ⟨decodeAnnotationString_encode src, ⟨_, encodeBytes_eq src, ?_⟩, ?_, ?_⟩
  · apply avoidZero_lt (pack_lt src (by decide) (by decide))
  · intro srclen
    have hfresh := (regenerateZero_readsAhead src srclen).readsFresh _ (show ∀ i ∈ (∅ : Set ℕ), i < 0 by simp)
    exact ⟨hfresh, inPlace_eq_apart hfresh⟩
  · intro srclen
    have hfresh := (decode7to8_readsAhead src srclen).readsFresh _ (show ∀ i ∈ (∅ : Set ℕ), i < 0 by simp)
    exact ⟨hfresh, inPlace_eq_apart hfresh⟩

end ScalaRs.Pickling.ByteCodecs
