import ScalaRs.CodeUnits
import ScalaRs.ModifiedUtf8

/-! # Modified UTF-8 of code units

The format of the constant pool is given unit by unit: every UTF-16 code unit is
written by itself, a surrogate as any other. The writer works on characters, and is
compared with the format here. -/
namespace ModifiedUtf8

open CodeUnits

/-- One code unit in the format of JVMS §4.4.7. -/
def unitBytes (u : UInt16) : List UInt8 :=
  let n := u.toNat
  if 0 < n ∧ n < 0x80 then [UInt8.ofNat n]
  else if n < 0x800 then [UInt8.ofNat (0xc0 + n / 64), UInt8.ofNat (0x80 + n % 64)]
  else [UInt8.ofNat (0xe0 + n / 4096), UInt8.ofNat (0x80 + n / 64 % 64),
    UInt8.ofNat (0x80 + n % 64)]

/-- The constant for a text, from its UTF-16 form. -/
def formatBytes (cs : List Char) : List UInt8 := (utf16.text cs).flatMap unitBytes

/-! ## The reader -/

theorem toNat_of_charFromU32 {n : ℕ} {c : Char} (h : charFromU32 n = some c) : c.toNat = n := by
  unfold charFromU32 at h
  split at h
  · next hn =>
    cases h
    rw [Char.ofNat, dif_pos hn]
    rfl
  · cases h

theorem toNat_ofNat_byte (x : UInt8) (h : x < 0x80) : (Char.ofNat x.toNat).toNat < 0x10000 := by
  have hx : x.toNat < 128 := UInt8.lt_iff_toNat_lt.mp h
  have hvalid : x.toNat.isValidChar := .inl (by omega)
  have hval : (Char.ofNat x.toNat).toNat = x.toNat := by
    rw [Char.ofNat, dif_pos hvalid]
    rfl
  omega

private theorem and_lt {a m k : ℕ} (hm : m < 2 ^ k) : a &&& m < 2 ^ k :=
  Nat.lt_of_le_of_lt Nat.and_le_right hm

private theorem two_lt (x y : ℕ) : (x &&& 0x1f) <<< 6 ||| (y &&& 0x3f) < 2 ^ 16 := by
  apply Nat.or_lt_two_pow
  · have hx : x &&& 0x1f < 2 ^ 5 := and_lt (by decide)
    rw [Nat.shiftLeft_eq]
    omega
  · have hy : y &&& 0x3f < 2 ^ 6 := and_lt (by decide)
    omega

private theorem three_lt (x y z : ℕ) :
    (x &&& 0x0f) <<< 12 ||| (y &&& 0x3f) <<< 6 ||| (z &&& 0x3f) < 2 ^ 16 := by
  have hx : x &&& 0x0f < 2 ^ 4 := and_lt (by decide)
  have hy : y &&& 0x3f < 2 ^ 6 := and_lt (by decide)
  have hz : z &&& 0x3f < 2 ^ 6 := and_lt (by decide)
  apply Nat.or_lt_two_pow
  · apply Nat.or_lt_two_pow
    · rw [Nat.shiftLeft_eq]
      omega
    · rw [Nat.shiftLeft_eq]
      omega
  · omega

/-- Whatever the bytes are, no supplementary character is read from them. -/
theorem lt_of_decodeChars {bs : List UInt8} {cs : List Char} (h : decodeChars bs = some cs) :
    ∀ c ∈ cs, c.toNat < 0x10000 := by
  have hcons : ∀ {rest : List UInt8} {n : ℕ} {ds : List Char}, n < 2 ^ 16 →
      (∀ es, decodeChars rest = some es → ∀ c ∈ es, c.toNat < 0x10000) →
      (do
        let c ← charFromU32 n
        let cs ← decodeChars rest
        pure (c :: cs)) = some ds → ∀ c ∈ ds, c.toNat < 0x10000 := by
    intro rest n ds hn ih h
    obtain ⟨d, hd, h⟩ := Option.bind_eq_some_iff.mp h
    obtain ⟨es, hes, h⟩ := Option.bind_eq_some_iff.mp h
    cases h
    intro c hc
    rcases List.mem_cons.mp hc with rfl | hc
    · rw [toNat_of_charFromU32 hd]
      exact hn
    · exact ih es hes c hc
  fun_induction decodeChars bs generalizing cs with
  | case1 =>
    cases h
    exact nofun
  | case2 => cases h
  | case3 x bs _ hx ih =>
    obtain ⟨es, hes, h⟩ := Option.bind_eq_some_iff.mp h
    cases h
    intro c hc
    rcases List.mem_cons.mp hc with rfl | hc
    · exact toNat_ofNat_byte x hx
    · exact ih hes c hc
  | case4 x _ _ _ y bs ih => exact hcons (two_lt _ _) (fun _ => ih) h
  | case5 => cases h
  | case6 x _ _ _ _ y z bs ih => exact hcons (three_lt _ _ _) (fun _ => ih) h
  | case7 => cases h
  | case8 => cases h

/-! ## The writer -/

theorem length_modifiedUtf8Bytes (s : String) :
    (modifiedUtf8Bytes s).length = (s.toList.map modifiedUtf8Width).sum := by
  have hwidth : List.length ∘ encodeChar = modifiedUtf8Width := funext length_encodeChar
  rw [modifiedUtf8Bytes, List.length_flatMap]
  exact congrArg (fun f => (s.toList.map f).sum) hwidth

private theorem or_lead_two (a : Fin 32) : 0xc0 ||| a.val = 0xc0 + a.val := by
  revert a
  decide

private theorem or_lead_three (a : Fin 16) : 0xe0 ||| a.val = 0xe0 + a.val := by
  revert a
  decide

private theorem or_continuation (a : Fin 64) : 0x80 ||| a.val = 0x80 + a.val := by
  revert a
  decide

private theorem or_mask (u : ℕ) : 0x80 ||| (u &&& 0x3f) = 0x80 + u % 64 := by
  have hmask : u &&& 0x3f = u % 64 := Nat.and_two_pow_sub_one_eq_mod u 6
  rw [hmask]
  exact or_continuation ⟨u % 64, Nat.mod_lt _ (by decide)⟩

theorem encodeChar_eq_unitBytes {c : Char} (hc : c.toNat < 0x10000) :
    encodeChar c = unitBytes (UInt16.ofNat c.toNat) := by
  have hunit : (UInt16.ofNat c.toNat).toNat = c.toNat := by
    rw [UInt16.toNat_ofNat']
    omega
  unfold encodeChar unitBytes
  rw [hunit]
  generalize c.toNat = u at hc
  dsimp only
  split
  · next hzero =>
    subst hzero
    rfl
  · next hpos =>
    split
    · next hlt => rw [if_pos ⟨Nat.pos_of_ne_zero hpos, hlt⟩]
    · next hge =>
      have hmany : ¬ (0 < u ∧ u < 0x80) := fun h => hge h.2
      rw [if_neg hmany]
      by_cases hlt : u < 0x800
      · have ha : u / 2 ^ 6 < 32 := by omega
        have hlead : 0xc0 ||| u / 2 ^ 6 = 0xc0 + u / 2 ^ 6 := or_lead_two ⟨u / 2 ^ 6, ha⟩
        rw [if_pos hlt, if_pos hlt, Nat.shiftRight_eq_div_pow, hlead, or_mask]
        rfl
      · have ha : u / 2 ^ 12 < 16 := by omega
        have hlead : 0xe0 ||| u / 2 ^ 12 = 0xe0 + u / 2 ^ 12 := or_lead_three ⟨u / 2 ^ 12, ha⟩
        rw [if_neg hlt, if_neg hlt, Nat.shiftRight_eq_div_pow, Nat.shiftRight_eq_div_pow, hlead,
          or_mask, or_mask]
        rfl

/-- The writer follows the format on the basic multilingual plane. -/
theorem modifiedUtf8Bytes_eq_formatBytes {s : String} (h : Basic s) :
    modifiedUtf8Bytes s = formatBytes s.toList := by
  have hchars : ∀ cs : List Char, (∀ c ∈ cs, c.toNat < 0x10000) →
      cs.flatMap encodeChar = formatBytes cs := by
    intro cs hcs
    induction cs with
    | nil => rfl
    | cons c cs ih =>
      have hc := hcs c List.mem_cons_self
      have hunits : utf16.encode c = [UInt16.ofNat c.toNat] := if_pos hc
      rw [List.flatMap_cons, encodeChar_eq_unitBytes hc,
        ih fun d hd => hcs d (List.mem_cons_of_mem _ hd), formatBytes, formatBytes,
        Encoding.text_cons, hunits, List.singleton_append, List.flatMap_cons]
  exact hchars _ h

/-- A constant is read back, has the announced width and follows the format exactly if
the text has no supplementary character. -/
theorem modifiedUtf8_correct_iff (s : String) :
    (modifiedUtf8ToString (modifiedUtf8Bytes s) = some s ∧
      (modifiedUtf8Bytes s).length = (s.toList.map modifiedUtf8Width).sum ∧
      modifiedUtf8Bytes s = formatBytes s.toList) ↔ Basic s := by
  constructor
  · intro hread
    obtain ⟨h, -, -⟩ := hread
    obtain ⟨cs, hcs, hs⟩ := Option.map_eq_some_iff.mp h
    have hlt := lt_of_decodeChars hcs
    have htoList : s.toList = cs := by rw [← hs, String.toList_ofList]
    unfold Basic
    rw [htoList]
    exact hlt
  · intro h
    exact ⟨modifiedUtf8ToString_modifiedUtf8Bytes h, length_modifiedUtf8Bytes s,
      modifiedUtf8Bytes_eq_formatBytes h⟩

/-- The constant for U+1F600 starts with a byte that starts no character. -/
theorem supplementary_not_read_back :
    ¬ (modifiedUtf8ToString (modifiedUtf8Bytes (String.ofList [Char.ofNat 0x1f600])) =
        some (String.ofList [Char.ofNat 0x1f600]) ∧
      (modifiedUtf8Bytes (String.ofList [Char.ofNat 0x1f600])).length =
        ((String.ofList [Char.ofNat 0x1f600]).toList.map modifiedUtf8Width).sum ∧
      modifiedUtf8Bytes (String.ofList [Char.ofNat 0x1f600]) =
        formatBytes (String.ofList [Char.ofNat 0x1f600]).toList) := by
  decide

end ModifiedUtf8
