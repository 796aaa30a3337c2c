import ScalaRs.NameTransformer

/-! # Encoded names are read back

Each character of a name without a dollar is one piece of the encoded name, whatever
follows it. -/
namespace ScalaRs.NameTransformer

open GreedyTokens CodeUnits ModifiedUtf8

/-! ## Hexadecimal digits -/

theorem hexValue_hexDigit {n : ℕ} (hn : n < 16) : hexValue (hexDigit n) = some n := by
  have hall : ∀ n : Fin 16, hexValue (hexDigit n.val) = some n.val := by decide
  exact hall ⟨n, hn⟩

theorem isLeadingHex_hexDigit {n : ℕ} (hn : n < 16) : isLeadingHex (hexDigit n) = true := by
  have hall : ∀ n : Fin 16, isLeadingHex (hexDigit n.val) = true := by decide
  exact hall ⟨n, hn⟩

theorem escapedUnit_unicodeEscape (unit : UInt16) (s : List Char) :
    escapedUnit (unicodeEscape unit ++ s) = some unit.toNat := by
  have hlt : unit.toNat < 65536 := unit.toNat_lt
  have ha : unit.toNat / 4096 < 16 := by omega
  have hb : unit.toNat / 256 % 16 < 16 := Nat.mod_lt _ (by decide)
  have hc : unit.toNat / 16 % 16 < 16 := Nat.mod_lt _ (by decide)
  have hd : unit.toNat % 16 < 16 := Nat.mod_lt _ (by decide)
  have hdigits : 16 * (16 * (16 * (unit.toNat / 4096) + unit.toNat / 256 % 16) +
      unit.toNat / 16 % 16) + unit.toNat % 16 = unit.toNat := by omega
  simp [unicodeEscape, escapedUnit, isLeadingHex_hexDigit ha, fromStrRadix16,
    hexValue_hexDigit ha, hexValue_hexDigit hb, hexValue_hexDigit hc, hexValue_hexDigit hd, hdigits]

/-! ## One character -/

def escapes (c : Char) : List Char := (utf16.encode c).flatMap unicodeEscape

theorem escape_of_basic {c : Char} (hc : c.toNat < 0x10000) :
    Escape (escapes c) c (escapes c).length := by
  have hunits : utf16.encode c = [UInt16.ofNat c.toNat] := if_pos hc
  have hunit : (UInt16.ofNat c.toNat).toNat = c.toNat := by
    rw [UInt16.toNat_ofNat']
    omega
  rw [escapes, hunits, List.flatMap_singleton]
  have hfirst := escapedUnit_unicodeEscape (UInt16.ofNat c.toNat) []
  rw [List.append_nil, hunit] at hfirst
  exact .single hfirst (charFromU32_toNat c)

theorem escape_of_supplementary {c : Char} (hc : ¬ c.toNat < 0x10000) :
    Escape (escapes c) c (escapes c).length := by
  have hlt : c.toNat < 0x110000 := by
    have hvalid : c.toNat < 0xd800 ∨ 0xdfff < c.toNat ∧ c.toNat < 0x110000 := c.valid
    omega
  have hunits : utf16.encode c = [UInt16.ofNat (0xd800 + (c.toNat - 0x10000) / 0x400),
      UInt16.ofNat (0xdc00 + (c.toNat - 0x10000) % 0x400)] := if_neg hc
  have hhigh : (UInt16.ofNat (0xd800 + (c.toNat - 0x10000) / 0x400)).toNat =
      0xd800 + (c.toNat - 0x10000) / 0x400 := by
    rw [UInt16.toNat_ofNat']
    omega
  have hlow : (UInt16.ofNat (0xdc00 + (c.toNat - 0x10000) % 0x400)).toNat =
      0xdc00 + (c.toNat - 0x10000) % 0x400 := by
    rw [UInt16.toNat_ofNat']
    omega
  rw [escapes, hunits, List.flatMap_cons, List.flatMap_singleton]
  generalize hx : (UInt16.ofNat (0xd800 + (c.toNat - 0x10000) / 0x400)) = high at hhigh
  generalize hy : (UInt16.ofNat (0xdc00 + (c.toNat - 0x10000) % 0x400)) = low at hlow
  have hfirst := escapedUnit_unicodeEscape high (unicodeEscape low)
  have hsecond := escapedUnit_unicodeEscape low []
  rw [List.append_nil] at hsecond
  have hsurrogate : charFromU32 high.toNat = none := by
    apply if_neg
    rw [hhigh]
    unfold Nat.isValidChar
    omega
  apply Escape.pair hfirst hsurrogate hsecond
  · omega
  · have hsplit : 0x10000 + ((high.toNat - 0xD800) <<< 10 ||| (low.toNat - 0xDC00)) = c.toNat := by
      rw [hhigh, hlow, ← Nat.shiftLeft_add_eq_or_of_lt (by omega), Nat.shiftLeft_eq]
      omega
    rw [hsplit]
    exact charFromU32_toNat c

def meaning : Piece Char Char → Char
  | .token c _ => c
  | .plain c => c

/-- A piece that stands for `c`, and is no bare dollar, at the front of any text. -/
structure Encodes (w : List Char) (p : Piece Char Char) (c : Char) : Prop where
  text : p.text = w
  meaning : meaning p = c
  not_bare : p ≠ .plain '$'
  first : ∀ s, symbols.pieces (w ++ s) = p :: symbols.pieces s

theorem encodes_plain {c : Char} (hc : c ≠ '$') : Encodes [c] (.plain c) c where
  text := rfl
  meaning := rfl
  not_bare h := hc (Piece.plain.inj h)
  first s := by
    apply symbols.pieces_of_not_read
    cases h : symbolAt (c :: s) with
    | none => exact h
    | some x =>
      obtain ⟨t, ht⟩ := head_of_symbolAt h
      exact absurd (List.cons.inj ht).1 hc

theorem encodes_token {w : List Char} {c : Char} (h : symbolAt w = some (c, w.length)) :
    Encodes w (.token c w) c where
  text := rfl
  meaning := rfl
  not_bare := nofun
  first := symbols.pieces_token_append h

theorem encodes_encodeChar {c : Char} (hc : c ≠ '$') : ∃ p, Encodes (encodeChar c) p c := by
  unfold encodeChar
  split
  · next d code hfind =>
    have hmem := List.mem_of_find?_eq_some hfind
    have hfound := List.find?_some hfind
    have hd : d = c := of_decide_eq_true hfound
    exact ⟨_, encodes_token (symbolAt_eq_some_iff.mpr
      (.inr ⟨_, hmem, List.prefix_rfl, hd, rfl⟩))⟩
  · split
    · exact ⟨_, encodes_plain hc⟩
    · have hescape : Escape (escapes c) c (escapes c).length := by
        by_cases hbasic : c.toNat < 0x10000
        · exact escape_of_basic hbasic
        · exact escape_of_supplementary hbasic
      exact ⟨_, encodes_token (symbolAt_eq_some_iff.mpr (.inl hescape))⟩

/-! ## Whole names -/

/-- The pieces of an encoded text, whatever follows it. -/
structure EncodesAll (w : List Char) (ps : List (Piece Char Char)) (name : List Char) : Prop where
  texts : texts ps = w
  meanings : ps.map meaning = name
  not_bare : ∀ p ∈ ps, p ≠ .plain '$'
  first : ∀ s, symbols.pieces (w ++ s) = ps ++ symbols.pieces s

theorem encodesAll_flatMap {f : Char → List Char} {name : List Char}
    (h : ∀ c ∈ name, ∃ p, Encodes (f c) p c) : ∃ ps, EncodesAll (name.flatMap f) ps name := by
  induction name with
  | nil => exact ⟨[], rfl, rfl, nofun, fun s => rfl⟩
  | cons c name ih =>
    obtain ⟨p, hp⟩ := h c List.mem_cons_self
    obtain ⟨ps, hps⟩ := ih fun d hd => h d (List.mem_cons_of_mem _ hd)
    refine ⟨p :: ps, ?_, ?_, ?_, ?_⟩
    · rw [texts_cons, hp.text, hps.texts, List.flatMap_cons]
    · rw [List.map_cons, hp.meaning, hps.meanings]
    · intro q hq
      rcases List.mem_cons.mp hq with rfl | hq
      · exact hp.not_bare
      · exact hps.not_bare q hq
    · intro s
      rw [List.flatMap_cons, List.append_assoc, hp.first, hps.first, List.cons_append]

/-- Letters, digits and underscores are left as they are. -/
theorem encodeChar_of_simple {c : Char} (h : (c.isAlphanum || c = '_') = true) :
    encodeChar c = [c] := by
  have hall : ∀ n : Fin 128, ((Char.ofNat n.val).isAlphanum || Char.ofNat n.val = '_') = true →
      encodeChar (Char.ofNat n.val) = [Char.ofNat n.val] := by decide
  have hlt : c.toNat < 128 := by
    rcases Bool.or_eq_true_iff.mp h with h | h
    · delta Char.isAlphanum Char.isAlpha Char.isUpper Char.isLower Char.isDigit at h
      simp only [Bool.or_eq_true, Bool.and_eq_true, decide_eq_true_eq, ge_iff_le, UInt32.le_iff_toNat_le]
        at h
      have hval : c.val.toNat = c.toNat := rfl
      rw [hval] at h
      have hZ : 'Z'.val.toNat = 90 := rfl
      have hz : 'z'.val.toNat = 122 := rfl
      have h9 : '9'.val.toNat = 57 := rfl
      omega
    · rw [of_decide_eq_true h]
      decide
  have hc := hall ⟨c.toNat, hlt⟩
  rw [Char.ofNat_toNat] at hc
  exact hc h

/-- Every character of an encoded name is encoded, or none is. -/
theorem encodeMethodName_eq {name : List Char} (h : '$' ∉ name) :
    encodeMethodName name = name.flatMap encodeChar ∨
      encodeMethodName name = name.flatMap fun c => [c] := by
  have hsame : name.flatMap (fun c => [c]) = name := List.flatMap_singleton' name
  unfold encodeMethodName
  split
  · exact .inr hsame.symm
  · split
    · next hall =>
      left
      calc name = name.flatMap fun c => [c] := hsame.symm
        _ = name.flatMap encodeChar := by
          apply List.flatMap_congr
          intro c hc
          have hdollar : decide (c = '$') = false := decide_eq_false fun hc' => h (hc' ▸ hc)
          have hsimple := List.all_eq_true.mp hall c hc
          rw [hdollar, Bool.or_false] at hsimple
          exact (encodeChar_of_simple hsimple).symm
    · exact .inl rfl

theorem encodes_encodeMethodName {name : List Char} (h : '$' ∉ name) :
    ∃ ps, EncodesAll (encodeMethodName name) ps name := by
  have hdollar : ∀ c ∈ name, c ≠ '$' := fun c hc hc' => h (hc' ▸ hc)
  rcases encodeMethodName_eq h with hname | hname
  · rw [hname]
    exact encodesAll_flatMap fun c hc => encodes_encodeChar (hdollar c hc)
  · rw [hname]
    exact encodesAll_flatMap fun c hc => ⟨_, encodes_plain (hdollar c hc)⟩

theorem decodeLoop_eq (s out : List Char) :
    decodeLoop out s = out ++ (symbols.pieces s).map meaning := by
  fun_induction decodeLoop out s with
  | case1 out => simp
  | case2 out c s d n h ih =>
    rw [ih, symbols.pieces_of_read h, List.map_cons, List.append_assoc]
    rfl
  | case3 out c s h ih =>
    rw [ih, symbols.pieces_of_not_read h, List.map_cons, List.append_assoc]
    rfl

theorem decodeMethodName_eq (name : List Char) :
    decodeMethodName name = (symbols.pieces name).map meaning := by
  unfold decodeMethodName
  split
  · exact decodeLoop_eq name []
  · next h =>
    have hdollar : ∀ c ∈ name, c ≠ '$' := by
      intro c hc hc'
      apply h
      rw [List.contains_iff_mem, ← hc']
      exact hc
    obtain ⟨ps, hps⟩ := encodesAll_flatMap fun c hc => ⟨_, encodes_plain (hdollar c hc)⟩
    have hfirst := hps.first []
    rw [List.flatMap_singleton', List.append_nil, symbols.pieces_nil, List.append_nil] at hfirst
    rw [hfirst, hps.meanings]

/-- A name without a dollar is read back from its encoded form, which no other such
name has. -/
theorem decodeMethodName_encodeMethodName {name : List Char} (h : '$' ∉ name) :
    decodeMethodName (encodeMethodName name) = name ∧
      ∀ other, '$' ∉ other → encodeMethodName other = encodeMethodName name → other = name := by
  have hback : ∀ name : List Char, '$' ∉ name →
      decodeMethodName (encodeMethodName name) = name := by
    intro name h
    obtain ⟨ps, hps⟩ := encodes_encodeMethodName h
    have hfirst := hps.first []
    rw [List.append_nil, symbols.pieces_nil, List.append_nil] at hfirst
    rw [decodeMethodName_eq, hfirst, hps.meanings]
  refine ⟨hback name h, ?_⟩
  intro other hother heq
  rw [← hback other hother, heq, hback name h]

/-- A letter that takes two surrogates, an operator and the start of an escape. -/
theorem decodeMethodName_encodeMethodName_clef :
    decodeMethodName (encodeMethodName [Char.ofNat 0x1d11e, '^', 'u', '0']) =
      [Char.ofNat 0x1d11e, '^', 'u', '0'] :=
  (decodeMethodName_encodeMethodName (by decide)).1

end ScalaRs.NameTransformer
