import Mathlib.Data.Char
import Mathlib.Data.Nat.Notation

/-! # Code units

Texts are stored as sequences of code units. In the encodings that matter here an
ASCII character is one unit with its own code, and the units of all other
characters have codes from `128` on. -/
namespace CodeUnits

class CodeUnit (U : Type) where
  code : U → ℕ
  ofCode : ℕ → U
  code_ofCode : ∀ n, n < 128 → code (ofCode n) = n
  ofCode_code : ∀ u, ofCode (code u) = u

export CodeUnit (code ofCode)

instance : CodeUnit UInt8 where
  code := UInt8.toNat
  ofCode := UInt8.ofNat
  code_ofCode n hn := by
    rw [UInt8.toNat_ofNat']
    omega
  ofCode_code _ := UInt8.ofNat_toNat

instance : CodeUnit UInt16 where
  code := UInt16.toNat
  ofCode := UInt16.ofNat
  code_ofCode n hn := by
    rw [UInt16.toNat_ofNat']
    omega
  ofCode_code _ := UInt16.ofNat_toNat

instance : CodeUnit Char where
  code := Char.toNat
  ofCode := Char.ofNat
  code_ofCode n hn := by
    have hvalid : n.isValidChar := .inl (by omega)
    rw [Char.ofNat, dif_pos hvalid]
    rfl
  ofCode_code := Char.ofNat_toNat

theorem code_injective {U : Type} [CodeUnit U] {u v : U} (h : code u = code v) : u = v := by
  rw [← CodeUnit.ofCode_code u, h, CodeUnit.ofCode_code]

/-- An encoding of characters. -/
structure Encoding (U : Type) [CodeUnit U] where
  encode : Char → List U
  ascii : ∀ c : Char, c.toNat < 128 → encode c = [ofCode c.toNat]
  other : ∀ c : Char, 128 ≤ c.toNat → encode c ≠ [] ∧ ∀ u ∈ encode c, 128 ≤ code u

def Encoding.text {U : Type} [CodeUnit U] (e : Encoding U) (cs : List Char) : List U :=
  cs.flatMap e.encode

section Texts

variable {U : Type} [CodeUnit U] (e : Encoding U)

@[simp]
theorem Encoding.text_nil : e.text [] = [] := rfl

@[simp]
theorem Encoding.text_cons (c : Char) (cs : List Char) : e.text (c :: cs) = e.encode c ++ e.text cs :=
  List.flatMap_cons

@[simp]
theorem Encoding.text_append (cs ds : List Char) : e.text (cs ++ ds) = e.text cs ++ e.text ds :=
  List.flatMap_append

theorem Encoding.encode_ne_nil (c : Char) : e.encode c ≠ [] := by
  by_cases hc : c.toNat < 128
  · rw [e.ascii c hc]
    exact List.cons_ne_nil _ _
  · exact (e.other c (by omega)).1

theorem Encoding.code_of_mem {c : Char} {u : U} (hu : u ∈ e.encode c) :
    code u = code c ∨ 128 ≤ code u ∧ 128 ≤ code c := by
  change code u = c.toNat ∨ 128 ≤ code u ∧ 128 ≤ c.toNat
  by_cases hc : c.toNat < 128
  · rw [e.ascii c hc] at hu
    rw [List.mem_singleton.mp hu, CodeUnit.code_ofCode _ hc]
    exact .inl rfl
  · exact .inr ⟨(e.other c (by omega)).2 u hu, by omega⟩

/-- An ASCII character is one unit. -/
theorem Encoding.encode_of_code {c : Char} {n : ℕ} (hc : code c = n) (hn : n < 128) :
    e.encode c = [ofCode n] := by
  have hc' : c.toNat = n := hc
  rw [e.ascii c (by omega), hc']

theorem Encoding.encode_ofCode {n : ℕ} (hn : n < 128) : e.encode (ofCode n) = [ofCode n] :=
  e.encode_of_code (CodeUnit.code_ofCode n hn) hn

variable {e} {P : ℕ → Bool}

/-- A property of codes that all other characters have, or none, is that of the units. -/
theorem Encoding.units_iff (hP : ∀ n, 128 ≤ n → P n = P 128) {c : Char} {u : U}
    (hu : u ∈ e.encode c) : P (code u) = P (code c) := by
  rcases e.code_of_mem hu with heq | ⟨hu', hc⟩
  · rw [heq]
  · rw [hP _ hu', hP _ hc]

theorem Encoding.dropWhile_text (hP : ∀ n, 128 ≤ n → P n = P 128) (cs : List Char) :
    (e.text cs).dropWhile (fun u => P (code u)) = e.text (cs.dropWhile fun c => P (code c)) := by
  induction cs with
  | nil => rfl
  | cons c cs ih =>
    rw [text_cons]
    by_cases hc : P (code c) = true
    · rw [List.dropWhile_cons, if_pos hc, ← ih]
      apply List.dropWhile_append_of_pos
      intro u hu
      rw [units_iff hP hu, hc]
    · rw [List.dropWhile_cons, if_neg hc, text_cons]
      obtain ⟨u, us, hus⟩ := List.exists_cons_of_ne_nil (e.encode_ne_nil c)
      rw [hus, List.cons_append, List.dropWhile_cons, if_neg]
      rwa [units_iff hP (hus ▸ List.mem_cons_self)]

theorem Encoding.takeWhile_text (hP : ∀ n, 128 ≤ n → P n = P 128) (cs : List Char) :
    (e.text cs).takeWhile (fun u => P (code u)) = e.text (cs.takeWhile fun c => P (code c)) := by
  induction cs with
  | nil => rfl
  | cons c cs ih =>
    rw [text_cons]
    by_cases hc : P (code c) = true
    · rw [List.takeWhile_cons, if_pos hc, text_cons, ← ih]
      apply List.takeWhile_append_of_pos
      intro u hu
      rw [units_iff hP hu, hc]
    · rw [List.takeWhile_cons, if_neg hc]
      obtain ⟨u, us, hus⟩ := List.exists_cons_of_ne_nil (e.encode_ne_nil c)
      rw [hus, List.cons_append, List.takeWhile_cons, if_neg]
      · rfl
      · rwa [units_iff hP (hus ▸ List.mem_cons_self)]

end Texts

def utf8 : Encoding UInt8 where
  encode := String.utf8EncodeChar
  ascii c h := by
    have hval : c.val.toNat = c.toNat := rfl
    rw [String.utf8EncodeChar, hval, if_pos (by omega)]
    rfl
  other c h := by
    refine ⟨String.utf8EncodeChar_ne_nil, ?_⟩
    have hcode : ∀ n, 128 ≤ n % 256 → 128 ≤ code (UInt8.ofNat n) := by
      intro n hn
      change 128 ≤ (UInt8.ofNat n).toNat
      rwa [UInt8.toNat_ofNat']
    have hval : c.val.toNat = c.toNat := rfl
    rw [String.utf8EncodeChar, hval]
    split
    · omega
    · split
      · simp only [List.mem_cons, List.not_mem_nil, or_false, forall_eq_or_imp, forall_eq]
        exact ⟨hcode _ (by omega), hcode _ (by omega)⟩
      · split
        · simp only [List.mem_cons, List.not_mem_nil, or_false, forall_eq_or_imp, forall_eq]
          exact ⟨hcode _ (by omega), hcode _ (by omega), hcode _ (by omega)⟩
        · simp only [List.mem_cons, List.not_mem_nil, or_false, forall_eq_or_imp, forall_eq]
          exact ⟨hcode _ (by omega), hcode _ (by omega), hcode _ (by omega), hcode _ (by omega)⟩

/-- A character of the supplementary planes is a pair of surrogates. -/
def utf16 : Encoding UInt16 where
  encode c :=
    if c.toNat < 0x10000 then [UInt16.ofNat c.toNat]
    else [UInt16.ofNat (0xd800 + (c.toNat - 0x10000) / 0x400),
      UInt16.ofNat (0xdc00 + (c.toNat - 0x10000) % 0x400)]
  ascii c h := by rw [if_pos (by omega)]; rfl
  other c h := by
    have hvalid : c.toNat < 0xd800 ∨ 0xdfff < c.toNat ∧ c.toNat < 0x110000 := c.valid
    split
    · refine ⟨List.cons_ne_nil _ _, ?_⟩
      simp only [List.mem_singleton, forall_eq]
      change 128 ≤ (UInt16.ofNat c.toNat).toNat
      rw [UInt16.toNat_ofNat']
      omega
    · refine ⟨List.cons_ne_nil _ _, ?_⟩
      simp only [List.mem_cons, List.not_mem_nil, or_false, forall_eq_or_imp, forall_eq]
      change 128 ≤ (UInt16.ofNat _).toNat ∧ 128 ≤ (UInt16.ofNat _).toNat
      rw [UInt16.toNat_ofNat', UInt16.toNat_ofNat']
      omega

end CodeUnits
