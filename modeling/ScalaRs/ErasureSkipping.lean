import Mathlib.Data.List.TakeWhile
import ScalaRs.SignatureErasure

/-! # What the erasure leaves out

Type arguments and formal type parameters are walked past, whatever type variables they mention. -/
namespace ScalaRs.SignatureErasure
open CodeUnits JvmDescriptors JvmSignatures EnoughFuel Filter

/-- What an identifier is free of. -/
abbrev reserved : List Char := ['.', ';', '[', '/', '<', '>', ':', '+', '-', '*', '(', ')']

abbrev Name := Ident reserved

/-! ## Characters and bytes -/

theorem reserved_ascii {c : Char} (hc : c ∈ reserved) : c.toNat < 128 := by
  simp only [reserved, List.mem_cons, List.not_mem_nil, or_false] at hc
  rcases hc with rfl | rfl | rfl | rfl | rfl | rfl | rfl | rfl | rfl | rfl | rfl | rfl <;> decide

/-- The bytes of characters that are not among some ASCII ones are not among the bytes of these. -/
theorem notMem_bytes {ds cs : List Char} (hds : ∀ d ∈ ds, d.toNat < 128) (hcs : ∀ c ∈ cs, c ∉ ds) :
    ∀ u ∈ utf8.text cs, u ∉ ds.map byte := by
  intro u hu hmem
  obtain ⟨c, hc, hu⟩ := List.mem_flatMap.1 hu
  obtain ⟨d, hd, rfl⟩ := List.mem_map.1 hmem
  exact hcs c hc (eq_of_byte_mem (hds d hd) hu ▸ hd)

/-- The bytes of a text, taken for characters. -/
def latin (cs : List Char) : List Char := (utf8.text cs).map fun b => Char.ofNat b.toNat

theorem latin_append (cs ds : List Char) : latin (cs ++ ds) = latin cs ++ latin ds := by
  simp [latin]

theorem latin_cons (c : Char) (cs : List Char) : latin (c :: cs) = latin [c] ++ latin cs :=
  latin_append [c] cs

def IsAscii (cs : List Char) : Prop := ∀ c ∈ cs, c.toNat < 128

instance (cs : List Char) : Decidable (IsAscii cs) :=
  inferInstanceAs (Decidable (∀ c ∈ cs, c.toNat < 128))

theorem latin_ascii {cs : List Char} (h : IsAscii cs) : latin cs = cs := by
  induction cs with
  | nil => rfl
  | cons c cs ih =>
      have hc := h c List.mem_cons_self
      have hbyte : (byte c).toNat = c.toNat := by
        rw [byte, UInt8.toNat_ofNat']
        omega
      rw [latin_cons, ih fun d hd => h d (List.mem_cons_of_mem _ hd), latin, text_ascii hc]
      simp [hbyte]

/-- A character that is not ASCII has more than one byte. -/
theorem one_lt_length_encode {c : Char} (hc : 128 ≤ c.toNat) : 1 < (utf8.encode c).length := by
  change 1 < (String.utf8EncodeChar c).length
  rw [String.length_utf8EncodeChar]
  by_contra hle
  have hone : c.utf8Size = 1 := by
    have hpos := c.utf8Size_pos
    omega
  have hval : c.val.toNat ≤ 127 := UInt32.le_iff_toNat_le.1 (Char.utf8Size_eq_one_iff.1 hone)
  have hcode : c.val.toNat = c.toNat := rfl
  omega

theorem length_latin (cs : List Char) : cs.length ≤ (latin cs).length ∧
    ((latin cs).length = cs.length → IsAscii cs) := by
  induction cs with
  | nil => exact ⟨Nat.le_refl _, fun _ c hc => absurd hc List.not_mem_nil⟩
  | cons c cs ih =>
      have hone : (latin [c]).length = (utf8.encode c).length := by simp [latin]
      have hpos : 0 < (utf8.encode c).length := List.length_pos_iff.2 (utf8.encode_ne_nil c)
      rw [latin_cons, List.length_append, List.length_cons, hone]
      refine ⟨by omega, fun h d hd => ?_⟩
      by_cases hc : c.toNat < 128
      · rcases List.mem_cons.1 hd with rfl | hd
        · exact hc
        · exact ih.2 (by omega) d hd
      · have := one_lt_length_encode (Nat.le_of_not_lt hc)
        omega

theorem fromUtf8_text (cs : List Char) : fromUtf8 (utf8.text cs) = some cs := by
  have hvalid : ByteArray.IsValidUTF8 (utf8.text cs).toByteArray := ⟨cs, rfl⟩
  rw [fromUtf8, String.fromUTF8?, dif_pos hvalid]
  exact congrArg some (String.toList_ofList (l := cs))

theorem Ident.semicolon_notMem (name : Name) : byte ';' ∉ utf8.text name.text := by
  intro h
  exact name.allowed ';' ((byte_mem_text (by decide)).1 h) (by simp)

theorem afterSemicolon_text {cs : List Char} (h : ';' ∉ cs) (rest : List Char) :
    afterSemicolon (utf8.text (cs ++ ';' :: rest)) = some (utf8.text rest) := by
  have hall : ∀ u ∈ utf8.text cs, decide (u ≠ byte ';') = true := fun u hu =>
    decide_eq_true fun heq => h ((byte_mem_text (by decide)).1 (heq ▸ hu))
  rw [afterSemicolon, utf8.text_append, List.dropWhile_append_of_pos hall, text_ascii (by decide),
    List.dropWhile_cons_of_neg (by simp)]

theorem takeWhile_text {cs : List Char} (h : ';' ∉ cs) (rest : List Char) :
    (utf8.text (cs ++ ';' :: rest)).takeWhile (· ≠ byte ';') = utf8.text cs := by
  have hall : ∀ u ∈ utf8.text cs, decide (u ≠ byte ';') = true := fun u hu =>
    decide_eq_true fun heq => h ((byte_mem_text (by decide)).1 (heq ▸ hu))
  rw [utf8.text_append, List.takeWhile_append_of_pos hall, text_ascii (by decide),
    List.takeWhile_cons_of_neg (by simp), List.append_nil]

/-! ## Skipping -/

/-- The characters at which the walk over the name of a class does something. -/
def stops : List Char := [';', '<', '[', '+', '*', '>', '(', ')']

theorem skipClass_append {cs rest : List Char} {x : Option Bytes} (hcs : ∀ c ∈ cs, c ∉ stops)
    (h : ∀ᶠ n in atTop, skipClass n (utf8.text rest) = x) :
    ∀ᶠ n in atTop, skipClass n (utf8.text (cs ++ rest)) = x := by
  have hbytes := @notMem_bytes stops cs (by simp [stops]) hcs
  rw [utf8.text_append]
  generalize utf8.text cs = bs at hbytes
  induction bs with
  | nil => exact h
  | cons u bs ih =>
      have hu := hbytes u List.mem_cons_self
      simp only [stops, List.map_cons, List.map_nil, List.mem_cons, List.not_mem_nil, or_false,
        not_or] at hu
      obtain ⟨h₁, h₂, hrest⟩ := hu
      apply eventually_succ
      filter_upwards [ih fun v hv => hbytes v (List.mem_cons_of_mem _ hv)] with n hn
      rw [List.cons_append, skipClass, if_neg h₁, if_neg h₂, if_neg (by simpa using hrest)]
      exact hn

theorem skipClass_semicolon (rest : List Char) (n : ℕ) :
    skipClass (n + 1) (utf8.text (';' :: rest)) = some (utf8.text rest) := by
  rw [text_ascii (by decide)]
  rfl

theorem skipClass_args {items rest : List Char} {x : Option Bytes}
    (hitems : ∀ᶠ n in atTop, skipArgsLoop n (utf8.text (items ++ '>' :: rest)) =
      some (utf8.text rest))
    (h : ∀ᶠ n in atTop, skipClass n (utf8.text rest) = x) :
    ∀ᶠ n in atTop, skipClass n (utf8.text ('<' :: items ++ '>' :: rest)) = x := by
  apply eventually_succ
  apply eventually_succ
  filter_upwards [hitems, eventually_next h] with n hn hrest
  rw [List.cons_append, text_ascii (by decide), skipClass, if_neg (by decide), if_pos rfl, skipArgs,
    List.tail_cons, hn]
  exact hrest

theorem Name.notMem_stops (name : Name) : ∀ c ∈ name.text, c ∉ stops := by
  intro c hc hstop
  apply name.allowed c hc
  simp only [stops, List.mem_cons, List.not_mem_nil, or_false] at hstop
  rcases hstop with rfl | rfl | rfl | rfl | rfl | rfl | rfl | rfl <;> simp

theorem packageText_notMem_stops (package : List Name) : ∀ c ∈ packageText package, c ∉ stops := by
  intro c hc
  obtain ⟨name, hname, hc⟩ := List.mem_flatMap.1 hc
  rcases List.mem_append.1 hc with hc | hc
  · exact Name.notMem_stops name c hc
  · rw [List.mem_singleton.1 hc]
    decide

/-- The type arguments after a name, if there are any. -/
theorem skipClass_targs {targs : TypeArgs reserved} {rest : List Char} {x : Option Bytes}
    (hitems : ∀ᶠ n in atTop, skipArgsLoop n (utf8.text (targs.items ++ '>' :: rest)) =
      some (utf8.text rest))
    (h : ∀ᶠ n in atTop, skipClass n (utf8.text rest) = x) :
    ∀ᶠ n in atTop, skipClass n (utf8.text (targs.text ++ rest)) = x := by
  rw [TypeArgs.text_eq]
  split
  · exact h
  · rw [List.append_assoc, List.singleton_append]
    exact skipClass_args hitems h

/-- A type starts with a letter of its own. -/
theorem refText_cons (t : RefType reserved) : ∃ c s, t.text = c :: s ∧
    (c = 'T' ∨ c = '[' ∨ c = 'L') := by
  cases t with
  | typeVar name => exact ⟨'T', _, rfl, .inl rfl⟩
  | array elem => exact ⟨'[', _, rfl, .inr (.inl rfl)⟩
  | cls package part => exact ⟨'L', _, rfl, .inr (.inr rfl)⟩

theorem skipArgsLoop_type {t : RefType reserved} {rest : List Char} {s : Bytes} {x : Option Bytes}
    {n : ℕ} (htype : skipSig n (utf8.text (t.text ++ rest)) = some s)
    (hargs : skipArgsLoop n s = x) : skipArgsLoop (n + 1) (utf8.text (t.text ++ rest)) = x := by
  obtain ⟨c, cs, hc, hletter⟩ := refText_cons t
  rw [hc, List.cons_append] at htype ⊢
  rcases hletter with rfl | rfl | rfl <;> rw [text_ascii (by decide)] at htype ⊢ <;>
    rw [skipArgsLoop, if_neg (by decide), if_neg (by decide), if_neg (by decide), htype] <;>
    exact hargs

mutual

theorem skipSig_java (t : JavaType reserved) (rest : List Char) :
    ∀ᶠ n in atTop, skipSig n (utf8.text (t.text ++ rest)) = some (utf8.text rest) := by
  cases t with
  | base t =>
      apply eventually_succ
      apply Eventually.of_forall
      intro n
      cases t <;> rw [JavaType.text, List.singleton_append, text_ascii (by decide)] <;> rfl
  | ref t => exact skipSig_ref t rest

theorem skipSig_ref (t : RefType reserved) (rest : List Char) :
    ∀ᶠ n in atTop, skipSig n (utf8.text (t.text ++ rest)) = some (utf8.text rest) := by
  apply eventually_succ
  cases t with
  | typeVar name =>
      apply Eventually.of_forall
      intro n
      have hname : ';' ∉ 'T' :: name.text := by
        rw [List.mem_cons, not_or]
        exact ⟨by decide, fun h => name.allowed ';' h (by simp)⟩
      have hafter := afterSemicolon_text hname rest
      simp only [RefType.text, List.cons_append, List.append_assoc, List.nil_append] at hafter ⊢
      rw [text_ascii (by decide)] at hafter ⊢
      exact hafter
  | array elem =>
      filter_upwards [skipSig_java elem rest] with n hn
      rw [RefType.text, List.cons_append, text_ascii (by decide)]
      exact hn
  | cls package part =>
      filter_upwards [skipClass_append (packageText_notMem_stops package)
        (skipClass_part part rest)] with n hn
      simp only [RefType.text, List.cons_append, List.append_assoc, List.nil_append]
      rw [text_ascii (by decide)]
      exact hn

theorem skipClass_part (part : ClassPart reserved) (rest : List Char) :
    ∀ᶠ n in atTop, skipClass n (utf8.text (part.text ++ ';' :: rest)) = some (utf8.text rest) := by
  cases part with
  | last name targs =>
      rw [ClassPart.text, List.append_assoc]
      apply skipClass_append (Name.notMem_stops name)
      apply skipClass_targs (skipArgsLoop_items targs (';' :: rest))
      exact eventually_succ (.of_forall (skipClass_semicolon rest))
  | outer name targs inner =>
      rw [ClassPart.text, List.append_assoc, List.append_assoc, List.cons_append]
      apply skipClass_append (Name.notMem_stops name)
      apply skipClass_targs (skipArgsLoop_items targs ('.' :: (inner.text ++ ';' :: rest)))
      exact @skipClass_append ['.'] _ _ (by simp [stops]) (skipClass_part inner rest)

theorem skipArgsLoop_items (targs : TypeArgs reserved) (rest : List Char) :
    ∀ᶠ n in atTop, skipArgsLoop n (utf8.text (targs.items ++ '>' :: rest)) =
      some (utf8.text rest) := by
  apply eventually_succ
  cases targs with
  | nil =>
      apply Eventually.of_forall
      intro n
      rw [TypeArgs.items, List.nil_append, text_ascii (by decide)]
      rfl
  | star targs =>
      filter_upwards [skipArgsLoop_items targs rest] with n hn
      rw [TypeArgs.items, List.cons_append, text_ascii (by decide)]
      exact hn
  | arg variance t targs =>
      have htype := skipSig_ref t (targs.items ++ '>' :: rest)
      have hargs := skipArgsLoop_items targs rest
      rw [TypeArgs.items, List.append_assoc, List.append_assoc]
      cases variance with
      | exact =>
          filter_upwards [htype, hargs] with n hn hrest
          exact skipArgsLoop_type hn hrest
      | upper =>
          apply eventually_succ
          filter_upwards [htype, hargs] with n hn hrest
          rw [Variance.text, List.singleton_append, text_ascii (by decide)]
          exact skipArgsLoop_type hn hrest
      | lower =>
          apply eventually_succ
          filter_upwards [htype, hargs] with n hn hrest
          rw [Variance.text, List.singleton_append, text_ascii (by decide)]
          exact skipArgsLoop_type hn hrest

end

/-! ## Formal type parameters -/

theorem skipBounds_bounds (ts : List (RefType reserved)) {c : Char} (hc : c ≠ ':')
    (rest : List Char) :
    ∀ᶠ n in atTop, skipBounds n (utf8.text (ts.flatMap (fun t => ':' :: t.text) ++ c :: rest)) =
      some (utf8.text (c :: rest)) := by
  induction ts with
  | nil =>
      obtain ⟨u, us, heq, hu⟩ := text_cons_eq c rest
      apply eventually_succ
      apply Eventually.of_forall
      intro n
      rw [List.flatMap_nil, List.nil_append, heq, skipBounds, if_neg (hu ':' (by decide) hc.symm)]
  | cons t ts ih =>
      apply eventually_succ
      filter_upwards [skipSig_ref t (ts.flatMap (fun t => ':' :: t.text) ++ c :: rest),
        ih] with n hn hrest
      have hhead : ∀ s, (utf8.text (t.text ++ s)).head? = some (byte 'L') ∨
          (utf8.text (t.text ++ s)).head? = some (byte 'T') ∨
          (utf8.text (t.text ++ s)).head? = some (byte '[') := by
        intro s
        obtain ⟨d, ds, hd, hletter⟩ := refText_cons t
        rw [hd, List.cons_append]
        rcases hletter with rfl | rfl | rfl <;> rw [text_ascii (by decide)] <;> simp
      rw [List.flatMap_cons, List.append_assoc, List.cons_append, text_ascii (by decide),
        skipBounds, if_pos rfl, if_pos (hhead _), hn]
      exact hrest

/-- The bounds of a parameter that has one. -/
theorem skipBounds_param {p : TypeParam reserved} (hp : p.bounds ≠ []) {c : Char} (hc : c ≠ ':')
    (rest : List Char) :
    ∀ᶠ n in atTop, skipBounds n (utf8.text (':' :: (p.classBound.toList.flatMap RefType.text ++
        p.interfaceBounds.flatMap fun t => ':' :: t.text) ++ c :: rest)) =
      some (utf8.text (c :: rest)) := by
  obtain ⟨name, classBound, ts⟩ := p
  cases classBound with
  | some t => simpa using skipBounds_bounds (t :: ts) hc rest
  | none =>
      cases ts with
      | nil => exact absurd rfl hp
      | cons t ts =>
          -- There are two colons in a row.
          apply eventually_succ
          filter_upwards [skipBounds_bounds (t :: ts) hc rest] with n hn
          simp only [Option.toList_none, List.flatMap_nil, List.nil_append, List.flatMap_cons,
            List.cons_append] at hn ⊢
          rw [text_ascii (by decide)] at hn ⊢
          rw [skipBounds, if_pos rfl, text_ascii (by decide), if_neg (by simp [byte])]
          exact hn

theorem dropWhile_text {cs : List Char} (h : ':' ∉ cs) (rest : List Char) :
    (utf8.text (cs ++ ':' :: rest)).dropWhile (· ≠ byte ':') = utf8.text (':' :: rest) := by
  have hall : ∀ u ∈ utf8.text cs, decide (u ≠ byte ':') = true := fun u hu =>
    decide_eq_true fun heq => h ((byte_mem_text (by decide)).1 (heq ▸ hu))
  rw [utf8.text_append, List.dropWhile_append_of_pos hall, text_ascii (by decide),
    List.dropWhile_cons_of_neg (by simp)]

theorem skipFormalsLoop_params {ps : List (TypeParam reserved)} (hps : ∀ p ∈ ps, p.bounds ≠ [])
    (rest : List Char) :
    ∀ᶠ n in atTop, skipFormalsLoop n (utf8.text (ps.flatMap TypeParam.text ++ '>' :: rest)) =
      some (utf8.text rest) := by
  induction ps with
  | nil =>
      apply eventually_succ
      apply Eventually.of_forall
      intro n
      rw [List.flatMap_nil, List.nil_append, text_ascii (by decide)]
      rfl
  | cons p ps ih =>
      -- What follows the bounds is the next name or the end.
      obtain ⟨c, cs, hcs, hc⟩ : ∃ c cs, ps.flatMap TypeParam.text ++ '>' :: rest = c :: cs ∧
          c ≠ ':' := by
        cases ps with
        | nil => exact ⟨'>', rest, rfl, by decide⟩
        | cons q qs =>
            obtain ⟨c, cs, hcs⟩ := List.exists_cons_of_ne_nil q.name.nonempty
            refine ⟨c, _, by rw [List.flatMap_cons, TypeParam.text, hcs]; rfl, fun heq => ?_⟩
            exact q.name.allowed c (hcs ▸ List.mem_cons_self) (heq ▸ by simp)
      have hparam := skipBounds_param (hps p List.mem_cons_self) hc cs
      apply eventually_succ
      filter_upwards [hparam, ih fun q hq => hps q (List.mem_cons_of_mem _ hq)] with n hn hrest
      obtain ⟨d, ds, hds⟩ := List.exists_cons_of_ne_nil p.name.nonempty
      have hd : '>' ≠ d := fun heq => p.name.allowed d (hds ▸ List.mem_cons_self) (heq ▸ by simp)
      have hcolon : ':' ∉ p.name.text := fun h => p.name.allowed ':' h (by simp)
      have htext : (p :: ps).flatMap TypeParam.text ++ '>' :: rest =
          p.name.text ++ ':' :: (p.classBound.toList.flatMap RefType.text ++
            p.interfaceBounds.flatMap (fun t => ':' :: t.text) ++ c :: cs) := by
        rw [List.flatMap_cons, List.append_assoc, hcs]
        simp [TypeParam.text]
      have hdrop := dropWhile_text hcolon (p.classBound.toList.flatMap RefType.text ++
        p.interfaceBounds.flatMap (fun t => ':' :: t.text) ++ c :: cs)
      rw [htext]
      rw [hds, List.cons_append] at hdrop ⊢
      obtain ⟨u, us, hus, hu⟩ := text_cons_eq d (ds ++ ':' :: (p.classBound.toList.flatMap
        RefType.text ++ p.interfaceBounds.flatMap (fun t => ':' :: t.text) ++ c :: cs))
      rw [hus] at hdrop ⊢
      rw [skipFormalsLoop, if_neg (hu '>' (by decide) hd), hdrop, text_ascii (by decide)]
      rw [hcs] at hrest
      rw [List.cons_append, text_ascii (by decide)] at hn
      simp only [hn, Option.bind_eq_bind, Option.bind_some]
      exact hrest

/-- The section of the formal type parameters, which may be missing. -/
theorem skipFormalSection_params {ps : List (TypeParam reserved)}
    (hps : ∀ p ∈ ps, p.bounds ≠ []) {c : Char} (hc : c ≠ '<') (rest : List Char) :
    ∀ᶠ n in atTop, skipFormalSection n (utf8.text (typeParamsText ps ++ c :: rest)) =
      some (utf8.text (c :: rest)) := by
  cases ps with
  | nil =>
      obtain ⟨u, us, heq, hu⟩ := text_cons_eq c rest
      apply Eventually.of_forall
      intro n
      rw [typeParamsText, List.nil_append, heq, skipFormalSection]
      exact if_neg fun h => hu '<' (by decide) hc.symm (Option.some.inj h)
  | cons p ps =>
      filter_upwards [skipFormalsLoop_params hps (c :: rest)] with n hn
      rw [typeParamsText, List.cons_append, List.cons_append, List.append_assoc,
        List.singleton_append, text_ascii (by decide), skipFormalSection, if_pos List.head?_cons, skipFormals]
      exact hn

end ScalaRs.SignatureErasure
