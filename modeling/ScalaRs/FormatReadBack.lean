import ScalaRs.FormatInterpolation

/-! # Reading an assembled format string

The format string reads as the specifiers, with the rest of each part between them, exactly if no
part has the escape `%N`, which is taken for text and which a `Formatter` does not know. -/
namespace ScalaRs.FormatInterpolation
open FormatStrings

/-- The specifier that a `Formatter` should read. -/
def FSpec.specifier (spec : FSpec) : Specifier :=
  ⟨none, spec.flags, spec.width, spec.precision, none, spec.conv⟩

/-- A part without the specifier that takes the hole before it. -/
def withoutSpecifier (part : List Char) : List Char :=
  match part with
  | '%' :: s =>
      match readSpecifier s with
      | some (f, rest) => if f.consumes then rest else part
      | none => part
  | _ => part

/-- The format string has one specifier for each hole, those that were assembled, with the parts
between them. -/
def ReadsBack (parts : List (List Char)) (nargs : ℕ) (format : List Char) (specs : List FSpec) :
    Prop :=
  specs.length = nargs ∧ parse format = some (parts.headD [],
    List.zipWith (fun spec part => (spec.specifier, withoutSpecifier part)) specs parts.tail)

/-- The text has the escape `%N`, where escapes are read from the left. -/
def escapesN : List Char → Bool
  | [] => false
  | c :: s =>
      if c = '%' then
        match s with
        | n :: rest => n == 'N' || escapesN rest
        | [] => false
      else escapesN s

/-! ## Text -/

theorem Except.bind_eq_ok {ε α β : Type} {x : Except ε α} {f : α → Except ε β} {b : β} :
    (x >>= f) = .ok b ↔ ∃ a, x = .ok a ∧ f a = .ok b := by
  cases x with
  | error e => simp [bind, Except.bind]
  | ok a => simp [bind, Except.bind]

theorem isEscape_iff {c : Char} : isEscape c = true ↔ c = '%' ∨ c = 'n' ∨ c = 'N' := by
  simp [isEscape]

theorem readSpecifier_percent (rest : List Char) :
    readSpecifier ('%' :: rest) = some (⟨none, [], none, none, none, '%'⟩, rest) := by
  simp [readSpecifier, readIndex, readNumber, readPrecision, readDateTime, isValid, isFlag,
    isConversion, Char.isDigit]

theorem readSpecifier_newline (rest : List Char) :
    readSpecifier ('n' :: rest) = some (⟨none, [], none, none, none, 'n'⟩, rest) := by
  simp [readSpecifier, readIndex, readNumber, readPrecision, readDateTime, isValid, isFlag,
    isConversion, Char.isDigit]

theorem readSpecifier_capitalN (rest : List Char) : readSpecifier ('N' :: rest) = none := by
  simp [readSpecifier, readIndex, readNumber, readPrecision, readDateTime, isValid, isFlag,
    isConversion, Char.isDigit]

theorem text_nil (l : Option Layout) : l.map (Layout.text []) = l := by
  cases l <;> simp [Layout.text]

theorem map_text_text (s t : List Char) (l : Option Layout) :
    (l.map (Layout.text t)).map (Layout.text s) = l.map (Layout.text (s ++ t)) := by
  cases l <;> simp [Layout.text]

theorem map_text_ite (b : Bool) (s t : List Char) (l : Option Layout) :
    (if b then none else l.map (Layout.text t)).map (Layout.text s) =
      if b then none else l.map (Layout.text (s ++ t)) := by
  cases b
  · exact map_text_text s t l
  · rfl

theorem parse_escaped {n : Char} (hn : n = '%' ∨ n = 'n') (s : List Char) :
    parse ('%' :: n :: s) = (parse s).map (Layout.text ['%', n]) := by
  rcases hn with rfl | rfl
  · rw [parse_escape (readSpecifier_percent s) (by decide)]
    simp
  · rw [parse_escape (readSpecifier_newline s) (by decide)]
    simp

theorem escapesN_plain {c : Char} (hc : c ≠ '%') (s : List Char) :
    escapesN (c :: s) = escapesN s := by
  cases s <;> simp [escapesN, hc]

/-- Checked text is kept. It is read as text, unless it has the escape `%N`. -/
theorem checkLiteral_eq_ok {s out : List Char} (h : checkLiteral s = .ok out) (rest : List Char) :
    out = s ∧ parse (s ++ rest) =
      if escapesN s then none else (parse rest).map (Layout.text s) := by
  fun_induction checkLiteral s generalizing out with
  | case1 =>
      cases h
      simp [escapesN, text_nil]
  | case2 n s hn ih =>
      obtain ⟨out', hout, heq⟩ := Except.bind_eq_ok.1 h
      obtain ⟨rfl, hparse⟩ := ih hout
      cases heq
      refine ⟨rfl, ?_⟩
      simp only [List.cons_append, escapesN, if_true]
      rcases isEscape_iff.1 hn with rfl | rfl | rfl
      · rw [parse_escaped (.inl rfl), hparse, map_text_ite]
        rfl
      · rw [parse_escaped (.inr rfl), hparse, map_text_ite]
        rfl
      · rw [parse_of_readSpecifier_eq_none (readSpecifier_capitalN _)]
        simp
  | case3 n s hn => cases h
  | case4 => cases h
  | case5 c s hc ih =>
      obtain ⟨out', hout, heq⟩ := Except.bind_eq_ok.1 h
      obtain ⟨rfl, hparse⟩ := ih hout
      cases heq
      refine ⟨rfl, ?_⟩
      rw [List.cons_append, parse_plain hc, hparse, map_text_ite, escapesN_plain hc]
      rfl

/-! ## Specifiers -/

theorem pushDigit_pos {n : ℕ} {c : Char} (h : 0 < n) : 0 < pushDigit n c := by
  have hmax : 0 < u32Max := by decide
  simp only [pushDigit]
  omega

theorem specNumber_pos {c : Char} {cs : List Char} (hdigit : c.isDigit = true) (hzero : c ≠ '0') :
    0 < specNumber (c :: cs) := by
  have hfirst : 0 < pushDigit 0 c := by
    have hlow : 48 ≤ c.toNat := by
      simp only [Char.isDigit, Bool.and_eq_true, decide_eq_true_eq] at hdigit
      exact hdigit.1
    have hne : c.toNat ≠ 48 := fun h => hzero (Char.ext (UInt32.toNat_inj.1 h))
    have hmax : u32Max = 4294967295 := rfl
    simp only [pushDigit, show '0'.toNat = 48 from rfl]
    omega
  have hfold (n : ℕ) (hn : 0 < n) : 0 < cs.foldl pushDigit n := by
    induction cs generalizing n with
    | nil => exact hn
    | cons d ds ih => exact ih _ (pushDigit_pos hn)
  exact hfold _ hfirst

/-- A byte that is a letter is a character by itself. -/
theorem byteChar_of_isAlpha {c : Char} (h : (byteChar c).isAlpha = true) : byteChar c = c := by
  have hlead {n : ℕ} (hlow : 192 ≤ n) (hhigh : n < 256) :
      (Char.ofNat (UInt8.ofNat n).toNat).isAlpha = false := by
    rw [UInt8.toNat_ofNat_of_lt' hhigh]
    interval_cases n <;> decide
  have hval : c.val.toNat = c.toNat := rfl
  unfold byteChar at h ⊢
  rw [String.utf8EncodeChar, hval] at h ⊢
  split at h
  · rename_i hascii
    rw [if_pos hascii, List.headD_cons, UInt8.toNat_ofNat_of_lt' (by omega : c.toNat < 256),
      Char.ofNat_toNat]
  · split at h
    · rw [List.headD_cons, hlead (by omega) (by omega)] at h
      cases h
    · split at h
      · rw [List.headD_cons, hlead (by omega) (by omega)] at h
        cases h
      · rw [List.headD_cons, hlead (by omega) (by omega)] at h
        cases h

/-! ## Leading specifiers -/

theorem not_isFlag_of_isAlpha {c : Char} (h : c.isAlpha = true) : isFlag c = false := by
  rw [← Bool.not_eq_true]
  intro hflag
  simp only [isFlag, List.mem_cons, List.not_mem_nil, or_false, decide_eq_true_eq] at hflag
  rcases hflag with rfl | rfl | rfl | rfl | rfl | rfl | rfl | rfl <;> exact absurd h (by decide)

theorem isFlag_of_isSpecFlag {c : Char} (h : isSpecFlag c = true) : isFlag c = true := by
  simp only [isSpecFlag, List.mem_cons, List.not_mem_nil, or_false, decide_eq_true_eq] at h
  rcases h with rfl | rfl | rfl | rfl | rfl | rfl | rfl <;> decide

theorem specConv_eq_ok {s after : List Char} {c : Char} (h : specConv s = .ok (c, after)) :
    s = c :: after ∧ c.isAlpha = true ∧ c ≠ 't' ∧ c ≠ 'T' := by
  unfold specConv at h
  split at h
  · cases h
  · rename_i d rest
    dsimp only at h
    split at h
    · cases h
    · rename_i hdate
      split at h
      · rename_i halpha
        cases h
        simp only [byteChar_of_isAlpha halpha] at hdate halpha ⊢
        push Not at hdate
        exact ⟨trivial, halpha, hdate⟩
      · cases h

theorem specWidth_snd (s : List Char) : (specWidth s).2 = (readNumber s).2 := by
  unfold specWidth readNumber
  split <;> rfl

theorem specPrecision_eq_ok {s rest : List Char} {o : Option ℕ}
    (h : specPrecision s = .ok (o, rest)) : (readPrecision s).2 = rest := by
  unfold specPrecision at h
  split at h
  · rename_i t
    split at h
    · cases h
    · rename_i hdigits
      cases h
      simp [readPrecision, readNumber, hdigits]
  · rename_i hdot
    cases h
    unfold readPrecision
    split
    · rename_i t
      exact absurd rfl (hdot t)
    · rfl

/-- The character after the flags is no flag of a `Formatter` either. -/
theorem dropWhile_cons {s rest after : List Char} {o : Option ℕ} {c : Char}
    (hprecision : specPrecision (specWidth (s.dropWhile isSpecFlag)).2 = .ok (o, rest))
    (hconv : specConv rest = .ok (c, after)) :
    ∃ d t, s.dropWhile isSpecFlag = d :: t ∧ isSpecFlag d = false ∧ isFlag d = false := by
  cases hdrop : s.dropWhile isSpecFlag with
  | nil =>
      rw [hdrop] at hprecision
      cases hprecision
      cases hconv
  | cons d t =>
      have hd : isSpecFlag d = false := by
        have hhead := List.head_dropWhile_not isSpecFlag (l := s) (by simp [hdrop])
        simpa [hdrop] using hhead
      refine ⟨d, t, rfl, hd, ?_⟩
      by_cases hlt : d = '<'
      · subst hlt
        rw [hdrop] at hprecision
        have hrest : rest = '<' :: t := by
          have hwidth : (specWidth ('<' :: t)).2 = '<' :: t := by
            simp [specWidth, Char.isDigit]
          rw [hwidth] at hprecision
          cases hprecision
          rfl
        obtain ⟨heq, halpha, -⟩ := specConv_eq_ok hconv
        rw [hrest] at heq
        rw [← (List.cons.inj heq).1] at halpha
        exact absurd halpha (by decide)
      · simpa [isFlag, isSpecFlag, hlt] using hd

theorem conv_of_kind {spec : FSpec} (h : spec.kind ≠ .unsupported) :
    isConversion spec.conv = true ∧ spec.conv ≠ '%' ∧ spec.conv ≠ 'n' := by
  have hmem : spec.conv ∈ ['b', 'B', 'h', 'H', 's', 'S', 'c', 'C', 'd', 'o', 'x', 'X', 'e', 'E',
      'f', 'g', 'G', 'a', 'A'] := by
    by_contra hnot
    apply h
    simp only [List.mem_cons, List.not_mem_nil, or_false, not_or] at hnot
    simp [FSpec.kind, hnot]
  refine ⟨decide_eq_true (List.mem_append_left ['%', 'n'] hmem), ?_, ?_⟩
  · intro heq
    simp [heq] at hmem
  · intro heq
    simp [heq] at hmem

/-- What has been read where a specifier is found. -/
theorem leadingSpec_some {part after : List Char} {spec : FSpec}
    (h : leadingSpec part = .ok (some spec, after)) :
    ∃ s rest, part = '%' :: s ∧ (s.head?.map isEscape).getD false = false ∧
      (s.dropWhile Char.isDigit).head? ≠ some '$' ∧
      specPrecision (specWidth (s.dropWhile isSpecFlag)).2 = .ok (spec.precision, rest) ∧
      specConv rest = .ok (spec.conv, after) ∧ spec.flags = s.takeWhile isSpecFlag ∧
      spec.width = (specWidth (s.dropWhile isSpecFlag)).1 := by
  unfold leadingSpec at h
  split at h
  · rename_i s
    split at h
    · cases h
    · rename_i hescape
      split at h
      · cases h
      · split at h
        · cases h
        · rename_i hdollar
          dsimp only at h
          obtain ⟨⟨precision, rest⟩, hprecision, h⟩ := Except.bind_eq_ok.1 h
          obtain ⟨⟨conv, after'⟩, hconv, h⟩ := Except.bind_eq_ok.1 h
          simp only [Except.ok.injEq, Prod.mk.injEq, Option.some.injEq] at h
          obtain ⟨rfl, rfl⟩ := h
          exact ⟨s, rest, rfl, by simpa using hescape, hdollar, hprecision, hconv, rfl, rfl⟩
  · cases h

section
variable {part after : List Char} {spec : FSpec}
  (h : leadingSpec part = .ok (some spec, after)) (hkind : spec.kind ≠ .unsupported)
include h hkind

/-- A specifier that is found is one that a `Formatter` finds, up to the bound on its numbers. -/
theorem readSpecifier_leadingSpec :
    ∃ s f, part = '%' :: s ∧ s.head? ≠ some 'N' ∧ readSpecifier s = some (f, after) ∧
      f.consumes = true := by
  obtain ⟨s, rest, rfl, hescape, hdollar, hprecision, hconv, -⟩ := leadingSpec_some h
  obtain ⟨hvalid, hpercent, hn⟩ := conv_of_kind hkind
  obtain ⟨d, t, hdrop, -, hd⟩ := dropWhile_cons hprecision hconv
  obtain ⟨rfl, -, ht, hT⟩ := specConv_eq_ok hconv
  have hs : s = s.takeWhile isSpecFlag ++ d :: t := by
    rw [← hdrop, List.takeWhile_append_dropWhile]
  have hflags : ∀ c ∈ s.takeWhile isSpecFlag, isFlag c = true := fun c hc =>
    isFlag_of_isSpecFlag (List.mem_takeWhile_imp hc)
  have htake : s.takeWhile isFlag = s.takeWhile isSpecFlag :=
    (congrArg _ hs).trans (takeWhile_append_cons hflags hd t)
  have hdropFlag : s.dropWhile isFlag = s.dropWhile isSpecFlag :=
    (congrArg _ hs).trans ((dropWhile_append_cons hflags hd t).trans hdrop.symm)
  have hindex : readIndex s = (none, s) := by
    unfold readIndex readNumber
    split
    · rename_i n rest hnumber
      split at hnumber
      · cases hnumber
      · simp only [Prod.mk.injEq] at hnumber
        exact absurd (by rw [hnumber.2]; rfl) hdollar
    · rfl
  have hdate : readDateTime (spec.conv :: after) = (none, spec.conv :: after) := by
    simp [readDateTime, ht, hT]
  have hrest := specPrecision_eq_ok hprecision
  rw [specWidth_snd] at hrest
  refine ⟨s, ⟨none, s.takeWhile isSpecFlag, (readNumber (s.dropWhile isSpecFlag)).1,
    (readPrecision (readNumber (s.dropWhile isSpecFlag)).2).1, none, spec.conv⟩, rfl, ?_, ?_, ?_⟩
  · intro hN
    simp [hN, isEscape] at hescape
  · simp only [readSpecifier, hindex, htake, hdropFlag, hrest, hdate, isValid, hvalid,
      Option.isSome_none, Bool.false_eq_true, if_false, if_true]
  · simp [Specifier.consumes, hpercent, hn]

/-- It is written as one that a `Formatter` reads back: a width has no leading zero. -/
theorem leadingSpec_plain : spec.specifier.Plain := by
  obtain ⟨s, rest, -, -, -, hprecision, hconv, hflags, hwidth⟩ := leadingSpec_some h
  refine ⟨rfl, rfl, ?_, ?_, (conv_of_kind hkind).1⟩
  · intro c hc
    rw [FSpec.specifier, hflags] at hc
    exact isFlag_of_isSpecFlag (List.mem_takeWhile_imp hc)
  · obtain ⟨d, t, hdrop, hd, -⟩ := dropWhile_cons hprecision hconv
    rw [hdrop] at hwidth
    change spec.width ≠ some 0
    rw [hwidth]
    cases hdigit : d.isDigit with
    | false => simp [specWidth, hdigit]
    | true =>
        have hzero : d ≠ '0' := by
          rintro rfl
          exact absurd hd (by decide)
        have hpos : 0 < specNumber (d :: t.takeWhile Char.isDigit) := specNumber_pos hdigit hzero
        simp only [specWidth, List.takeWhile_cons, hdigit, if_true, List.cons_ne_nil, if_false,
          ne_eq, Option.some.injEq]
        omega

end

theorem defaultSpec_plain : defaultSpec.specifier.Plain :=
  ⟨rfl, rfl, by simp [defaultSpec, FSpec.specifier], by simp [defaultSpec, FSpec.specifier],
    by decide⟩

/-! ## Holes -/

theorem pattern_eq (spec : FSpec) : spec.pattern = '%' :: spec.specifier.body := by
  rfl

theorem parse_pattern {spec : FSpec} (hplain : spec.specifier.Plain)
    (hkind : spec.kind ≠ .unsupported) (rest : List Char) :
    parse (spec.pattern ++ rest) = (parse rest).map (Layout.hole spec.specifier) := by
  obtain ⟨-, hpercent, hn⟩ := conv_of_kind hkind
  rw [pattern_eq, List.cons_append]
  apply parse_hole (readSpecifier_body hplain rest)
  simp [Specifier.consumes, FSpec.specifier, hpercent, hn]

theorem checkSpec_eq_ok {spec : FSpec} (h : checkSpec spec = .ok ()) :
    spec.kind ≠ .unsupported := by
  intro hkind
  simp [checkSpec, hkind] at h

theorem withoutSpecifier_escape {s : List Char} (h : (s.head?.map isEscape).getD false = true) :
    withoutSpecifier ('%' :: s) = '%' :: s := by
  cases s with
  | nil => cases h
  | cons n rest =>
      rcases isEscape_iff.1 h with rfl | rfl | rfl
      · simp [withoutSpecifier, readSpecifier_percent, Specifier.consumes]
      · simp [withoutSpecifier, readSpecifier_newline, Specifier.consumes]
      · simp [withoutSpecifier, readSpecifier_capitalN]

theorem leadingSpec_none {part after : List Char} (h : leadingSpec part = .ok (none, after)) :
    after = part ∧ withoutSpecifier part = part := by
  unfold leadingSpec at h
  split at h
  · rename_i s
    split at h
    · rename_i hescape
      cases h
      exact ⟨rfl, withoutSpecifier_escape hescape⟩
    · split at h
      · cases h
      · split at h
        · cases h
        · dsimp only at h
          obtain ⟨⟨precision, rest⟩, -, h⟩ := Except.bind_eq_ok.1 h
          obtain ⟨⟨conv, after'⟩, -, h⟩ := Except.bind_eq_ok.1 h
          cases h
  · rename_i hpercent
    cases h
    refine ⟨rfl, ?_⟩
    unfold withoutSpecifier
    split
    · rename_i s
      exact absurd rfl (hpercent s)
    · rfl

theorem escapesN_append {xs : List Char} (h : ∀ c ∈ xs, c ≠ '%') (s : List Char) :
    escapesN (xs ++ s) = escapesN s := by
  induction xs with
  | nil => rfl
  | cons c xs ih =>
      rw [List.cons_append, escapesN_plain (h c List.mem_cons_self),
        ih fun d hd => h d (List.mem_cons_of_mem _ hd)]

theorem ne_percent_of_isDigit {c : Char} (h : c.isDigit = true) : c ≠ '%' := by
  rintro rfl
  exact absurd h (by decide)

theorem escapesN_dropWhile {p : Char → Bool} (hp : ∀ c, p c = true → c ≠ '%') (s : List Char) :
    escapesN (s.dropWhile p) = escapesN s := by
  conv_rhs => rw [← List.takeWhile_append_dropWhile (p := p) (l := s)]
  exact (escapesN_append (fun c hc => hp c (List.mem_takeWhile_imp hc)) _).symm

theorem escapesN_specWidth (s : List Char) : escapesN (specWidth s).2 = escapesN s := by
  unfold specWidth
  split
  · rfl
  · exact escapesN_dropWhile (fun c => ne_percent_of_isDigit) s

theorem escapesN_specPrecision {s rest : List Char} {o : Option ℕ}
    (h : specPrecision s = .ok (o, rest)) : escapesN rest = escapesN s := by
  unfold specPrecision at h
  split at h
  · split at h
    · cases h
    · cases h
      rw [escapesN_dropWhile (fun c => ne_percent_of_isDigit), escapesN_plain (by decide)]
  · cases h
    rfl

theorem escapesN_specConv {s after : List Char} {c : Char} (h : specConv s = .ok (c, after)) :
    escapesN after = escapesN s := by
  obtain ⟨rfl, halpha, -⟩ := specConv_eq_ok h
  rw [escapesN_plain]
  rintro rfl
  exact absurd halpha (by decide)

/-- A specifier is no escape and has none. -/
theorem escapesN_leadingSpec {part after : List Char} {spec : FSpec}
    (h : leadingSpec part = .ok (some spec, after)) : escapesN part = escapesN after := by
  obtain ⟨s, rest, rfl, hescape, -, hprecision, hconv, -⟩ := leadingSpec_some h
  rw [escapesN_specConv hconv, escapesN_specPrecision hprecision, escapesN_specWidth,
    escapesN_dropWhile]
  · cases s with
    | nil => rfl
    | cons n rest =>
        have hn : n ≠ '%' ∧ n ≠ 'n' ∧ n ≠ 'N' := by simpa [isEscape] using hescape
        rw [escapesN_plain hn.1]
        simp [escapesN, hn.2.2]
  · rintro c hc rfl
    exact absurd hc (by decide)

theorem withoutSpecifier_leadingSpec {part after : List Char} {spec : FSpec}
    (h : leadingSpec part = .ok (some spec, after)) (hkind : spec.kind ≠ .unsupported) :
    withoutSpecifier part = after := by
  obtain ⟨s, f, rfl, -, hread, hconsumes⟩ := readSpecifier_leadingSpec h hkind
  simp [withoutSpecifier, hread, hconsumes]

/-- What a hole contributes: its specifier, and the part after it without one. -/
theorem leadingSpec_hole {part after : List Char} {o : Option FSpec}
    (h : leadingSpec part = .ok (o, after))
    (hkind : (o.getD defaultSpec).kind ≠ .unsupported) :
    (o.getD defaultSpec).specifier.Plain ∧ after = withoutSpecifier part ∧
      escapesN after = escapesN part := by
  cases o with
  | none =>
      obtain ⟨rfl, hpart⟩ := leadingSpec_none h
      exact ⟨defaultSpec_plain, hpart.symm, rfl⟩
  | some spec =>
      exact ⟨leadingSpec_plain h hkind, (withoutSpecifier_leadingSpec h hkind).symm,
        (escapesN_leadingSpec h).symm⟩

/-- The layout of the holes, unless a part has the escape `%N`. -/
def holesLayout (specs : List FSpec) (parts : List (List Char)) : Option Layout :=
  if parts.any escapesN then none
  else some ([], List.zipWith (fun spec part => (spec.specifier, withoutSpecifier part)) specs parts)

theorem parse_assembleHoles {n : ℕ} {parts : List (List Char)} {out : List Char}
    {specs : List FSpec} (hlen : parts.length = n)
    (h : assembleHoles n parts = .ok (out, specs)) :
    specs.length = n ∧ parse out = holesLayout specs parts := by
  induction n generalizing parts out specs with
  | zero =>
      rw [List.length_eq_zero_iff.1 hlen] at h ⊢
      cases h
      exact ⟨rfl, by simp [parse_nil, holesLayout]⟩
  | succ n ih =>
      cases parts with
      | nil => cases hlen
      | cons part parts =>
          obtain ⟨⟨o, after⟩, hspec, h⟩ := Except.bind_eq_ok.1 h
          obtain ⟨⟨⟩, hcheck, h⟩ := Except.bind_eq_ok.1 h
          obtain ⟨text, htext, h⟩ := Except.bind_eq_ok.1 h
          obtain ⟨⟨out', specs'⟩, hrest, h⟩ := Except.bind_eq_ok.1 h
          cases h
          have hkind := checkSpec_eq_ok hcheck
          obtain ⟨hlength, hparse⟩ := ih (Nat.succ.inj hlen) hrest
          obtain ⟨hplain, hafter, hescape⟩ := leadingSpec_hole hspec hkind
          obtain ⟨rfl, htextParse⟩ := checkLiteral_eq_ok htext out'
          refine ⟨congrArg Nat.succ hlength, ?_⟩
          rw [List.append_assoc, parse_pattern hplain hkind, htextParse, hparse, hescape, hafter]
          cases hpart : escapesN part with
          | true => simp [holesLayout, hpart]
          | false =>
              by_cases hany : parts.any escapesN = true
              · simp [holesLayout, hpart, hany]
              · simp [holesLayout, hpart, hany, Layout.text, Layout.hole]

end ScalaRs.FormatInterpolation
