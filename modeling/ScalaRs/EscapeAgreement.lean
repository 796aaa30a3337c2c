import ScalaRs.LexerSpans

/-! # The two decoders of escapes

`s"text"` is unescaped while it is read, `s"""text"""` once it is complete. They agree
except on unicode escapes with more than one `u`. -/
namespace ScalaRs.Lexing
open WhileLoops

/-! ## What the escapes of a text stand for -/

/-- The text with its escapes replaced; `us` are the numbers of `u`s of its unicode escapes. -/
inductive Unescapes : List ℕ → List Char → List Char → Prop
  | nil : Unescapes [] [] []
  | plain (us : List ℕ) (c : Char) (text value : List Char) (plain : c ≠ '\\')
      (rest : Unescapes us text value) : Unescapes us (c :: text) (c :: value)
  | simple (us : List ℕ) (e ch : Char) (text value : List Char)
      (simple : (e, ch) ∈ [('b', '\x08'), ('t', '\t'), ('n', '\n'), ('f', '\x0c'), ('r', '\r'),
        ('"', '"'), ('\'', '\''), ('\\', '\\')])
      (rest : Unescapes us text value) : Unescapes us ('\\' :: e :: text) (ch :: value)
  | unicode (us : List ℕ) (n : ℕ) (digits : List Char) (ch : Char) (text value : List Char)
      (length : digits.length = 4) (hex : ∀ c ∈ digits, isAsciiHexdigit c)
      (code : fromU32 (fromHex digits) = some ch) (rest : Unescapes us text value) :
      Unescapes ((n + 1) :: us) ('\\' :: (List.replicate (n + 1) 'u' ++ (digits ++ text)))
        (ch :: value)

theorem processSimpleEscape_iff (e ch : Char) : processSimpleEscape e = some ch ↔
    (e, ch) ∈ [('b', '\x08'), ('t', '\t'), ('n', '\n'), ('f', '\x0c'), ('r', '\r'),
      ('"', '"'), ('\'', '\''), ('\\', '\\')] := by
  unfold processSimpleEscape
  split <;> simp_all [eq_comm]

theorem readSimpleEscape_eq (e : Char) : readSimpleEscape e = processSimpleEscape e := by
  unfold readSimpleEscape processSimpleEscape
  split <;> simp_all

theorem hexdigit_ne_u {c : Char} (h : isAsciiHexdigit c = true) : c ≠ 'u' := by
  rintro rfl
  simp [isAsciiHexdigit, isAsciiDigit] at h

/-! ## Unescaping a complete part -/

theorem takeWhile_us {digits : List Char} (hhex : ∀ c ∈ digits, isAsciiHexdigit c)
    (hne : digits ≠ []) (n : ℕ) (text : List Char) :
    (List.replicate n 'u' ++ (digits ++ text)).takeWhile (· = 'u') = List.replicate n 'u' := by
  obtain ⟨d, ds, rfl⟩ := List.exists_cons_of_ne_nil hne
  have hd := hexdigit_ne_u (hhex d List.mem_cons_self)
  rw [List.takeWhile_append_of_pos (by simp), List.cons_append,
    List.takeWhile_cons_of_neg (by simpa using hd), List.append_nil]

theorem decodeUnicode_of {digits : List Char} {ch : Char} (hlen : digits.length = 4)
    (hhex : ∀ c ∈ digits, isAsciiHexdigit c) (hcode : fromU32 (fromHex digits) = some ch)
    (n : ℕ) (text : List Char) :
    decodeUnicode (List.replicate n 'u' ++ (digits ++ text)) = some (ch, n + 4) := by
  have hne : digits ≠ [] := by
    intro hnil
    rw [hnil] at hlen
    cases hlen
  have hus := takeWhile_us hhex hne n text
  have hdrop : ((List.replicate n 'u' ++ (digits ++ text)).drop n).take 4 = digits := by
    have h : (List.replicate n 'u' ++ (digits ++ text)).drop n = digits ++ text := by
      simp
    rw [h, ← hlen]
    exact List.take_left
  unfold decodeUnicode
  dsimp only
  rw [hus, List.length_replicate, hdrop, if_pos ⟨hlen, List.all_eq_true.mpr hhex⟩, hcode]
  rfl

theorem decodeUnicode_some {cs : List Char} {ch : Char} {k : ℕ}
    (h : decodeUnicode cs = some (ch, k)) : ∃ n digits text, k = n + 4 ∧
      cs = List.replicate n 'u' ++ (digits ++ text) ∧ digits.length = 4 ∧
      (∀ c ∈ digits, isAsciiHexdigit c) ∧ fromU32 (fromHex digits) = some ch := by
  unfold decodeUnicode at h
  dsimp only at h
  split at h
  · next hdigits =>
    obtain ⟨c, hc, heq⟩ := Option.map_eq_some_iff.mp h
    obtain ⟨rfl, rfl⟩ := Prod.mk.inj heq
    refine ⟨_, _, (cs.drop (cs.takeWhile (· = 'u')).length).drop 4, rfl, ?_, hdigits.1,
      List.all_eq_true.mp hdigits.2, hc⟩
    have hus : List.replicate (cs.takeWhile (· = 'u')).length 'u' = cs.takeWhile (· = 'u') := by
      apply (List.eq_replicate_of_mem _).symm
      intro c hc
      exact of_decide_eq_true (List.mem_takeWhile_imp (p := fun x => decide (x = 'u')) hc)
    rw [List.take_append_drop, hus]
    exact (List.prefix_iff_eq_append.mp (List.takeWhile_prefix _)).symm
  · cases h

theorem processEscapesFrom_skip (s : List Char) (k i : ℕ) (cs : List Char) :
    processEscapesFrom s k i cs = processEscapesFrom s 0 (i + k) (cs.drop k) := by
  induction cs generalizing k i with
  | nil =>
    rw [List.drop_nil]
    cases k <;> rfl
  | cons c cs ih =>
    cases k with
    | zero => rfl
    | succ k =>
      rw [processEscapesFrom, ih, List.drop_succ_cons, Nat.add_right_comm, Nat.add_assoc]

theorem Unescapes.processEscapesFrom {us : List ℕ} {text value : List Char}
    (h : Unescapes us text value) (s : List Char) (i : ℕ) :
    processEscapesFrom s 0 i text = (value, none) := by
  induction h generalizing i with
  | nil => rfl
  | plain us c text value hplain rest ih =>
    rw [Lexing.processEscapesFrom, if_pos hplain, ih]
  | simple us e ch text value hsimple rest ih =>
    rw [Lexing.processEscapesFrom, if_neg (not_not.mpr rfl)]
    dsimp only [List.head?_cons]
    rw [(processSimpleEscape_iff e ch).mpr hsimple]
    dsimp only
    rw [processEscapesFrom_skip, List.drop_succ_cons, List.drop_zero, ih]
  | unicode us n digits ch text value hlen hhex hcode rest ih =>
    rw [Lexing.processEscapesFrom, if_neg (not_not.mpr rfl), List.replicate_succ, List.cons_append]
    dsimp only [List.head?_cons]
    have hnone : processSimpleEscape 'u' = none := rfl
    rw [hnone]
    dsimp only
    rw [if_pos rfl, ← List.cons_append, ← List.replicate_succ, decodeUnicode_of hlen hhex hcode]
    dsimp only
    rw [processEscapesFrom_skip]
    have hdrop : (List.replicate (n + 1) 'u' ++ (digits ++ text)).drop (n + 1 + 4) = text := by
      rw [← List.append_assoc]
      apply List.drop_left'
      rw [List.length_append, List.length_replicate, hlen]
    rw [hdrop, ih]

theorem unescapes_of_processEscapesFrom (s : List Char) (i : ℕ) (text value : List Char)
    (h : processEscapesFrom s 0 i text = (value, none)) : ∃ us, Unescapes us text value := by
  induction hn : text.length using Nat.strong_induction_on generalizing i text value with
  | h n ih =>
    cases text with
    | nil =>
      cases h
      exact ⟨[], .nil⟩
    | cons c cs =>
      have hlen : cs.length < n := by
        rw [← hn]
        exact Nat.lt_succ_self _
      rw [processEscapesFrom] at h
      by_cases hc : c = '\\'
      · rw [if_neg (not_not.mpr hc)] at h
        cases cs with
        | nil => cases h
        | cons e cs =>
          dsimp only [List.head?_cons] at h
          cases hsimple : processSimpleEscape e with
          | some ch =>
            rw [hsimple] at h
            dsimp only at h
            rw [processEscapesFrom_skip, List.drop_succ_cons, List.drop_zero] at h
            obtain ⟨hvalue, hnone⟩ := Prod.mk.inj h
            obtain ⟨us, hrest⟩ := ih cs.length (by simp at hlen; omega) (i + 1 + 1) cs
              (processEscapesFrom s 0 (i + 1 + 1) cs).1 (Prod.ext rfl hnone) rfl
            rw [hc, ← hvalue]
            exact ⟨us, .simple us e ch cs _ ((processSimpleEscape_iff e ch).mp hsimple) hrest⟩
          | none =>
            rw [hsimple] at h
            dsimp only at h
            split at h
            · next hu =>
              cases hdecode : decodeUnicode (e :: cs) with
              | none =>
                rw [hdecode] at h
                cases h
              | some r =>
                obtain ⟨ch, k⟩ := r
                obtain ⟨n', digits, text, rfl, heq, hdigits, hhex, hcode⟩ :=
                  decodeUnicode_some hdecode
                rw [hdecode] at h
                dsimp only at h
                rw [processEscapesFrom_skip] at h
                have hdrop : (e :: cs).drop (n' + 4) = text := by
                  rw [heq, ← List.append_assoc]
                  apply List.drop_left'
                  rw [List.length_append, List.length_replicate, hdigits]
                rw [hdrop] at h
                obtain ⟨hvalue, hnone⟩ := Prod.mk.inj h
                have htext : text.length < n := by
                  have hall := congrArg List.length heq
                  rw [List.length_append, List.length_append, hdigits] at hall
                  omega
                obtain ⟨us, hrest⟩ := ih text.length htext _ text _ (Prod.ext rfl hnone) rfl
                -- the text begins with a `u`, which is no digit
                obtain ⟨m, rfl⟩ : ∃ m, n' = m + 1 := by
                  cases n' with
                  | succ m => exact ⟨m, rfl⟩
                  | zero =>
                    obtain ⟨d, ds, rfl⟩ := List.exists_cons_of_length_eq_add_one hdigits
                    have hd : e = d := (List.cons_eq_cons.mp heq).1
                    exact absurd (hd.symm.trans hu) (hexdigit_ne_u (hhex d List.mem_cons_self))
                rw [hc, heq, ← hvalue]
                exact ⟨_, .unicode us m digits ch text _ hdigits hhex hcode hrest⟩
            · cases h
      · rw [if_pos hc] at h
        obtain ⟨hvalue, hnone⟩ := Prod.mk.inj h
        obtain ⟨us, hrest⟩ := ih cs.length hlen (i + 1) cs
          (processEscapesFrom s 0 (i + 1) cs).1 (Prod.ext rfl hnone) rfl
        rw [← hvalue]
        exact ⟨us, .plain us c cs _ hc hrest⟩

/-- What a part is decoded to, if it can be. -/
theorem processEscapesFrom_iff (s text value : List Char) (i : ℕ) :
    processEscapesFrom s 0 i text = (value, none) ↔ ∃ us, Unescapes us text value :=
  ⟨unescapes_of_processEscapesFrom s i text value, fun ⟨_, h⟩ => h.processEscapesFrom s i⟩

/-- A text is read in one way. -/
theorem Unescapes.unique {us us' : List ℕ} {text value value' : List Char}
    (h : Unescapes us text value) (h' : Unescapes us' text value') : us = us' ∧ value = value' := by
  have hvalue : value = value' := by
    have heq := (h.processEscapesFrom [] 0).symm.trans (h'.processEscapesFrom [] 0)
    exact congrArg Prod.fst heq
  refine ⟨?_, hvalue⟩
  clear hvalue
  induction h generalizing us' value' with
  | nil =>
    cases h'
    rfl
  | plain us c text value hplain rest ih =>
    cases h' with
    | plain _ _ _ value' _ rest' => exact ih rest'
    | simple => exact absurd rfl hplain
    | unicode => exact absurd rfl hplain
  | simple us e ch text value hsimple rest ih =>
    cases h' with
    | plain _ _ _ _ hplain => exact absurd rfl hplain
    | simple _ _ _ _ _ _ rest' => exact ih rest'
    | unicode =>
      rw [← processSimpleEscape_iff] at hsimple
      cases hsimple
  | unicode us n digits ch text value hlen hhex hcode rest ih =>
    generalize hcs : List.replicate (n + 1) 'u' ++ (digits ++ text) = cs at h'
    cases h' with
    | plain _ _ _ _ hplain => exact absurd rfl hplain
    | simple _ e ch' text' _ hsimple =>
      have he : 'u' = e := (List.cons_eq_cons.mp hcs).1
      rw [← processSimpleEscape_iff, ← he] at hsimple
      cases hsimple
    | unicode us' n' digits' ch' text' value' hlen' hhex' hcode' rest' =>
      have hdecode := decodeUnicode_of hlen hhex hcode (n + 1) text
      rw [hcs, decodeUnicode_of hlen' hhex' hcode' (n' + 1) text'] at hdecode
      obtain rfl : n' = n := by
        have hk := (Prod.mk.inj (Option.some.inj hdecode)).2
        omega
      rw [List.append_cancel_left_eq] at hcs
      have htext : text = text' := (List.append_inj hcs (hlen.trans hlen'.symm)).2
      rw [ih (htext ▸ rest')]

theorem unescapes_self {text : List Char} (h : '\\' ∉ text) : Unescapes [] text text := by
  induction text with
  | nil => exact .nil
  | cons c cs ih =>
    rw [List.mem_cons, not_or] at h
    exact .plain [] c cs cs (Ne.symm h.1) (ih h.2)

/-! ## Unescaping while reading -/

namespace Lexer
variable {s s' : Lexer} {buf : List Char} {seen : Bool} {lo : UInt32}

/-- The lexer reads a literal part of `s"…"`. -/
def InSingle (s : Lexer) : Prop :=
  s.interpStack.head?.map (fun frame => (frame.triple, frame.escapes)) = some (false, .standard)

theorem InSingle.skip (h : InSingle s) (k : ℕ) : InSingle (s.skip k) := h

theorem InSingle.escapes (h : InSingle s) :
    (s.interpStack.head?.map InterpFrame.escapes).getD .verbatim = .standard := by
  unfold InSingle at h
  cases hstack : s.interpStack with
  | nil =>
    rw [hstack] at h
    cases h
  | cons frame frames =>
    rw [hstack] at h
    exact congrArg Prod.snd (Option.some.inj h)

theorem InSingle.finishInterpPart (h : InSingle s) (buf : List Char) (lo : UInt32) :
    s.finishInterpPart buf lo = (buf, s) := by
  unfold InSingle at h
  unfold Lexer.finishInterpPart
  split
  · rfl
  · next frame frames hstack =>
    rw [hstack] at h
    have hframe := Option.some.inj h
    have htriple : frame.triple = false := congrArg Prod.fst hframe
    have hescapes : frame.escapes = .standard := congrArg Prod.snd hframe
    rw [htriple, hescapes]

theorem readHexDigits_cases (k : ℕ) (hex : List Char) (s : Lexer) :
    (∃ digits rest, s.rest = digits ++ rest ∧ digits.length = k ∧
      (∀ c ∈ digits, isAsciiHexdigit c) ∧ readHexDigits k hex s = (some (hex ++ digits), s.skip k)) ∨
    (readHexDigits k hex s).1 = none := by
  induction k generalizing hex s with
  | zero =>
    refine .inl ⟨[], s.rest, rfl, rfl, by simp, ?_⟩
    rw [List.append_nil]
    rfl
  | succ k ih =>
    rw [readHexDigits]
    cases hrest : s.rest with
    | nil =>
      rw [peek, hrest]
      exact .inr rfl
    | cons c cs =>
      rw [peek_of_rest hrest]
      dsimp only
      split
      · next hc =>
        obtain ⟨digits, rest, hdigits, hlen, hhex, hread⟩ | hnone := ih (hex ++ [c]) s.bump
        · rw [bump_rest, hrest, List.tail_cons] at hdigits
          refine .inl ⟨c :: digits, rest, by rw [hdigits, List.cons_append], by simpa using hlen,
            List.forall_mem_cons.mpr ⟨hc, hhex⟩, ?_⟩
          rw [hread, bump, skip_skip, List.append_assoc, List.singleton_append, Nat.add_comm]
        · exact .inr hnone
      · exact .inr rfl

theorem readHexDigits_of {digits cs : List Char} (hhex : ∀ c ∈ digits, isAsciiHexdigit c)
    (hex : List Char) (hrest : s.rest = digits ++ cs) :
    readHexDigits digits.length hex s = (some (hex ++ digits), s.skip digits.length) := by
  induction digits generalizing hex s with
  | nil =>
    rw [List.append_nil]
    rfl
  | cons d ds ih =>
    rw [List.length_cons, readHexDigits, peek_of_rest hrest]
    dsimp only
    rw [if_pos (hhex d List.mem_cons_self), ih (fun c hc => hhex c (List.mem_cons_of_mem d hc)),
      bump, skip_skip, List.append_assoc, List.singleton_append, Nat.add_comm]
    rw [bump_rest, hrest]
    rfl

/-- Characters that neither close a part nor open a hole. -/
def IsLiteral (c : Char) : Prop := c ≠ '"' ∧ c ≠ '$' ∧ c ≠ '\n'

theorem readEscape_simple {e ch : Char} {cs : List Char} (hrest : s.rest = e :: cs)
    (he : processSimpleEscape e = some ch) (lo : UInt32) : s.readEscape lo = (some ch, s.bump) := by
  rw [readEscape, peek_of_rest hrest]
  dsimp only
  rw [readSimpleEscape_eq, he]

theorem readEscape_unicode {digits cs : List Char} {ch : Char}
    (hrest : s.rest = 'u' :: (digits ++ cs)) (hlen : digits.length = 4)
    (hhex : ∀ c ∈ digits, isAsciiHexdigit c) (hcode : fromU32 (fromHex digits) = some ch)
    (lo : UInt32) : s.readEscape lo = (some ch, s.skip 5) := by
  have hdigits := readHexDigits_of hhex [] (s := s.bump) (by rw [bump_rest, hrest]; rfl)
  rw [hlen, List.nil_append, bump, skip_skip] at hdigits
  rw [readEscape, peek_of_rest hrest]
  have hnone : readSimpleEscape 'u' = none := rfl
  dsimp only
  rw [hnone]
  dsimp only
  rw [if_pos rfl, bump, hdigits]
  dsimp only
  rw [hcode]

/-- Any other escape: a unicode escape with one `u`, or a diagnostic. -/
theorem readEscape_cases {e : Char} {cs : List Char} (hrest : s.rest = e :: cs)
    (hnone : processSimpleEscape e = none) (lo : UInt32) :
    (∃ digits rest ch, e = 'u' ∧ cs = digits ++ rest ∧ digits.length = 4 ∧
      (∀ c ∈ digits, isAsciiHexdigit c) ∧ fromU32 (fromHex digits) = some ch ∧
      s.readEscape lo = (some ch, s.skip 5)) ∨
    (∃ s', s.readEscape lo = (none, s') ∧ s'.diags ≠ []) ∨
    (∃ diags, s.readEscape lo = (some e, { s.bump with diags }) ∧ diags ≠ []) := by
  have herror : ∀ (s : Lexer) msg, (s.errorFrom lo msg).diags ≠ [] :=
    fun s msg => List.concat_ne_nil _ _
  have hbump : s.bump.rest = cs := by
    rw [bump_rest, hrest]
    rfl
  unfold readEscape
  rw [peek_of_rest hrest]
  dsimp only
  rw [readSimpleEscape_eq, hnone]
  dsimp only
  split
  · next hu =>
    obtain ⟨digits, rest, hdigits, hlen, hhex, hread⟩ | hfail := readHexDigits_cases 4 [] s.bump
    · rw [hread, List.nil_append]
      dsimp only
      cases hcode : fromU32 (fromHex digits) with
      | some ch =>
        refine .inl ⟨digits, rest, ch, hu, hbump.symm.trans hdigits, hlen, hhex, hcode, ?_⟩
        rw [bump, skip_skip]
      | none => exact .inr (.inl ⟨_, rfl, herror _ _⟩)
    · cases hread : readHexDigits 4 [] s.bump with
      | mk hex after =>
        rw [hread] at hfail
        have hhex : hex = none := hfail
        rw [hhex]
        exact .inr (.inl ⟨_, rfl, herror _ _⟩)
  · exact .inr (.inr ⟨_, rfl, List.concat_ne_nil _ _⟩)

variable [CharTables]

theorem interpBody_plain {c : Char} {cs : List Char} (hrest : s.rest = c :: cs)
    (hc : IsLiteral c) (hplain : c ≠ '\\') :
    interpBody false lo ⟨buf, seen, s⟩ = some (.next ⟨buf ++ [c], seen, s.bump⟩) := by
  unfold interpBody
  dsimp only
  rw [peek_of_rest hrest]
  simp [hc.1, hc.2.1, hc.2.2, hplain]

theorem interpBody_escape {cs : List Char} (hs : InSingle s) (hrest : s.rest = '\\' :: cs) :
    interpBody false lo ⟨buf, seen, s⟩ =
      match s.bump.readEscape (asU32 s.pos) with
      | (some ch, s') => some (.next ⟨buf ++ [ch], seen || s.bump.peek = some '"', s'⟩)
      | (none, s') => some (.done s') := by
  unfold interpBody
  dsimp only
  rw [peek_of_rest hrest]
  simp only [interpBackslash, hs.escapes]
  cases s.bump.readEscape (asU32 s.pos) with
  | mk ch after => cases ch <;> rfl

/-- A part whose escapes have one `u` each is unescaped as it is read. -/
theorem run_single {us : List ℕ} {text value : List Char} (h : Unescapes us text value)
    (hus : ∀ n ∈ us, n = 1) (htext : ∀ c ∈ text, IsLiteral c) {rest : List Char} (hs : InSingle s)
    (hrest : s.rest = text ++ '"' :: rest) {fuel : ℕ} (hfuel : text.length < fuel) :
    run (interpBody false lo) fuel ⟨buf, seen, s⟩ =
      some ((s.skip (text.length + 1)).endInterp (buf ++ value) lo) := by
  induction h generalizing s buf seen fuel with
  | nil =>
    obtain ⟨fuel, rfl⟩ : ∃ n, fuel = n + 1 := ⟨fuel - 1, by simp at hfuel; omega⟩
    rw [run_done (r := (s.skip 1).endInterp buf lo) _ fuel, List.append_nil]
    · rfl
    · unfold interpBody
      dsimp only
      rw [peek_of_rest hrest]
      simp
      rfl
  | plain us c text value hplain _ ih =>
    obtain ⟨fuel, rfl⟩ : ∃ n, fuel = n + 1 := ⟨fuel - 1, by omega⟩
    rw [run_next (interpBody_plain hrest (htext c List.mem_cons_self) hplain)]
    have hafter : s.bump.rest = text ++ '"' :: rest := by
      rw [bump_rest, hrest]
      rfl
    refine (ih hus (fun d hd => htext d (List.mem_cons_of_mem c hd)) (hs.skip 1) hafter
      (by simpa using hfuel)).trans ?_
    rw [skip_skip, List.append_assoc, List.singleton_append, List.length_cons, Nat.add_comm 1]
  | simple us e ch text value hsimple _ ih =>
    obtain ⟨fuel, rfl⟩ : ∃ n, fuel = n + 1 := ⟨fuel - 1, by omega⟩
    have hbody : interpBody false lo ⟨buf, seen, s⟩ = _ := interpBody_escape hs hrest
    rw [readEscape_simple (s := s.bump) (by rw [bump_rest, hrest]; rfl)
      ((processSimpleEscape_iff e ch).mpr hsimple)] at hbody
    rw [run_next hbody]
    have hafter : (s.bump.bump).rest = text ++ '"' :: rest := by
      rw [bump_rest, bump_rest, hrest]
      rfl
    refine (ih hus (fun d hd => htext d (by simp [hd])) ((hs.skip 1).skip 1) hafter
      (by simp at hfuel; omega)).trans ?_
    have hlength : 1 + (1 + (text.length + 1)) = ('\\' :: e :: text).length + 1 := by
      simp
      omega
    rw [skip_skip, skip_skip, List.append_assoc, List.singleton_append, hlength]
  | unicode us n digits ch text value hlen hhex hcode _ ih =>
    obtain ⟨fuel, rfl⟩ : ∃ n, fuel = n + 1 := ⟨fuel - 1, by omega⟩
    obtain rfl : n = 0 := by
      have hn := hus (n + 1) List.mem_cons_self
      omega
    have hbody : interpBody false lo ⟨buf, seen, s⟩ = _ := interpBody_escape hs hrest
    have hdigits : s.bump.rest = 'u' :: (digits ++ (text ++ '"' :: rest)) := by
      rw [bump_rest, hrest]
      simp
    rw [readEscape_unicode hdigits hlen hhex hcode] at hbody
    rw [run_next hbody]
    have hafter : (s.bump.skip 5).rest = text ++ '"' :: rest := by
      have hall : s.rest = ('\\' :: 'u' :: digits) ++ (text ++ '"' :: rest) := by
        rw [hrest]
        simp
      rw [bump, skip_skip, skip_rest, hall]
      apply List.drop_left'
      simp [hlen]
    refine (ih (fun k hk => hus k (List.mem_cons_of_mem _ hk)) (fun d hd => htext d (by simp [hd]))
      ((hs.skip 1).skip 5) hafter (by simp at hfuel; omega)).trans ?_
    have hlength : 1 + (5 + (text.length + 1)) =
        ('\\' :: (List.replicate (0 + 1) 'u' ++ (digits ++ text))).length + 1 := by
      simp [hlen]
      omega
    rw [skip_skip, skip_skip, List.append_assoc, List.singleton_append, hlength]

/-- Any other part is read with a diagnostic. -/
theorem run_single_faulty {text : List Char} (htext : ∀ c ∈ text, IsLiteral c) (hs : InSingle s)
    (hrest : s.rest = text ++ ['"'])
    (hfaulty : (¬∃ us value, Unescapes us text value ∧ ∀ n ∈ us, n = 1) ∨ s.diags ≠ []) {fuel : ℕ}
    (hrun : run (interpBody false lo) fuel ⟨buf, seen, s⟩ = some s') : s'.diags ≠ [] := by
  induction hn : text.length using Nat.strong_induction_on generalizing text s buf seen fuel with
  | h n ih =>
    obtain ⟨fuel, rfl⟩ : ∃ n, fuel = n + 1 := by
      cases fuel with
      | zero => cases hrun
      | succ fuel => exact ⟨fuel, rfl⟩
    cases text with
    | nil =>
      have hdiags : s.diags ≠ [] := by
        cases hfaulty with
        | inl h => exact absurd ⟨[], [], .nil, by simp⟩ h
        | inr h => exact h
      have hbody : interpBody false lo ⟨buf, seen, s⟩ = some (.done (s.bump.endInterp buf lo)) := by
        unfold interpBody
        dsimp only
        rw [peek_of_rest hrest]
        simp
      rw [run_done hbody, Option.some.injEq] at hrun
      have hpart := (hs.skip 1).finishInterpPart buf lo
      rw [← hrun, endInterp, bump, hpart]
      exact hdiags
    | cons c cs =>
      have hc := htext c List.mem_cons_self
      have hcs : ∀ d ∈ cs, IsLiteral d := fun d hd => htext d (List.mem_cons_of_mem c hd)
      have hafter : s.bump.rest = cs ++ ['"'] := by
        rw [bump_rest, hrest]
        rfl
      by_cases hplain : c = '\\'
      · rw [hplain] at hrest hn hfaulty
        have hbody : interpBody false lo ⟨buf, seen, s⟩ = _ := interpBody_escape hs hrest
        cases cs with
        | nil =>
          -- the closing quote is taken for an escape
          rw [readEscape_simple (s := s.bump) hafter rfl] at hbody
          rw [run_next hbody] at hrun
          cases fuel with
          | zero => cases hrun
          | succ fuel =>
            have hend : s.bump.bump.peek = none := by
              rw [peek, bump_rest, hafter]
              rfl
            rw [run_done (r := (s.bump.bump.errorFrom lo (unterminatedInterp
              (seen || s.bump.peek = some '"'))).popFrame) (by unfold interpBody; dsimp only; rw [hend]),
              Option.some.injEq] at hrun
            rw [← hrun]
            exact List.concat_ne_nil _ _
        | cons e cs =>
          have hrestAfter : s.bump.bump.rest = cs ++ ['"'] := by
            rw [bump_rest, hafter]
            rfl
          have hcs' : ∀ d ∈ cs, IsLiteral d := fun d hd => hcs d (List.mem_cons_of_mem e hd)
          have hlen : cs.length < n := by
            rw [← hn, List.length_cons, List.length_cons]
            omega
          cases hsimple : processSimpleEscape e with
          | some ch =>
            rw [readEscape_simple (s := s.bump) hafter hsimple] at hbody
            rw [run_next hbody] at hrun
            refine ih cs.length hlen hcs' ((hs.skip 1).skip 1) hrestAfter ?_ hrun rfl
            refine hfaulty.imp_left fun hnot => ?_
            intro hread
            obtain ⟨us, value, hread, hus⟩ := hread
            exact hnot ⟨us, ch :: value, .simple us e ch cs value
              ((processSimpleEscape_iff e ch).mp hsimple) hread, hus⟩
          | none =>
            obtain ⟨digits, rest, ch, rfl, hdigits, hlen4, hhex, hcode, hread⟩ | ⟨s₁, hread, hdiags⟩ |
              ⟨diags, hread, hdiags⟩ := readEscape_cases hafter hsimple (asU32 s.pos)
            · rw [hread] at hbody
              rw [run_next hbody] at hrun
              -- the digits end before the closing quote
              obtain ⟨text, rfl⟩ : ∃ text, cs = digits ++ text := by
                obtain ⟨more, h, hquote⟩ | ⟨text, h, -⟩ := List.append_eq_append_iff.mp hdigits
                · cases more with
                  | nil => exact ⟨[], by rw [List.append_nil, h, List.append_nil]⟩
                  | cons d more =>
                    have hd : '"' = d := (List.cons_eq_cons.mp hquote).1
                    have hbad := hhex d (by rw [h]; simp)
                    rw [← hd] at hbad
                    cases hbad
                · exact ⟨text, h⟩
              have hrestText : (s.bump.skip 5).rest = text ++ ['"'] := by
                rw [skip_rest, hafter, List.cons_append, List.drop_succ_cons, List.append_assoc]
                exact List.drop_left' hlen4
              refine ih text.length (by simp at hlen; omega) (fun d hd => hcs' d (by simp [hd]))
                ((hs.skip 1).skip 5) hrestText ?_ hrun rfl
              refine hfaulty.imp_left fun hnot => ?_
              intro hread
              obtain ⟨us, value, hread, hus⟩ := hread
              exact hnot ⟨1 :: us, ch :: value, .unicode us 0 digits ch text value hlen4 hhex hcode hread,
                List.forall_mem_cons.mpr ⟨rfl, hus⟩⟩
            · rw [hread] at hbody
              rw [run_done hbody, Option.some.injEq] at hrun
              rw [← hrun]
              exact hdiags
            · rw [hread] at hbody
              rw [run_next hbody] at hrun
              have hs₁ : InSingle { s.bump.bump with diags } := hs
              have hrest₁ : ({ s.bump.bump with diags } : Lexer).rest = cs ++ ['"'] := hrestAfter
              exact ih cs.length hlen hcs' hs₁ hrest₁ (.inr hdiags) hrun rfl
      · rw [run_next (interpBody_plain hrest hc hplain)] at hrun
        refine ih cs.length (by rw [← hn]; exact Nat.lt_succ_self _) hcs (hs.skip 1) hafter ?_ hrun
          rfl
        refine hfaulty.imp_left fun hnot => ?_
        intro hread
        obtain ⟨us, value, hread, hus⟩ := hread
        exact hnot ⟨us, c :: value, .plain us c cs value hplain hread, hus⟩

/-! ## Reading a complete part -/

theorem interpBody_triple {c : Char} {cs : List Char} (hrest : s.rest = c :: cs)
    (hc : IsLiteral c) :
    interpBody true lo ⟨buf, seen, s⟩ = some (.next ⟨buf ++ [c], seen, s.bump⟩) := by
  have hquotes : s.startsWith "\"\"\"" = false := by
    have hne : ('"' == c) = false := beq_eq_false_iff_ne.mpr (Ne.symm hc.1)
    rw [startsWith, hrest]
    change ('"' == c && _) = false
    rw [hne, Bool.false_and]
  unfold interpBody
  dsimp only
  rw [peek_of_rest hrest]
  by_cases hplain : c = '\\'
  · simp [hquotes, hplain, interpBackslash]
  · simp [hquotes, hc.2.1, hplain]

theorem run_triple {text : List Char} (htext : ∀ c ∈ text, IsLiteral c)
    (hrest : s.rest = text ++ ['"', '"', '"']) {fuel : ℕ} (hfuel : text.length < fuel) :
    run (interpBody true lo) fuel ⟨buf, seen, s⟩ =
      some ((s.skip (text.length + 3)).endInterp (buf ++ text) lo) := by
  induction text generalizing s buf fuel with
  | nil =>
    obtain ⟨fuel, rfl⟩ : ∃ n, fuel = n + 1 := ⟨fuel - 1, by simp at hfuel; omega⟩
    apply run_done
    have hquotes : s.startsWith "\"\"\"" = true := by
      rw [startsWith, hrest]
      rfl
    unfold interpBody
    dsimp only
    rw [peek_of_rest hrest]
    simp [hquotes, hrest]
  | cons c text ih =>
    obtain ⟨fuel, rfl⟩ : ∃ n, fuel = n + 1 := ⟨fuel - 1, by omega⟩
    rw [run_next (interpBody_triple hrest (htext c List.mem_cons_self))]
    have hafter : s.bump.rest = text ++ ['"', '"', '"'] := by
      rw [bump_rest, hrest]
      rfl
    rw [ih (fun d hd => htext d (List.mem_cons_of_mem c hd)) hafter (by simpa using hfuel)]
    have hlength : 1 + (text.length + 3) = (c :: text).length + 3 := by
      simp
      omega
    rw [bump, skip_skip, List.append_assoc, List.singleton_append, hlength]

end Lexer
/-! ## The two literals -/

def quotesOf (triple : Bool) : List Char := if triple then ['"', '"', '"'] else ['"']

/-- `s"text"` and `s"""text"""`. -/
def interpolated (triple : Bool) (text : List Char) : List Char :=
  's' :: (quotesOf triple ++ (text ++ quotesOf triple))

section
variable [CharTables] {text part value : List Char}

/-- The literal is a whole text that is read without a diagnostic, and `part` is what it
holds. -/
def Holds (triple : Bool) (text part : List Char) : Prop :=
  ∃ fuel tokens, tokenize fuel (interpolated triple text) 0 = some (tokens, []) ∧
    tokens.map Token.kind = [.interpStart ['s'] triple, .interpEnd part, .eof]

/-- The lexer after the opening quotes. -/
def opened (triple : Bool) (text : List Char) : Lexer :=
  { Lexer.start (interpolated triple text) 0 false with
    rest := text ++ quotesOf triple
    pos := byteLength ('s' :: quotesOf triple)
    tokens := [⟨.interpStart ['s'] triple, ⟨1, asU32 (byteLength ('s' :: quotesOf triple))⟩,
      false, false⟩]
    interpStack := [⟨triple, -1, .standard⟩] }

theorem lexNormal_start (triple : Bool) (htext : ∀ c ∈ text, Lexer.IsLiteral c) :
    (Lexer.start (interpolated triple text) 0 false).lexNormal =
      (opened triple text).lexInterpString := by
  have hident : (Lexer.start (interpolated triple text) 0 false).lexNormal =
      ((Lexer.start (interpolated triple text) 0 false).skip 1).lexString (some ['s']) := by
    have hname : (Lexer.start (interpolated triple text) 0 false).lexNormal =
        (Lexer.start (interpolated triple text) 0 false).lexIdentOrKw := rfl
    have hletters : ((Lexer.start (interpolated triple text) 0 false).bump.skipWhile isIdPart) =
        (Lexer.start (interpolated triple text) 0 false).skip 1 := by
      cases triple <;> rfl
    have htext : ((Lexer.start (interpolated triple text) 0 false).skip 1).textSince
        (Lexer.start (interpolated triple text) 0 false) = ['s'] :=
      Lexer.textSince_skip _ 1
    have hpeek : ((Lexer.start (interpolated triple text) 0 false).skip 1).peek = some '"' := by
      cases triple <;> rfl
    have hfirst : (if (Lexer.start (interpolated triple text) 0 false).peek.any isIdStart then
        (Lexer.start (interpolated triple text) 0 false).bump
        else Lexer.start (interpolated triple text) 0 false) =
          (Lexer.start (interpolated triple text) 0 false).bump := rfl
    rw [hname, Lexer.lexIdentOrKw, hfirst, hletters, htext]
    have hshort : ¬(1 < byteLength ['s'] ∧ ['s'].getLast? = some '_') := by decide
    rw [if_neg hshort, if_pos hpeek, htext]
  have hquotes : ((Lexer.start (interpolated triple text) 0 false).skip 1).startsWith "\"\"\"" =
      triple := by
    cases triple with
    | true => rfl
    | false =>
      cases text with
      | nil => rfl
      | cons c cs =>
        have hne : ('"' == c) = false :=
          beq_eq_false_iff_ne.mpr (Ne.symm (htext c List.mem_cons_self).1)
        change (true && ('"' == c && _)) = false
        rw [hne]
        rfl
  rw [hident]
  unfold Lexer.lexString
  dsimp only
  rw [hquotes]
  cases triple <;> rfl

theorem tokenizeBody_start (triple : Bool) (htext : ∀ c ∈ text, Lexer.IsLiteral c) :
    Lexer.tokenizeBody (Lexer.start (interpolated triple text) 0 false) =
      (opened triple text).lexInterpString.map .next := by
  rw [← lexNormal_start triple htext]
  rfl

/-- What a run over the literal gives, if its part is read to the end. -/
theorem holds_iff_of {triple : Bool} {s : Lexer} {span : Span}
    (htext : ∀ c ∈ text, Lexer.IsLiteral c) (hlex : (opened triple text).lexInterpString = some s)
    (hrest : s.rest = []) (hstack : s.interpStack = [])
    (htokens : s.tokens = (opened triple text).tokens ++ [⟨.interpEnd value, span, false, false⟩]) :
    Holds triple text part ↔ s.diags = [] ∧ value = part := by
  have hstart : Lexer.tokenizeBody (Lexer.start (interpolated triple text) 0 false) =
      some (.next s) := by
    rw [tokenizeBody_start triple htext, hlex]
    rfl
  have hdone : Lexer.tokenizeBody s = some (.done s) := by
    unfold Lexer.tokenizeBody Lexer.inStringPart
    rw [hstack, hrest]
    rfl
  have hrun : ∀ fuel, run Lexer.tokenizeBody (fuel + 2)
      (Lexer.start (interpolated triple text) 0 false) = some s := by
    intro fuel
    rw [run_next hstart, run_done hdone]
  have hresult : ∀ fuel, tokenize (fuel + 2) (interpolated triple text) 0 =
      some (postProcess (s.emitFrom (asU32 s.pos) .eof).tokens, s.diags) := by
    intro fuel
    rw [tokenize, tokenizeOpts, Lexer.tokenizeAll, hrun]
    rfl
  have hkinds : (postProcess (s.emitFrom (asU32 s.pos) .eof).tokens).map Token.kind =
      [.interpStart ['s'] triple, .interpEnd value, .eof] := by
    rw [Lexer.emitFrom, Lexer.emit, htokens]
    rfl
  constructor
  · intro h
    obtain ⟨fuel, tokens, htokenize, hmap⟩ := h
    rcases fuel with _ | _ | fuel
    · cases htokenize
    · have hnone : run Lexer.tokenizeBody 1 (Lexer.start (interpolated triple text) 0 false) =
          none := run_next hstart 0
      rw [tokenize, tokenizeOpts, Lexer.tokenizeAll, hnone] at htokenize
      cases htokenize
    · rw [hresult, Option.some.injEq] at htokenize
      obtain ⟨rfl, hdiags⟩ := Prod.mk.inj htokenize
      rw [hkinds] at hmap
      simp at hmap
      exact ⟨hdiags, hmap⟩
  · intro h
    refine ⟨2, postProcess (s.emitFrom (asU32 s.pos) .eof).tokens, ?_, ?_⟩
    · rw [hresult 0, h.1]
    · rw [hkinds, h.2]

/-- What `s"text"` holds. -/
theorem holds_single_iff (htext : ∀ c ∈ text, Lexer.IsLiteral c) :
    Holds false text part ↔ ∃ us, Unescapes us text part ∧ ∀ n ∈ us, n = 1 := by
  have hsingle : (opened false text).InSingle := rfl
  have hfuel : text.length < (opened false text).rest.length + 1 := by
    change text.length < (text ++ ['"']).length + 1
    rw [List.length_append]
    omega
  -- what is read if the escapes have one `u` each
  have hread : ∀ us value, Unescapes us text value → (∀ n ∈ us, n = 1) →
      (Holds false text part ↔ value = part) := by
    intro us value h hus
    have hlex : (opened false text).lexInterpString =
        some (((opened false text).skip (text.length + 1)).endInterp ([] ++ value)
          (asU32 (opened false text).pos)) :=
      Lexer.run_single h hus htext hsingle (rfl : _ = text ++ '"' :: []) hfuel
    rw [Lexer.endInterp, (hsingle.skip _).finishInterpPart] at hlex
    rw [holds_iff_of htext hlex _ rfl rfl]
    · exact and_iff_right rfl
    · exact List.drop_eq_nil_of_le (by change (text ++ ['"']).length ≤ _; simp)
  constructor
  · intro h
    by_contra hnot
    have hfaulty : ¬∃ us value, Unescapes us text value ∧ ∀ n ∈ us, n = 1 := by
      intro hsome
      obtain ⟨us, value, hvalue, hus⟩ := hsome
      rw [hread us value hvalue hus] at h
      exact hnot ⟨us, h ▸ hvalue, hus⟩
    obtain ⟨fuel, tokens, htokenize, -⟩ := h
    obtain ⟨s, hs, hresult⟩ := Option.map_eq_some_iff.mp htokenize
    obtain ⟨s₁, hrun, rfl⟩ := Option.map_eq_some_iff.mp hs
    have hdiags : s₁.diags = [] := congrArg Prod.snd hresult
    cases fuel with
    | zero => cases hrun
    | succ fuel =>
      have hstart := tokenizeBody_start false htext
      cases hlex : (opened false text).lexInterpString with
      | none =>
        rw [hlex] at hstart
        rw [run, hstart] at hrun
        cases hrun
      | some s₂ =>
        rw [hlex] at hstart
        rw [run_next hstart] at hrun
        have hbad : s₂.diags ≠ [] :=
          Lexer.run_single_faulty htext hsingle rfl (.inl hfaulty) hlex
        have hlater := (Lexer.run_tokenizeBody_scans hrun).1.diags
        rw [hdiags, List.prefix_nil] at hlater
        exact hbad hlater
  · intro h
    obtain ⟨us, hvalue, hus⟩ := h
    exact (hread us part hvalue hus).mpr rfl

/-- What `s"""text"""` holds. -/
theorem holds_triple_iff (htext : ∀ c ∈ text, Lexer.IsLiteral c) :
    Holds true text part ↔ ∃ us, Unescapes us text part := by
  have hfuel : text.length < (opened true text).rest.length + 1 := by
    change text.length < (text ++ ['"', '"', '"']).length + 1
    rw [List.length_append]
    omega
  have hlex : (opened true text).lexInterpString =
      some (((opened true text).skip (text.length + 3)).endInterp ([] ++ text)
        (asU32 (opened true text).pos)) := Lexer.run_triple htext rfl hfuel
  have hrest : ((opened true text).skip (text.length + 3)).rest = [] :=
    List.drop_eq_nil_of_le (by change (text ++ ['"', '"', '"']).length ≤ _; simp)
  have hpart : ((opened true text).skip (text.length + 3)).finishInterpPart text
      (asU32 (opened true text).pos) =
        ((opened true text).skip (text.length + 3)).processEscapes text
          (asU32 (opened true text).pos) := rfl
  have hdecode := processEscapesFrom_iff text text part 0
  rw [Lexer.endInterp, List.nil_append, hpart, Lexer.processEscapes] at hlex
  split at hlex
  · next hplain =>
    -- without a backslash the text is its own value
    have hself := unescapes_self hplain
    rw [holds_iff_of htext hlex hrest rfl rfl]
    constructor
    · intro h
      exact ⟨[], h.2 ▸ hself⟩
    · intro h
      obtain ⟨us, hread⟩ := h
      exact ⟨rfl, (hself.unique hread).2⟩
  · cases hdecoded : processEscapesFrom text 0 0 text with
    | mk out msg =>
      rw [hdecoded] at hlex hdecode
      cases msg with
      | none =>
        rw [holds_iff_of htext hlex hrest rfl rfl, ← hdecode, Prod.mk.injEq]
        exact and_comm.trans (and_congr_right fun _ => ⟨fun _ => rfl, fun _ => rfl⟩)
      | some msg =>
        rw [holds_iff_of htext hlex hrest rfl rfl, ← hdecode, Prod.mk.injEq]
        constructor
        · intro h
          exact absurd h.1 (List.concat_ne_nil _ _)
        · intro h
          cases h.2

/-- The two literals agree unless the text, otherwise well formed, writes some unicode escape
with more than one `u`. -/
theorem agree_iff (htext : ∀ c ∈ text, Lexer.IsLiteral c) :
    (∀ part, Holds false text part ↔ Holds true text part) ↔
      ∀ us value, Unescapes us text value → ∀ n ∈ us, n = 1 := by
  constructor
  · intro h us value hread
    have htriple := (holds_triple_iff htext).mpr ⟨us, hread⟩
    obtain ⟨us', hread', hus⟩ := (holds_single_iff htext).mp ((h value).mpr htriple)
    rw [(hread.unique hread').1]
    exact hus
  · intro h part
    rw [holds_single_iff htext, holds_triple_iff htext]
    constructor
    · intro hread
      obtain ⟨us, hread, -⟩ := hread
      exact ⟨us, hread⟩
    · intro hread
      obtain ⟨us, hread⟩ := hread
      exact ⟨us, hread, h us part hread⟩

end

/-- `\u0041`, with one `u` and with two. -/
theorem agree_iff_one_u :
    (∀ c ∈ "\\u0041".toList, Lexer.IsLiteral c) ∧
      ((∀ part, @Holds asciiTables false "\\u0041".toList part ↔
          @Holds asciiTables true "\\u0041".toList part) ↔
        ∀ us value, Unescapes us "\\u0041".toList value → ∀ n ∈ us, n = 1) := by
  have htext : ∀ c ∈ "\\u0041".toList, Lexer.IsLiteral c := by
    simp [Lexer.IsLiteral]
  exact ⟨htext, @agree_iff asciiTables _ htext⟩

/-- `s"""\uu0041"""` holds `A`, and `s"\uu0041"` is rejected. -/
theorem holds_two_us :
    ¬ ∀ text, (∀ c ∈ text, Lexer.IsLiteral c) →
      ∀ part, @Holds asciiTables false text part ↔ @Holds asciiTables true text part := by
  intro h
  have htext : ∀ c ∈ "\\uu0041".toList, Lexer.IsLiteral c := by
    simp [Lexer.IsLiteral]
  have hread : Unescapes [2] "\\uu0041".toList ['A'] :=
    .unicode [] 1 "0041".toList 'A' [] [] rfl (by simp [isAsciiHexdigit, isAsciiDigit])
      (by decide) .nil
  have htriple := (@holds_triple_iff asciiTables _ _ htext).mpr ⟨[2], hread⟩
  obtain ⟨us, hread', hus⟩ := (@holds_single_iff asciiTables _ _ htext).mp ((h _ htext _).mpr htriple)
  rw [← (hread.unique hread').1] at hus
  exact absurd (hus 2 List.mem_cons_self) (by decide)

end ScalaRs.Lexing
