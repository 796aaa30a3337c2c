import ScalaRs.Lexer

/-! # What lexing keeps

Every lexing function moves on in the text, puts out tokens that lie between where it began
and where it stopped, and only adds to the diagnostics. -/
namespace ScalaRs.Lexing
open WhileLoops

/-! ## Byte positions -/

@[simp] theorem byteLength_nil : byteLength [] = 0 := rfl

@[simp] theorem byteLength_cons (c : Char) (cs : List Char) :
    byteLength (c :: cs) = c.utf8Size + byteLength cs := rfl

@[simp] theorem byteLength_append (cs ds : List Char) :
    byteLength (cs ++ ds) = byteLength cs + byteLength ds := by
  rw [byteLength, List.map_append, List.sum_append]
  rfl

theorem splitBytes_append (cs ds : List Char) :
    splitBytes (byteLength cs) (cs ++ ds) = some (cs, ds) := by
  induction cs with
  | nil =>
    cases ds <;> rfl
  | cons c cs ih =>
    have hpos := c.utf8Size_pos
    obtain ⟨n, hn⟩ : ∃ n, byteLength (c :: cs) = n + 1 := ⟨byteLength (c :: cs) - 1, by simp; omega⟩
    have hle : c.utf8Size ≤ n + 1 := by
      rw [← hn, byteLength_cons]
      omega
    have hrest : n + 1 - c.utf8Size = byteLength cs := by
      rw [← hn, byteLength_cons]
      omega
    rw [hn, List.cons_append, splitBytes, if_pos hle, hrest, ih]
    rfl

theorem asU32_toNat {n : ℕ} (h : n < 2 ^ 32) : (asU32 n).toNat = n := by
  rw [asU32, UInt32.toNat_ofNat']
  exact Nat.mod_eq_of_lt h

/-- A position between two characters of a text, or at one of its ends. -/
def IsBoundary (src : List Char) (p : ℕ) : Prop := ∃ before after, src = before ++ after ∧
  byteLength before = p

theorem IsBoundary.le {src : List Char} {p : ℕ} (h : IsBoundary src p) : p ≤ byteLength src := by
  obtain ⟨before, after, rfl, rfl⟩ := h
  rw [byteLength_append]
  omega

/-- Tokens whose spans lie in order between two positions, with ends at boundaries. -/
inductive Placed (src : List Char) : ℕ → List Token → ℕ → Prop
  | nil (lo hi : ℕ) (le : lo ≤ hi) : Placed src lo [] hi
  | cons (lo hi : ℕ) (t : Token) (ts : List Token) (after : lo ≤ t.span.lo.toNat)
      (le : t.span.lo.toNat ≤ t.span.hi.toNat) (start : IsBoundary src t.span.lo.toNat)
      (stop : IsBoundary src t.span.hi.toNat) (kind : t.kind ≠ .eof)
      (rest : Placed src t.span.hi.toNat ts hi) : Placed src lo (t :: ts) hi

namespace Placed
variable {src : List Char} {lo mid hi : ℕ} {ts us : List Token}

theorem le (h : Placed src lo ts hi) : lo ≤ hi := by
  induction h with
  | nil lo hi le => exact le
  | cons lo hi t ts after le _ _ _ _ ih => omega

theorem weaken {lo' : ℕ} (h : Placed src lo ts hi) (hlo : lo' ≤ lo) : Placed src lo' ts hi := by
  cases h with
  | nil _ _ le => exact .nil lo' hi (by omega)
  | cons _ _ t ts after le start stop kind rest =>
    exact .cons lo' hi t ts (by omega) le start stop kind rest

theorem append (h : Placed src lo ts mid) (h' : Placed src mid us hi) :
    Placed src lo (ts ++ us) hi := by
  induction h with
  | nil lo mid le => exact h'.weaken le
  | cons lo mid t ts after le start stop kind _ ih =>
    exact .cons lo hi t (ts ++ us) after le start stop kind (ih h')

end Placed

/-! ## States of the lexer -/

namespace Lexer

/-- The state of a lexer on a text whose positions are numbers of 32 bits. -/
structure Good (s : Lexer) : Prop where
  before : ∃ before, s.src = before ++ s.rest ∧ s.pos = byteLength before
  short : byteLength s.src < 2 ^ 32

theorem Good.boundary {s : Lexer} (h : Good s) : IsBoundary s.src s.pos := by
  obtain ⟨before, hsrc, hpos⟩ := h.before
  exact ⟨before, s.rest, hsrc, hpos.symm⟩

theorem Good.asU32 {s : Lexer} (h : Good s) : (asU32 s.pos).toNat = s.pos :=
  asU32_toNat (Nat.lt_of_le_of_lt h.boundary.le h.short)

/-- What bounds the turns to come: a character counts two, an open string one. -/
def weight (s : Lexer) : ℕ := 2 * s.rest.length + s.interpStack.length

/-- From one state to a later one, lighter by `n`. -/
structure Scans (n : ℕ) (s s' : Lexer) : Prop where
  src : s'.src = s.src
  diags : s.diags <+: s'.diags
  good : Good s → Good s' ∧ s'.weight + n ≤ s.weight ∧
    ∃ new, s'.tokens = s.tokens ++ new ∧ Placed s.src s.pos new s'.pos

/-- Over `n` characters at least, without a token between. -/
structure Skips (n : ℕ) (s s' : Lexer) : Prop where
  src : s'.src = s.src
  diags : s.diags <+: s'.diags
  tokens : s'.tokens = s.tokens
  stack : s'.interpStack.length = s.interpStack.length
  good : Good s → Good s' ∧ s'.rest.length + n ≤ s.rest.length ∧ s.pos ≤ s'.pos

/-- A lexing function, which may panic except on a good state. -/
abbrev Steps (n : ℕ) (s : Lexer) (result : Option Lexer) : Prop :=
  (∀ s', result = some s' → Scans n s s') ∧ (Good s → ∃ s', result = some s')

variable {m n : ℕ} {s s' s'' : Lexer}

theorem Skips.refl (s : Lexer) : Skips 0 s s :=
  ⟨rfl, List.prefix_rfl, rfl, rfl, fun h => ⟨h, Nat.le_refl _, Nat.le_refl _⟩⟩

theorem Skips.trans (h : Skips m s s') (h' : Skips n s' s'') : Skips (m + n) s s'' := by
  refine ⟨h'.src.trans h.src, h.diags.trans h'.diags, h'.tokens.trans h.tokens,
    h'.stack.trans h.stack, ?_⟩
  intro hs
  obtain ⟨hs', hrest, hpos⟩ := h.good hs
  obtain ⟨hs'', hrest', hpos'⟩ := h'.good hs'
  exact ⟨hs'', by omega, by omega⟩

theorem Skips.weight (h : Skips n s s') (hs : Good s) : s'.weight + 2 * n ≤ s.weight := by
  have hrest := (h.good hs).2.1
  rw [Lexer.weight, Lexer.weight, h.stack]
  omega

theorem Skips.scans (h : Skips n s s') : Scans (2 * n) s s' := by
  refine ⟨h.src, h.diags, ?_⟩
  intro hs
  obtain ⟨hs', -, hpos⟩ := h.good hs
  exact ⟨hs', h.weight hs, [], by rw [h.tokens, List.append_nil], .nil _ _ hpos⟩

theorem Scans.trans (h : Scans m s s') (h' : Scans n s' s'') : Scans (m + n) s s'' := by
  refine ⟨h'.src.trans h.src, h.diags.trans h'.diags, ?_⟩
  intro hs
  obtain ⟨hs', hweight, new, htokens, hplaced⟩ := h.good hs
  obtain ⟨hs'', hweight', new', htokens', hplaced'⟩ := h'.good hs'
  rw [h.src] at hplaced'
  refine ⟨hs'', by omega, new ++ new', ?_, hplaced.append hplaced'⟩
  rw [htokens', htokens, List.append_assoc]

theorem Scans.lighter (h : Scans n s s') (hm : m ≤ n) : Scans m s s' := by
  refine ⟨h.src, h.diags, ?_⟩
  intro hs
  obtain ⟨hs', hweight, hnew⟩ := h.good hs
  exact ⟨hs', by omega, hnew⟩

theorem Skips.lighter (h : Skips n s s') (hm : m ≤ n) : Skips m s s' := by
  refine ⟨h.src, h.diags, h.tokens, h.stack, ?_⟩
  intro hs
  obtain ⟨hs', hrest, hpos⟩ := h.good hs
  exact ⟨hs', by omega, hpos⟩

/-- A token from where the scan began. -/
theorem Skips.emitFrom (h : Skips n s s') {kind : TokenKind} (hkind : kind ≠ .eof) :
    Scans (2 * n) s (s'.emitFrom (Lexing.asU32 s.pos) kind) := by
  refine ⟨h.src, h.diags, ?_⟩
  intro hs
  obtain ⟨hs', -, hpos⟩ := h.good hs
  refine ⟨⟨hs'.before, hs'.short⟩, h.weight hs, ?_⟩
  refine ⟨[_], congrArg (· ++ _) h.tokens, ?_⟩
  have hlo := hs.asU32
  have hhi := hs'.asU32
  have hstop := hs'.boundary
  rw [h.src] at hstop
  apply Placed.cons
  · exact hlo.ge
  · rw [hlo, hhi]
    exact hpos
  · rw [hlo]
    exact hs.boundary
  · rw [hhi]
    exact hstop
  · exact hkind
  · exact .nil _ _ hhi.le

theorem skip_skip (s : Lexer) (j k : ℕ) : (s.skip j).skip k = s.skip (j + k) := by
  have htake : s.rest.take (j + k) = s.rest.take j ++ (s.rest.drop j).take k := List.take_add ..
  rw [skip, skip, skip, htake, byteLength_append, List.drop_drop, ← Nat.add_assoc]

theorem skips_skip (s : Lexer) (k : ℕ) : Skips (min k s.rest.length) s (s.skip k) := by
  refine ⟨rfl, List.prefix_rfl, rfl, rfl, ?_⟩
  intro hs
  obtain ⟨before, hsrc, hpos⟩ := hs.before
  refine ⟨⟨⟨before ++ s.rest.take k, ?_, ?_⟩, hs.short⟩, ?_, Nat.le_add_right _ _⟩
  · rw [skip, List.append_assoc, List.take_append_drop]
    exact hsrc
  · rw [skip, byteLength_append, ← hpos]
  · rw [skip, List.length_drop]
    omega

theorem skips_skipAny (s : Lexer) (k : ℕ) : Skips 0 s (s.skip k) :=
  (skips_skip s k).lighter (Nat.zero_le _)

theorem rest_length_pos {c : Char} (h : s.peek = some c) : 0 < s.rest.length := by
  rw [peek] at h
  cases hrest : s.rest with
  | nil => simp [hrest] at h
  | cons d ds => simp

theorem skips_skipSome {c : Char} (h : s.peek = some c) {k : ℕ} (hk : 0 < k) :
    Skips 1 s (s.skip k) := by
  have hpos := rest_length_pos h
  exact (skips_skip s k).lighter (by omega)

theorem skips_bump {c : Char} (h : s.peek = some c) : Skips 1 s s.bump :=
  skips_skipSome h Nat.one_pos

theorem skips_skipWhile (s : Lexer) (p : Char → Bool) : Skips 0 s (s.skipWhile p) :=
  skips_skipAny s _

theorem skips_skipWhileSome {c : Char} (h : s.peek = some c) {p : Char → Bool} (hp : p c = true) :
    Skips 1 s (s.skipWhile p) := by
  apply skips_skipSome h
  rw [peek] at h
  cases hrest : s.rest with
  | nil => simp [hrest] at h
  | cons d ds =>
    have hd : d = c := by simpa [hrest] using h
    rw [hd, List.takeWhile_cons_of_pos hp]
    exact Nat.succ_pos _

theorem skips_error (s : Lexer) (lo hi : UInt32) (msg : List Char) :
    Skips 0 s (s.error lo hi msg) := by
  refine ⟨rfl, List.prefix_append _ _, rfl, rfl, ?_⟩
  intro hs
  exact ⟨⟨hs.before, hs.short⟩, Nat.le_refl _, Nat.le_refl _⟩

theorem skips_errorFrom (s : Lexer) (lo : UInt32) (msg : String) :
    Skips 0 s (s.errorFrom lo msg) := skips_error s lo _ _

theorem skips_addBrace (s : Lexer) (k : BitVec 32) : Skips 0 s (s.addBrace k) := by
  refine ⟨rfl, List.prefix_rfl, rfl, rfl, ?_⟩
  intro hs
  exact ⟨⟨hs.before, hs.short⟩, Nat.le_refl _, Nat.le_refl _⟩

theorem skips_setHoleBrace (s : Lexer) (depth : BitVec 32) : Skips 0 s (s.setHoleBrace depth) := by
  rw [setHoleBrace]
  cases hstack : s.interpStack with
  | nil => exact .refl s
  | cons frame frames =>
    refine ⟨rfl, List.prefix_rfl, rfl, ?_, ?_⟩
    · rw [hstack]
      rfl
    · intro hs
      exact ⟨⟨hs.before, hs.short⟩, Nat.le_refl _, Nat.le_refl _⟩

theorem skips_unicodeEscapeDeprecation (s : Lexer) (raw processed : List Char) (lo : UInt32)
    (msg : String) (phase : Phase) :
    Skips 0 s (s.unicodeEscapeDeprecation raw processed lo msg phase) := by
  rw [unicodeEscapeDeprecation]
  split
  · exact .refl s
  · refine ⟨rfl, List.prefix_append _ _, rfl, rfl, ?_⟩
    intro hs
    exact ⟨⟨hs.before, hs.short⟩, Nat.le_refl _, Nat.le_refl _⟩

theorem scans_popFrame (s : Lexer) (h : s.interpStack ≠ []) : Scans 1 s s.popFrame := by
  refine ⟨rfl, List.prefix_rfl, ?_⟩
  intro hs
  refine ⟨⟨hs.before, hs.short⟩, ?_, [], (List.append_nil _).symm, .nil _ _ (Nat.le_refl _)⟩
  have hpos := List.length_pos_of_ne_nil h
  have hweight : s.popFrame.weight = 2 * s.rest.length + (s.interpStack.length - 1) := by
    rw [weight, popFrame, List.length_tail]
  rw [hweight, weight]
  omega

theorem Scans.pushFrame (h : Scans (n + 1) s s') (frame : InterpFrame) :
    Scans n s (s'.pushFrame frame) := by
  refine ⟨h.src, h.diags, ?_⟩
  intro hs
  obtain ⟨hs', hweight, hnew⟩ := h.good hs
  refine ⟨⟨hs'.before, hs'.short⟩, ?_, hnew⟩
  have hpushed : (s'.pushFrame frame).weight =
      2 * s'.rest.length + (s'.interpStack.length + 1) := by
    rw [weight, Lexer.pushFrame, List.length_cons]
  have hbefore : s'.weight = 2 * s'.rest.length + s'.interpStack.length := rfl
  omega

/-! ## Escapes -/

theorem skips_readHexDigits (k : ℕ) (hex : List Char) (s : Lexer) :
    Skips 0 s (readHexDigits k hex s).2 := by
  induction k generalizing hex s with
  | zero => exact .refl s
  | succ k ih =>
    rw [readHexDigits]
    cases hpeek : s.peek with
    | none => exact .refl s
    | some c =>
      dsimp only
      split
      · exact ((skips_bump hpeek).trans (ih _ _)).lighter (Nat.zero_le _)
      · exact .refl s

theorem skips_readEscape (s : Lexer) (lo : UInt32) : Skips 0 s (s.readEscape lo).2 := by
  rw [readEscape]
  cases hpeek : s.peek with
  | none => exact skips_errorFrom s lo _
  | some c =>
    have hbump := skips_bump hpeek
    dsimp only
    cases readSimpleEscape c with
    | some ch => exact hbump.lighter (Nat.zero_le _)
    | none =>
      dsimp only
      split
      · have hdigits := hbump.trans (skips_readHexDigits 4 [] s.bump)
        cases hread : readHexDigits 4 [] s.bump with
        | mk hex after =>
          rw [hread] at hdigits
          cases hex with
          | none => exact (hdigits.trans (skips_errorFrom after lo _)).lighter (Nat.zero_le _)
          | some hex =>
            dsimp only
            cases fromU32 (fromHex hex) with
            | some ch => exact hdigits.lighter (Nat.zero_le _)
            | none => exact (hdigits.trans (skips_errorFrom after lo _)).lighter (Nat.zero_le _)
      · exact (hbump.trans (skips_error s.bump lo _ _)).lighter (Nat.zero_le _)

theorem skips_processEscapes (s : Lexer) (part : List Char) (lo : UInt32) :
    Skips 0 s (s.processEscapes part lo).2 := by
  rw [processEscapes]
  split
  · exact .refl s
  · cases processEscapesFrom part 0 0 part with
    | mk out msg =>
      cases msg with
      | none => exact .refl s
      | some msg => exact skips_error s lo _ msg

theorem skips_processUnicode (s : Lexer) (part : List Char) (lo : UInt32) :
    Skips 0 s (s.processUnicode part lo).2 := by
  rw [processUnicode]
  split
  · dsimp only
    induction (List.range (processUnicodeFrom 0 part).2) generalizing s with
    | nil => exact .refl s
    | cons i is ih => exact (skips_errorFrom s lo _).trans (ih _)
  · exact .refl s

/-! ## Tokens -/

theorem Skips.scansTwo (h : Skips 1 s s') : Scans 2 s s' := h.scans

theorem scans_lexSingle {c : Char} (h : s.peek = some c) {kind : TokenKind} (hkind : kind ≠ .eof) :
    Scans 2 s (s.lexSingle kind) := (skips_bump h).emitFrom hkind

theorem scans_skipLineComment (h : s.peek = some '/') : Scans 2 s s.skipLineComment :=
  (skips_skipWhileSome h rfl).scans

theorem scans_skipBlockComment {c : Char} (h : s.peek = some c) :
    Scans 2 s s.skipBlockComment := by
  have hskip := skips_skipSome h (Nat.succ_pos ((blockComment 1 (s.rest.drop 2)).1 + 1))
  unfold skipBlockComment
  dsimp only
  split
  · exact hskip.scans
  · exact (hskip.trans (skips_errorFrom _ _ _)).scans

theorem operatorKind_ne_eof (text : List Char) : operatorKind text ≠ .eof := by
  unfold operatorKind
  split_ifs <;> simp

theorem operatorRest_ne_nil {c : Char} (h : isOpChar c = true) (cs : List Char) :
    operatorRest none (c :: cs) ≠ [] := by
  rw [operatorRest]
  simp [h]

theorem scans_lexOperator {c : Char} (h : s.peek = some c) (hc : isOpChar c = true) :
    Scans 2 s s.lexOperator := by
  rw [lexOperator]
  split
  · exact (skips_bump h).emitFrom (by simp)
  · refine Skips.emitFrom (n := 1) ?_ (operatorKind_ne_eof _)
    apply skips_skipSome h
    rw [peek] at h
    cases hrest : s.rest with
    | nil => simp [hrest] at h
    | cons d ds =>
      have hd : d = c := by simpa [hrest] using h
      rw [hd]
      exact List.length_pos_of_ne_nil (operatorRest_ne_nil hc ds)

theorem skips_eatNumSuffix (s : Lexer) : Skips 0 s s.eatNumSuffix.2 := by
  rw [eatNumSuffix]
  split <;> first | exact skips_skipAny s 1 | exact .refl s

theorem Skips.emitIntFromRadix (h : Skips n s s') (digits : List Char) (suffix : NumSuffix) :
    Scans (2 * n) s (s'.emitIntFromRadix digits suffix (Lexing.asU32 s.pos)) := by
  have herror : ∀ msg, Scans (2 * n) s (s'.errorFrom (Lexing.asU32 s.pos) msg) :=
    fun msg => (h.trans (skips_errorFrom s' _ msg)).scans
  unfold Lexer.emitIntFromRadix
  cases suffix with
  | none =>
    dsimp only
    split
    · split
      · exact h.emitFrom (by simp)
      · exact herror _
    · exact herror _
  | long =>
    dsimp only
    split
    · exact h.emitFrom (by simp)
    · exact herror _
  | float => exact herror _
  | doubleForced => exact herror _

theorem scans_lexHexNumber {c : Char} (h : s.peek = some c) : Scans 2 s s.lexHexNumber := by
  rw [lexHexNumber]
  have hdigits := (skips_skipSome h Nat.two_pos).trans
    (skips_skipWhile (s.skip 2) fun c => isAsciiHexdigit c || c = '_')
  dsimp only
  split
  · exact (hdigits.trans (skips_errorFrom _ _ _)).scans
  · exact (hdigits.trans (skips_eatNumSuffix _)).emitIntFromRadix _ _

theorem skips_skipFraction (s : Lexer) : Skips 0 s s.skipFraction := by
  rw [skipFraction]
  split
  · exact (skips_skipAny s 1).trans (skips_skipWhile _ _)
  · exact .refl s

theorem skips_skipExponent (s : Lexer) : Skips 0 s s.skipExponent := by
  rw [skipExponent]
  split
  · dsimp only
    split
    · exact ((skips_skipAny s 1).trans (skips_skipAny _ 1)).trans (skips_skipWhile _ _)
    · exact (skips_skipAny s 1).trans (skips_skipWhile _ _)
  · exact .refl s

theorem Skips.emitNumber (h : Skips n s s') (body : List Char) (suffix : NumSuffix) :
    Scans (2 * n) s (s'.emitNumber body suffix (Lexing.asU32 s.pos)) := by
  have herror : ∀ msg, Scans (2 * n) s (s'.errorFrom (Lexing.asU32 s.pos) msg) :=
    fun msg => (h.trans (skips_errorFrom s' _ msg)).scans
  have htooLarge : ∀ kind : TokenKind, kind ≠ .eof → Scans (2 * n) s
      ((s'.errorFrom (Lexing.asU32 s.pos) "integer number too large").emitFrom
        (Lexing.asU32 s.pos) kind) :=
    fun kind hkind => (h.trans (skips_errorFrom s' _ _)).emitFrom hkind
  unfold Lexer.emitNumber
  cases suffix with
  | long =>
    dsimp only
    split
    · split
      · exact h.emitFrom (by simp)
      · exact htooLarge _ (by simp)
    · exact htooLarge _ (by simp)
  | float =>
    dsimp only
    split
    · exact h.emitFrom (by simp)
    · exact herror _
  | doubleForced =>
    dsimp only
    split
    · exact h.emitFrom (by simp)
    · exact herror _
  | none =>
    dsimp only
    split
    · split
      · exact h.emitFrom (by simp)
      · exact herror _
    · split
      · split
        · exact h.emitFrom (by simp)
        · exact htooLarge _ (by simp)
      · exact htooLarge _ (by simp)

theorem scans_lexNumber {c : Char} (h : s.peek = some c) (hc : isAsciiDigit c = true) :
    Scans 2 s s.lexNumber := by
  rw [lexNumber]
  split
  · exact scans_lexHexNumber h
  · have hp : isDigitOrUnderscore c = true := by
      rw [isDigitOrUnderscore, hc]
      rfl
    have hdigits := (skips_skipWhileSome h hp).trans ((skips_skipFraction _).trans
      ((skips_skipExponent _).trans (skips_eatNumSuffix _)))
    exact hdigits.emitNumber _ _

/-! ## Characters, symbols and backquoted names -/

theorem Skips.closeCharacter (h : Skips n s s') (c : Char) :
    Scans (2 * n) s (s'.closeCharacter c (Lexing.asU32 s.pos)) := by
  rw [Lexer.closeCharacter]
  split
  · exact ((h.trans (skips_skipAny s' 1)).emitFrom (by simp))
  · exact (h.trans (skips_errorFrom s' _ _)).scans

theorem scans_lexCharOrSymbol [CharTables] {c : Char} (h : s.peek = some c) :
    Scans 2 s s.lexCharOrSymbol := by
  have hquote := skips_bump h
  rw [lexCharOrSymbol]
  dsimp only
  cases s.bump.peek with
  | none => exact (hquote.trans (skips_errorFrom _ _ _)).scans
  | some d =>
    dsimp only
    split
    · split
      · exact (hquote.trans (skips_skipAny _ 1)).closeCharacter d
      · exact (hquote.trans (skips_skipWhile _ _)).emitFrom (by simp)
    · split
      · have hread := hquote.trans ((skips_skipAny s.bump 1).trans
          (skips_readEscape s.bump.bump (Lexing.asU32 s.pos)))
        change Skips 1 s (s.bump.bump.readEscape (Lexing.asU32 s.pos)).2 at hread
        cases heq : s.bump.bump.readEscape (Lexing.asU32 s.pos) with
        | mk ch after =>
          rw [heq] at hread
          cases ch with
          | none => exact hread.scans
          | some ch => exact hread.closeCharacter ch
      · exact (hquote.trans (skips_skipAny _ 1)).closeCharacter d

/-! ## Loops -/

/-- A loop whose every turn moves on by a character, from states that a scan of `s` reaches.
On a good state no turn panics, and as many turns as there are characters left suffice. -/
theorem run_scan {ρ σ : Type*} (lexer : σ → Lexer) {body : σ → Option (Step ρ σ)} {Q : ρ → Prop}
    (hturn : ∀ st, Skips n s (lexer st) →
      (∃ r, body st = some (.done r) ∧ Q r) ∨
      (∃ st', body st = some (.next st') ∧ Skips 1 (lexer st) (lexer st')) ∨
      (body st = none ∧ ¬ Good s))
    (st : σ) (hst : Skips n s (lexer st)) :
    (∀ k r, run body k st = some r → Q r) ∧
    (Good s → ∀ k, (lexer st).rest.length < k → ∃ r, run body k st = some r) := by
  constructor
  · intro k r hrun
    refine invariant_of_run (I := fun st => Skips n s (lexer st)) ?_ ?_ hst hrun
    · intro st st' hskip hbody
      obtain ⟨r, h, -⟩ | ⟨next, h, hnext⟩ | ⟨h, -⟩ := hturn st hskip
      · rw [h] at hbody
        cases hbody
      · rw [h] at hbody
        cases hbody
        exact (hskip.trans hnext).lighter (Nat.le_add_right n 1)
      · rw [h] at hbody
        cases hbody
    · intro st r hskip hbody
      obtain ⟨r', h, hq⟩ | ⟨next, h, -⟩ | ⟨h, -⟩ := hturn st hskip
      · rw [h] at hbody
        cases hbody
        exact hq
      · rw [h] at hbody
        cases hbody
      · rw [h] at hbody
        cases hbody
  · intro hgood k hk
    refine run_terminates (I := fun st => Skips n s (lexer st)) (fun st => (lexer st).rest.length)
      ?_ hst hk
    intro st hskip
    obtain ⟨r, h, -⟩ | ⟨next, h, hnext⟩ | ⟨-, hbad⟩ := hturn st hskip
    · exact ⟨_, h, fun st' hst' => by cases hst'⟩
    · refine ⟨_, h, ?_⟩
      intro st' hst'
      cases hst'
      have hrest := (hnext.good (hskip.good hgood).1).2.1
      exact ⟨(hskip.trans hnext).lighter (Nat.le_add_right n 1), hrest⟩
    · exact absurd hgood hbad

theorem backtickBody_turn {scan : BacktickScan} (h : Skips 1 s scan.lexer) :
    (∃ s', backtickBody (Lexing.asU32 s.pos) scan = some (.done s') ∧ Scans 2 s s') ∨
    (∃ scan', backtickBody (Lexing.asU32 s.pos) scan = some (.next scan') ∧
      Skips 1 scan.lexer scan'.lexer) ∨
    (backtickBody (Lexing.asU32 s.pos) scan = none ∧ ¬ Good s) := by
  unfold backtickBody
  dsimp only
  cases hpeek : scan.lexer.peek with
  | none => exact .inl ⟨_, rfl, (h.trans (skips_errorFrom _ _ _)).scans⟩
  | some c =>
    have hbump := skips_bump hpeek
    dsimp only
    split
    · split
      · exact .inl ⟨_, rfl, ((h.trans (skips_skipAny _ 1)).trans (skips_errorFrom _ _ _)).scans⟩
      · exact .inl ⟨_, rfl, (h.trans (skips_skipAny _ 1)).emitFrom (by simp)⟩
    · split
      · exact .inl ⟨_, rfl, (h.trans (skips_errorFrom _ _ _)).scans⟩
      · split
        · split
          · exact .inl ⟨_, rfl, ((h.trans (skips_skipAny _ 1)).trans (skips_error _ _ _ _)).scans⟩
          · have hread := hbump.trans
              (skips_readEscape scan.lexer.bump (Lexing.asU32 scan.lexer.pos))
            cases heq : scan.lexer.bump.readEscape (Lexing.asU32 scan.lexer.pos) with
            | mk ch after =>
              rw [heq] at hread
              cases ch with
              | none => exact .inl ⟨_, rfl, ((h.trans hread).lighter (Nat.le_add_right 1 1)).scans⟩
              | some ch => exact .inr (.inl ⟨_, rfl, hread⟩)
        · exact .inr (.inl ⟨_, rfl, hbump⟩)

theorem steps_lexBacktick {c : Char} (h : s.peek = some c) :
    Steps 2 s s.lexBacktick := by
  obtain ⟨hscans, hexists⟩ := run_scan BacktickScan.lexer (fun _ => backtickBody_turn)
    ⟨[], s.bump⟩ (skips_bump h)
  refine ⟨hscans _, fun hs => hexists hs _ ?_⟩
  have hrest := ((skips_bump h).good hs).2.1
  dsimp only
  omega

/-! ## Strings -/

theorem singleStringBody_turn {scan : StringScan} (h : Skips 0 s scan.lexer) :
    (∃ r, singleStringBody scan = some (.done r) ∧ Skips 0 s r.2) ∨
    (∃ scan', singleStringBody scan = some (.next scan') ∧ Skips 1 scan.lexer scan'.lexer) ∨
    (singleStringBody scan = none ∧ ¬ Good s) := by
  unfold singleStringBody
  dsimp only
  cases hpeek : scan.lexer.peek with
  | none => exact .inl ⟨_, rfl, h⟩
  | some c =>
    have hbump := skips_bump hpeek
    dsimp only
    split
    · exact .inl ⟨_, rfl, h.trans (skips_skipAny _ 1)⟩
    · split
      · exact .inl ⟨_, rfl, h⟩
      · split
        · have hread := hbump.trans
            (skips_readEscape scan.lexer.bump (Lexing.asU32 scan.lexer.pos))
          cases heq : scan.lexer.bump.readEscape (Lexing.asU32 scan.lexer.pos) with
          | mk ch after =>
            rw [heq] at hread
            cases ch with
            | none => exact .inl ⟨_, rfl, (h.trans hread).lighter (Nat.zero_le _)⟩
            | some ch => exact .inr (.inl ⟨_, rfl, hread⟩)
        · exact .inr (.inl ⟨_, rfl, hbump⟩)

theorem skips_readSingleString (s : Lexer) :
    (∀ r, s.readSingleString = some r → Skips 0 s r.2) ∧
    (Good s → ∃ r, s.readSingleString = some r) := by
  obtain ⟨hskips, hexists⟩ := run_scan StringScan.lexer (fun _ => singleStringBody_turn)
    ⟨[], s⟩ (Skips.refl s)
  exact ⟨hskips _, fun hs => hexists hs _ (Nat.lt_succ_self _)⟩

theorem skips_readTripleString (s : Lexer) : Skips 0 s s.readTripleString.2 := by
  rw [readTripleString]
  cases tripleString s.rest with
  | none => exact skips_skipAny s _
  | some r => exact skips_skipAny s r.2

theorem skips_finishInterpPart (s : Lexer) (buf : List Char) (lo : UInt32) :
    Skips 0 s (s.finishInterpPart buf lo).2 := by
  unfold finishInterpPart
  cases s.interpStack with
  | nil => exact .refl s
  | cons frame frames =>
    dsimp only
    split
    · exact (skips_processUnicode s buf lo).trans (skips_unicodeEscapeDeprecation _ _ _ _ _ _)
    · exact skips_processEscapes s buf lo
    · exact .refl s

theorem Skips.endInterp (h : Skips n s s') (buf : List Char) (hstack : s.interpStack ≠ []) :
    Scans 1 s (s'.endInterp buf (Lexing.asU32 s.pos)) := by
  have hpart := h.trans (skips_finishInterpPart s' buf (Lexing.asU32 s.pos))
  have hkind : TokenKind.interpEnd (s'.finishInterpPart buf (Lexing.asU32 s.pos)).1 ≠ .eof := by simp
  have hemit := hpart.emitFrom hkind
  rw [Lexer.endInterp]
  refine (hemit.trans (scans_popFrame _ ?_)).lighter (Nat.le_add_left 1 _)
  intro hnil
  apply hstack
  rw [← List.length_eq_zero_iff, ← hpart.stack]
  exact List.length_eq_zero_iff.mpr hnil

theorem Skips.endPart (h : Skips n s s') (buf : List Char) :
    Scans 0 s (s'.endPart buf (Lexing.asU32 s.pos)) :=
  ((h.trans (skips_finishInterpPart s' buf (Lexing.asU32 s.pos))).emitFrom (by simp)).lighter
    (Nat.zero_le _)

theorem processUnicode_eq (s : Lexer) (part : List Char) (lo : UInt32) :
    ∃ diags, (s.processUnicode part lo).2 = { s with diags } := by
  rw [processUnicode]
  split
  · dsimp only
    induction (List.range (processUnicodeFrom 0 part).2) generalizing s with
    | nil => exact ⟨s.diags, rfl⟩
    | cons i is ih => exact ih (s.errorFrom lo "invalid unicode escape")
  · exact ⟨s.diags, rfl⟩

/-- Finishing a part only adds diagnostics. -/
theorem finishInterpPart_eq (s : Lexer) (buf : List Char) (lo : UInt32) :
    ∃ diags, (s.finishInterpPart buf lo).2 = { s with diags } := by
  unfold finishInterpPart
  split
  · exact ⟨s.diags, rfl⟩
  · split
    · obtain ⟨diags, heq⟩ := processUnicode_eq s buf lo
      dsimp only
      rw [heq, unicodeEscapeDeprecation]
      split
      · exact ⟨diags, rfl⟩
      · exact ⟨_, rfl⟩
    · rw [processEscapes]
      split
      · exact ⟨s.diags, rfl⟩
      · cases processEscapesFrom buf 0 0 buf with
        | mk out msg => cases msg <;> exact ⟨_, rfl⟩
    · exact ⟨s.diags, rfl⟩

theorem endPart_peek (s : Lexer) (buf : List Char) (lo : UInt32) :
    (s.endPart buf lo).peek = s.peek := by
  obtain ⟨diags, heq⟩ := finishInterpPart_eq s buf lo
  rw [endPart, heq]
  rfl

/-- A slice of what has just been passed over. -/
theorem Good.slice_skip (hs : Good s) (k : ℕ) : (s.skip k).slice s.pos = some (s.rest.take k) := by
  obtain ⟨before, hsrc, hpos⟩ := hs.before
  have hcut : splitBytes s.pos s.src = some (before, s.rest) := by
    rw [hsrc, hpos]
    exact splitBytes_append before s.rest
  have hlen : (s.skip k).pos - s.pos = byteLength (s.rest.take k) := by
    rw [skip]
    exact Nat.add_sub_cancel_left ..
  have hrest : splitBytes (byteLength (s.rest.take k)) s.rest =
      some (s.rest.take k, s.rest.drop k) := by
    have hcut := splitBytes_append (s.rest.take k) (s.rest.drop k)
    rw [List.take_append_drop] at hcut
    exact hcut
  have hsame : (s.skip k).src = s.src := rfl
  rw [slice, hsame, hcut, Option.bind_some, hlen, hrest]
  rfl

theorem interpDollar_turn [CharTables] {triple : Bool} {scan : InterpScan}
    (h : Skips 0 s scan.lexer) (hpeek : scan.lexer.peek = some '$') :
    (∃ s', interpDollar triple (Lexing.asU32 s.pos) scan = some (.done s') ∧ Scans 1 s s') ∨
    (∃ scan', interpDollar triple (Lexing.asU32 s.pos) scan = some (.next scan') ∧
      Skips 1 scan.lexer scan'.lexer) ∨
    (interpDollar triple (Lexing.asU32 s.pos) scan = none ∧ ¬ Good s) := by
  -- the part ends, and the lexer stands after the `$`
  have hdollar : Scans 2 s (scan.lexer.endPart scan.buf (Lexing.asU32 s.pos)).bump := by
    have hbump := skips_bump ((endPart_peek scan.lexer scan.buf (Lexing.asU32 s.pos)).trans hpeek)
    exact (h.endPart scan.buf).trans hbump.scans
  unfold interpDollar
  dsimp only
  split
  · exact .inr (.inl ⟨_, rfl, skips_skipSome hpeek Nat.two_pos⟩)
  · split
    · refine .inl ⟨_, rfl, ?_⟩
      exact (hdollar.trans ((skips_skipAny _ 1).emitFrom (by simp))).lighter (by omega)
    · split
      · refine .inl ⟨_, rfl, ?_⟩
        have hbrace := (hdollar.trans (skips_addBrace _ 1).scans).trans
          ((skips_skipAny _ 1).emitFrom (by simp : TokenKind.lBrace ≠ .eof))
        exact (hbrace.trans (skips_setHoleBrace _ _).scans).lighter (by omega)
      · split
        · cases hslice : ((scan.lexer.endPart scan.buf (Lexing.asU32 s.pos)).bump.bump.skipWhile
              isInterpIdPart).slice
                (Lexing.asU32 (scan.lexer.endPart scan.buf (Lexing.asU32 s.pos)).bump.pos).toNat with
          | some name =>
            refine .inl ⟨_, rfl, ?_⟩
            have hname := ((skips_skipAny (scan.lexer.endPart scan.buf (Lexing.asU32 s.pos)).bump
              1).trans (skips_skipWhile _ isInterpIdPart)).emitFrom
                (by simp : TokenKind.interpId name ≠ .eof)
            exact (hdollar.trans hname).lighter (by omega)
          | none =>
            refine .inr (.inr ⟨rfl, ?_⟩)
            intro hs
            have hid := (hdollar.good hs).1
            rw [hid.asU32, bump, skipWhile, skip_skip, hid.slice_skip] at hslice
            cases hslice
        · refine .inr (.inl ⟨_, rfl, ?_⟩)
          exact (skips_bump hpeek).trans (skips_error _ _ _ _)

theorem interpBackslash_turn {triple : Bool} {scan : InterpScan} (h : Skips 0 s scan.lexer)
    (hpeek : scan.lexer.peek = some '\\') :
    (∃ s', interpBackslash triple scan = some (.done s') ∧ Scans 1 s s') ∨
    (∃ scan', interpBackslash triple scan = some (.next scan') ∧
      Skips 1 scan.lexer scan'.lexer) := by
  have hbump := skips_bump hpeek
  unfold interpBackslash
  dsimp only
  split
  · have hread := hbump.trans (skips_readEscape scan.lexer.bump (Lexing.asU32 scan.lexer.pos))
    cases heq : scan.lexer.bump.readEscape (Lexing.asU32 scan.lexer.pos) with
    | mk ch after =>
      rw [heq] at hread
      cases ch with
      | none => exact .inl ⟨_, rfl, (h.trans hread).scans.lighter (by omega)⟩
      | some ch => exact .inr ⟨_, rfl, hread⟩
  · split
    · exact .inr ⟨_, rfl, hbump.trans (skips_skipAny _ 1)⟩
    · exact .inr ⟨_, rfl, hbump⟩

theorem interpBody_turn [CharTables] {triple : Bool} (hstack : s.interpStack ≠ [])
    {scan : InterpScan} (h : Skips 0 s scan.lexer) :
    (∃ s', interpBody triple (Lexing.asU32 s.pos) scan = some (.done s') ∧ Scans 1 s s') ∨
    (∃ scan', interpBody triple (Lexing.asU32 s.pos) scan = some (.next scan') ∧
      Skips 1 scan.lexer scan'.lexer) ∨
    (interpBody triple (Lexing.asU32 s.pos) scan = none ∧ ¬ Good s) := by
  have hunterminated : ∀ msg,
      Scans 1 s (scan.lexer.errorFrom (Lexing.asU32 s.pos) msg).popFrame := by
    intro msg
    have herror := h.trans (skips_errorFrom scan.lexer (Lexing.asU32 s.pos) msg)
    refine (herror.scans.trans (scans_popFrame _ ?_)).lighter (by omega)
    intro hnil
    apply hstack
    rw [← List.length_eq_zero_iff, ← herror.stack]
    exact List.length_eq_zero_iff.mpr hnil
  unfold interpBody
  dsimp only
  cases hpeek : scan.lexer.peek with
  | none => exact .inl ⟨_, rfl, hunterminated _⟩
  | some c =>
    dsimp only
    split
    · exact .inl ⟨_, rfl, hunterminated _⟩
    · split
      · exact .inl ⟨_, rfl, (h.trans (skips_skipAny _ _)).endInterp _ hstack⟩
      · split
        · exact .inl ⟨_, rfl, (h.trans (skips_skipAny _ 1)).endInterp _ hstack⟩
        · split
          · next hc => exact interpDollar_turn h (hc ▸ hpeek)
          · split
            · next hc =>
              exact (interpBackslash_turn h (hc ▸ hpeek)).imp_right .inl
            · exact .inr (.inl ⟨_, rfl, skips_bump hpeek⟩)

theorem steps_lexInterpString [CharTables] (hstack : s.interpStack ≠ []) :
    Steps 1 s s.lexInterpString := by
  unfold lexInterpString
  cases hframes : s.interpStack with
  | nil => exact absurd hframes hstack
  | cons frame frames =>
    obtain ⟨hscans, hexists⟩ := run_scan InterpScan.lexer
      (fun _ => interpBody_turn hstack) ⟨[], false, s⟩ (Skips.refl s)
    exact ⟨hscans _, fun hs => hexists hs _ (Nat.lt_succ_self _)⟩

theorem Skips.emitTriple (h : Skips n s s') (content : List Char) :
    Scans (2 * n) s (s'.emitTriple content (Lexing.asU32 s.pos)) := by
  rw [Lexer.emitTriple]
  split
  · exact h.emitFrom (by simp)
  · exact (h.trans ((skips_processUnicode s' content _).trans
      (skips_unicodeEscapeDeprecation _ _ _ _ _ _))).emitFrom (by simp)

theorem steps_lexString [CharTables] (h : s.peek = some '"') (interpolator : Option (List Char)) :
    Steps 2 s (s.lexString interpolator) := by
  have hopened : Skips 1 s (if s.startsWith "\"\"\"" then s.skip 3 else s.bump) := by
    split
    · exact skips_skipSome h (by omega)
    · exact skips_bump h
  unfold lexString
  dsimp only
  cases interpolator with
  | some text =>
    dsimp only
    have hpushed := (Scans.lighter (hopened.emitFrom (by simp : TokenKind.interpStart text
      (s.startsWith "\"\"\"") ≠ .eof)) (Nat.le_refl 2)).pushFrame
        { triple := s.startsWith "\"\"\"", holeBrace := -1, escapes := s.interpEscapes text }
    obtain ⟨hscans, hexists⟩ := steps_lexInterpString (s := ((if s.startsWith "\"\"\"" then s.skip 3
      else s.bump).emitFrom (Lexing.asU32 s.pos) (.interpStart text
        (s.startsWith "\"\"\""))).pushFrame
          { triple := s.startsWith "\"\"\"", holeBrace := -1, escapes := s.interpEscapes text })
      (List.cons_ne_nil _ _)
    exact ⟨fun s' hs' => hpushed.trans (hscans s' hs'), fun hs => hexists (hpushed.good hs).1⟩
  | none =>
    dsimp only
    split
    · next htriple =>
      rw [if_pos htriple] at hopened
      have hread := hopened.trans (skips_readTripleString (s.skip 3))
      cases heq : (s.skip 3).readTripleString with
      | mk content after =>
        rw [heq] at hread
        cases content with
        | some content =>
          refine ⟨?_, fun _ => ⟨_, rfl⟩⟩
          intro s' hs'
          cases hs'
          exact hread.emitTriple content
        | none =>
          refine ⟨?_, fun _ => ⟨_, rfl⟩⟩
          intro s' hs'
          cases hs'
          exact (hread.trans (skips_errorFrom _ _ _)).scans
    · next htriple =>
      rw [if_neg htriple] at hopened
      obtain ⟨hskips, hexists⟩ := skips_readSingleString s.bump
      constructor
      · intro s' hs'
        obtain ⟨r, hr, rfl⟩ := Option.map_eq_some_iff.mp hs'
        have hread := hopened.trans (hskips r hr)
        match r, hread with
        | (some content, after), hread => exact hread.emitFrom (by simp)
        | (none, after), hread => exact (hread.trans (skips_errorFrom _ _ _)).scans
      · intro hs
        obtain ⟨r, hr⟩ := hexists (hopened.good hs).1
        exact ⟨_, Option.map_eq_some_iff.mpr ⟨r, hr, rfl⟩⟩

/-! ## Names -/

theorem keywordKind_ne_eof (text : List Char) : keywordKind text ≠ some .eof := by
  intro h
  obtain ⟨l₁, l₂, hmem, -⟩ := List.lookup_eq_some_iff.mp h
  have hall : ∀ p ∈ KEYWORDS, p.2 ≠ .eof := by decide
  apply hall (text, .eof)
  · rw [hmem]
    simp
  · rfl

theorem Skips.lexIdentOrKw [CharTables]
    (h : Skips n s (if s.peek.any isIdStart then s.bump else s)) :
    Steps (2 * n) s s.lexIdentOrKw := by
  unfold Lexer.lexIdentOrKw
  dsimp only
  generalize (if s.peek.any isIdStart then s.bump else s) = first at h
  have hletters := h.trans (skips_skipWhile first isIdPart)
  have hafter : Skips n s (if 1 < byteLength ((first.skipWhile isIdPart).textSince s) ∧
      ((first.skipWhile isIdPart).textSince s).getLast? = some '_' then
        (first.skipWhile isIdPart).skipWhile isOpChar else first.skipWhile isIdPart) := by
    split
    · exact hletters.trans (skips_skipWhile _ _)
    · exact hletters
  generalize (if 1 < byteLength ((first.skipWhile isIdPart).textSince s) ∧
      ((first.skipWhile isIdPart).textSince s).getLast? = some '_' then
        (first.skipWhile isIdPart).skipWhile isOpChar
      else first.skipWhile isIdPart) = after at hafter
  split
  · next hquote =>
    obtain ⟨hscans, hexists⟩ := steps_lexString hquote (some (after.textSince s))
    refine ⟨?_, fun hs => hexists (hafter.good hs).1⟩
    intro s' hs'
    exact (hafter.scans.trans (hscans s' hs')).lighter (by omega)
  · refine ⟨?_, fun _ => ⟨_, rfl⟩⟩
    intro s' hs'
    cases hs'
    apply hafter.emitFrom
    cases hk : keywordKind (after.textSince s) with
    | none => simp
    | some kind =>
      intro hkind
      rw [Option.getD_some] at hkind
      exact keywordKind_ne_eof _ (hkind ▸ hk)

theorem steps_lexIdentOrKw [CharTables] {c : Char} (h : s.peek = some c)
    (hc : isIdStart c = true) :
    Steps 2 s s.lexIdentOrKw := by
  have hfirst : Skips 1 s (if s.peek.any isIdStart then s.bump else s) := by
    rw [h, Option.any_some, if_pos hc]
    exact skips_bump h
  exact hfirst.lexIdentOrKw

/-! ## One step -/

theorem Good.seek (hs : Good s) (k : ℕ) :
    (s.skip k).seek (Lexing.asU32 s.pos).toNat = some s := by
  obtain ⟨before, hsrc, hpos⟩ := hs.before
  have hcut : splitBytes s.pos s.src = some (before, s.rest) := by
    rw [hsrc, hpos]
    exact splitBytes_append before s.rest
  have hsame : (s.skip k).src = s.src := rfl
  rw [hs.asU32, Lexer.seek, hsame, hcut]
  rfl

theorem steps_lexUnderscore [CharTables] (h : s.peek = some '_') :
    Steps 2 s s.lexUnderscore := by
  unfold lexUnderscore
  dsimp only
  split
  · constructor
    · intro s' hs'
      obtain ⟨back, hback, hs'⟩ := Option.bind_eq_some_iff.mp hs'
      -- off the good states the lexer may go back to another place
      have hany : Scans 0 back s' := by
        refine (Skips.lexIdentOrKw (n := 0) ?_).1 s' hs'
        split
        · exact skips_skipAny back 1
        · exact .refl back
      obtain ⟨cut, -, hcut⟩ := Option.map_eq_some_iff.mp hback
      have hsrc : back.src = s.src := by rw [← hcut]; rfl
      have hdiags : back.diags = s.diags := by rw [← hcut]; rfl
      refine ⟨hany.src.trans hsrc, hdiags ▸ hany.diags, ?_⟩
      intro hs
      have hseek := hs.seek 1
      change s.bump.seek _ = some s at hseek
      rw [hseek, Option.some.injEq] at hback
      rw [← hback] at hs'
      exact ((steps_lexIdentOrKw h rfl).1 s' hs').good hs
    · intro hs
      have hback := hs.seek 1
      change s.bump.seek _ = some s at hback
      rw [hback]
      exact (steps_lexIdentOrKw h rfl).2 hs
  · refine ⟨?_, fun _ => ⟨_, rfl⟩⟩
    intro s' hs'
    cases hs'
    exact (skips_bump h).emitFrom (by simp)

theorem scans_lexSingleOrOperator {c : Char} (h : s.peek = some c) (hc : isOpChar c = true)
    {kind : TokenKind} (hkind : kind ≠ .eof) : Scans 2 s (s.lexSingleOrOperator kind) := by
  rw [lexSingleOrOperator]
  split
  · exact scans_lexOperator h hc
  · exact scans_lexSingle h hkind

theorem scans_lexBrace {c : Char} (h : s.peek = some c) (k : BitVec 32) {kind : TokenKind}
    (hkind : kind ≠ .eof) : Scans 2 s ((s.addBrace k).lexSingle kind) := by
  have hsingle := scans_lexSingle (s := s.addBrace k) h hkind
  exact ((skips_addBrace s k).scans.trans hsingle).lighter (by omega)

theorem scans_lexRBrace {c : Char} (h : s.peek = some c) : Scans 2 s s.lexRBrace := by
  have hbrace := scans_lexBrace h (-1) (by simp : TokenKind.rBrace ≠ .eof)
  unfold lexRBrace
  dsimp only
  split
  · exact (hbrace.trans (skips_setHoleBrace _ _).scans).lighter (by omega)
  · exact hbrace

theorem Scans.steps (h : Scans n s s') : Steps n s (some s') :=
  ⟨fun _ hs => Option.some.inj hs ▸ h, fun _ => ⟨s', rfl⟩⟩

theorem scans_slash [CharTables] (h : s.peek = some '/') :
    Scans 2 s (if s.startsWith "//" then s.skipLineComment
      else if s.startsWith "/*" then s.skipBlockComment else s.lexOperator) := by
  split
  · exact scans_skipLineComment h
  · split
    · exact scans_skipBlockComment h
    · exact scans_lexOperator h rfl

theorem steps_lexNormal [CharTables] {c : Char} (h : s.peek = some c) :
    Steps 2 s s.lexNormal := by
  have hsingle : ∀ kind : TokenKind, kind ≠ .eof → Steps 2 s (some (s.lexSingle kind)) :=
    fun kind hkind => (scans_lexSingle h hkind).steps
  unfold lexNormal
  rw [h]
  refine iteInduction (fun _ => (skips_bump h).scans.steps) fun _ => ?_
  refine iteInduction (fun _ => hsingle _ (by simp)) fun _ => ?_
  refine iteInduction ?_ fun _ => ?_
  · intro hc
    have hslash := (scans_slash (hc ▸ h)).steps
    rw [apply_ite some, apply_ite some] at hslash
    exact hslash
  refine iteInduction (fun hc => steps_lexString (hc ▸ h) none) fun _ => ?_
  refine iteInduction (fun _ => (scans_lexCharOrSymbol h).steps) fun _ => ?_
  refine iteInduction (fun _ => steps_lexBacktick h) fun _ => ?_
  refine iteInduction (fun hdigit => (scans_lexNumber h hdigit).steps) fun _ => ?_
  refine iteInduction (fun _ => hsingle _ (by simp)) fun _ => ?_
  refine iteInduction (fun _ => hsingle _ (by simp)) fun _ => ?_
  refine iteInduction (fun _ => hsingle _ (by simp)) fun _ => ?_
  refine iteInduction (fun _ => hsingle _ (by simp)) fun _ => ?_
  refine iteInduction (fun _ => (scans_lexBrace h 1 (by simp)).steps) fun _ => ?_
  refine iteInduction (fun _ => (scans_lexRBrace h).steps) fun _ => ?_
  refine iteInduction (fun _ => hsingle _ (by simp)) fun _ => ?_
  refine iteInduction (fun _ => hsingle _ (by simp)) fun _ => ?_
  refine iteInduction (fun _ => hsingle _ (by simp)) fun _ => ?_
  refine iteInduction (fun hc => steps_lexUnderscore (hc ▸ h)) fun _ => ?_
  refine iteInduction (fun hc => (scans_lexSingleOrOperator (hc ▸ h) rfl (by simp)).steps) fun _ => ?_
  refine iteInduction (fun hc => (scans_lexSingleOrOperator (hc ▸ h) rfl (by simp)).steps) fun _ => ?_
  refine iteInduction (fun hid => steps_lexIdentOrKw h hid) fun _ => ?_
  refine iteInduction (fun hop => (scans_lexOperator h hop).steps) fun _ => ?_
  exact ((skips_bump h).trans (skips_error _ _ _ _)).scans.steps

/-! ## What is left after a skip -/

@[simp] theorem skip_rest (s : Lexer) (k : ℕ) : (s.skip k).rest = s.rest.drop k := rfl

@[simp] theorem bump_rest (s : Lexer) : s.bump.rest = s.rest.tail := List.drop_one

@[simp] theorem skip_interpStack (s : Lexer) (k : ℕ) : (s.skip k).interpStack = s.interpStack := rfl

@[simp] theorem skip_diags (s : Lexer) (k : ℕ) : (s.skip k).diags = s.diags := rfl

@[simp] theorem skip_tokens (s : Lexer) (k : ℕ) : (s.skip k).tokens = s.tokens := rfl

theorem textSince_skip (s : Lexer) (k : ℕ) : (s.skip k).textSince s = s.rest.take k := by
  have hlength : s.rest.length - (s.rest.drop k).length = min k s.rest.length := by
    rw [List.length_drop]
    omega
  rw [textSince, skip_rest, hlength, ← List.take_take, List.take_length]

theorem peek_of_rest {c : Char} {cs : List Char} (h : s.rest = c :: cs) : s.peek = some c := by
  rw [peek, h, List.head?_cons]

end Lexer
end ScalaRs.Lexing
