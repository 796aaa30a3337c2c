import ScalaRs.LexerSpans

/-! # Holes of interpolated strings

What the lexer counts braces for: inside a hole it lexes ordinary tokens, and it goes back to
the string at the brace that matches the one which opened the hole. -/
namespace ScalaRs.Lexing
open WhileLoops

namespace Lexer
variable {s s' : Lexer}

/-! ## What leaves the brace depth and the open strings alone -/

def modeState (s : Lexer) : BitVec 32 × List InterpFrame := (s.braceDepth, s.interpStack)

@[simp] theorem modeState_skip (s : Lexer) (k : ℕ) : (s.skip k).modeState = s.modeState := rfl

@[simp] theorem modeState_bump (s : Lexer) : s.bump.modeState = s.modeState := rfl

@[simp] theorem modeState_skipWhile (s : Lexer) (p : Char → Bool) :
    (s.skipWhile p).modeState = s.modeState := rfl

@[simp] theorem modeState_error (s : Lexer) (lo hi : UInt32) (msg : List Char) :
    (s.error lo hi msg).modeState = s.modeState := rfl

@[simp] theorem modeState_errorFrom (s : Lexer) (lo : UInt32) (msg : String) :
    (s.errorFrom lo msg).modeState = s.modeState := rfl

@[simp] theorem modeState_emitFrom (s : Lexer) (lo : UInt32) (kind : TokenKind) :
    (s.emitFrom lo kind).modeState = s.modeState := rfl

@[simp] theorem modeState_lexSingle (s : Lexer) (kind : TokenKind) :
    (s.lexSingle kind).modeState = s.modeState := rfl

@[simp] theorem modeState_unicodeEscapeDeprecation (s : Lexer) (raw processed : List Char)
    (lo : UInt32) (msg : String) (phase : Phase) :
    (s.unicodeEscapeDeprecation raw processed lo msg phase).modeState = s.modeState := by
  rw [unicodeEscapeDeprecation]
  split <;> rfl

@[simp] theorem modeState_readHexDigits (k : ℕ) (hex : List Char) (s : Lexer) :
    (readHexDigits k hex s).2.modeState = s.modeState := by
  induction k generalizing hex s with
  | zero => rfl
  | succ k ih =>
    rw [readHexDigits]
    cases s.peek with
    | none => rfl
    | some c =>
      dsimp only
      split
      · rw [ih, modeState_bump]
      · rfl

@[simp] theorem modeState_readEscape (s : Lexer) (lo : UInt32) :
    (s.readEscape lo).2.modeState = s.modeState := by
  unfold readEscape
  cases s.peek with
  | none => rfl
  | some c =>
    dsimp only
    cases readSimpleEscape c with
    | some ch => rfl
    | none =>
      dsimp only
      split
      · have hdigits := modeState_readHexDigits 4 [] s.bump
        cases hread : readHexDigits 4 [] s.bump with
        | mk hex after =>
          rw [hread] at hdigits
          cases hex with
          | none => exact hdigits
          | some hex =>
            dsimp only
            cases fromU32 (fromHex hex) <;> exact hdigits
      · rfl

@[simp] theorem modeState_processUnicode (s : Lexer) (part : List Char) (lo : UInt32) :
    (s.processUnicode part lo).2.modeState = s.modeState := by
  obtain ⟨diags, heq⟩ := processUnicode_eq s part lo
  rw [heq]
  rfl

@[simp] theorem modeState_finishInterpPart (s : Lexer) (buf : List Char) (lo : UInt32) :
    (s.finishInterpPart buf lo).2.modeState = s.modeState := by
  obtain ⟨diags, heq⟩ := finishInterpPart_eq s buf lo
  rw [heq]
  rfl

@[simp] theorem modeState_skipBlockComment (s : Lexer) :
    s.skipBlockComment.modeState = s.modeState := by
  unfold skipBlockComment
  dsimp only
  split <;> rfl

@[simp] theorem modeState_lexOperator (s : Lexer) : s.lexOperator.modeState = s.modeState := by
  unfold lexOperator
  split <;> rfl

@[simp] theorem modeState_eatNumSuffix (s : Lexer) : s.eatNumSuffix.2.modeState = s.modeState := by
  unfold eatNumSuffix
  split <;> rfl

@[simp] theorem modeState_emitIntFromRadix (s : Lexer) (digits : List Char) (suffix : NumSuffix)
    (lo : UInt32) : (s.emitIntFromRadix digits suffix lo).modeState = s.modeState := by
  unfold emitIntFromRadix
  cases suffix <;> dsimp only <;> (try split) <;> (try split) <;> rfl

@[simp] theorem modeState_lexHexNumber (s : Lexer) : s.lexHexNumber.modeState = s.modeState := by
  unfold lexHexNumber
  dsimp only
  split
  · rfl
  · rw [modeState_emitIntFromRadix, modeState_eatNumSuffix]
    rfl

@[simp] theorem modeState_skipFraction (s : Lexer) : s.skipFraction.modeState = s.modeState := by
  unfold skipFraction
  split <;> rfl

@[simp] theorem modeState_skipExponent (s : Lexer) : s.skipExponent.modeState = s.modeState := by
  unfold skipExponent
  split
  · dsimp only
    split <;> rfl
  · rfl

@[simp] theorem modeState_emitNumber (s : Lexer) (body : List Char) (suffix : NumSuffix)
    (lo : UInt32) : (s.emitNumber body suffix lo).modeState = s.modeState := by
  unfold emitNumber
  cases suffix <;> dsimp only <;> (try split) <;> (try split) <;> (try split) <;> rfl

@[simp] theorem modeState_lexNumber (s : Lexer) : s.lexNumber.modeState = s.modeState := by
  unfold lexNumber
  split
  · exact modeState_lexHexNumber s
  · dsimp only
    rw [modeState_emitNumber, modeState_eatNumSuffix, modeState_skipExponent, modeState_skipFraction]
    rfl

@[simp] theorem modeState_closeCharacter (s : Lexer) (c : Char) (lo : UInt32) :
    (s.closeCharacter c lo).modeState = s.modeState := by
  unfold closeCharacter
  split <;> rfl

@[simp] theorem modeState_lexCharOrSymbol [CharTables] (s : Lexer) :
    s.lexCharOrSymbol.modeState = s.modeState := by
  unfold lexCharOrSymbol
  dsimp only
  cases s.bump.peek with
  | none => rfl
  | some c =>
    dsimp only
    split
    · split
      · rw [modeState_closeCharacter]
        rfl
      · rfl
    · split
      · have hread := modeState_readEscape s.bump.bump (asU32 s.pos)
        cases heq : s.bump.bump.readEscape (asU32 s.pos) with
        | mk ch after =>
          rw [heq] at hread
          cases ch with
          | none => exact hread
          | some ch => exact (modeState_closeCharacter after ch _).trans hread
      · rw [modeState_closeCharacter]
        rfl

theorem backtickBody_mode (lo : UInt32) (scan : BacktickScan) :
    (∃ s', backtickBody lo scan = some (.done s') ∧ s'.modeState = scan.lexer.modeState) ∨
    (∃ scan', backtickBody lo scan = some (.next scan') ∧
      scan'.lexer.modeState = scan.lexer.modeState) := by
  unfold backtickBody
  dsimp only
  cases scan.lexer.peek with
  | none => exact .inl ⟨_, rfl, rfl⟩
  | some c =>
    dsimp only
    split
    · split
      · exact .inl ⟨_, rfl, rfl⟩
      · exact .inl ⟨_, rfl, rfl⟩
    · split
      · exact .inl ⟨_, rfl, rfl⟩
      · split
        · split
          · exact .inl ⟨_, rfl, rfl⟩
          · have hread := modeState_readEscape scan.lexer.bump (asU32 scan.lexer.pos)
            cases heq : scan.lexer.bump.readEscape (asU32 scan.lexer.pos) with
            | mk ch after =>
              rw [heq] at hread
              cases ch with
              | none => exact .inl ⟨_, rfl, hread⟩
              | some ch => exact .inr ⟨_, rfl, hread⟩
        · exact .inr ⟨_, rfl, rfl⟩

theorem singleStringBody_mode (scan : StringScan) :
    (∃ r, singleStringBody scan = some (.done r) ∧ r.2.modeState = scan.lexer.modeState) ∨
    (∃ scan', singleStringBody scan = some (.next scan') ∧
      scan'.lexer.modeState = scan.lexer.modeState) := by
  unfold singleStringBody
  dsimp only
  cases scan.lexer.peek with
  | none => exact .inl ⟨_, rfl, rfl⟩
  | some c =>
    dsimp only
    split
    · exact .inl ⟨_, rfl, rfl⟩
    · split
      · exact .inl ⟨_, rfl, rfl⟩
      · split
        · have hread := modeState_readEscape scan.lexer.bump (asU32 scan.lexer.pos)
          cases heq : scan.lexer.bump.readEscape (asU32 scan.lexer.pos) with
          | mk ch after =>
            rw [heq] at hread
            cases ch with
            | none => exact .inl ⟨_, rfl, hread⟩
            | some ch => exact .inr ⟨_, rfl, hread⟩
        · exact .inr ⟨_, rfl, rfl⟩

/-- A loop whose turns leave the mode alone leaves it alone. -/
theorem run_mode {ρ σ : Type*} (lexer : σ → Lexer) (result : ρ → Lexer)
    {body : σ → Option (Step ρ σ)}
    (hturn : ∀ st, (∃ r, body st = some (.done r) ∧ (result r).modeState = (lexer st).modeState) ∨
      (∃ st', body st = some (.next st') ∧ (lexer st').modeState = (lexer st).modeState))
    {st : σ} {k : ℕ} {r : ρ} (h : run body k st = some r) :
    (result r).modeState = (lexer st).modeState := by
  refine invariant_of_run (I := fun st' => (lexer st').modeState = (lexer st).modeState)
    (Q := fun r => (result r).modeState = (lexer st).modeState) ?_ ?_ rfl h
  · intro st₁ st₂ hst hbody
    obtain ⟨r', heq, -⟩ | ⟨st', heq, hmode⟩ := hturn st₁
    · rw [heq] at hbody
      cases hbody
    · rw [heq] at hbody
      cases hbody
      exact hmode.trans hst
  · intro st₁ r' hst hbody
    obtain ⟨r'', heq, hmode⟩ | ⟨st', heq, -⟩ := hturn st₁
    · rw [heq] at hbody
      cases hbody
      exact hmode.trans hst
    · rw [heq] at hbody
      cases hbody

theorem modeState_lexBacktick (h : s.lexBacktick = some s') : s'.modeState = s.modeState :=
  run_mode BacktickScan.lexer id (backtickBody_mode _) h

theorem modeState_readTripleString (s : Lexer) :
    s.readTripleString.2.modeState = s.modeState := by
  rw [readTripleString]
  cases tripleString s.rest <;> rfl

theorem modeState_emitTriple (s : Lexer) (content : List Char) (lo : UInt32) :
    (s.emitTriple content lo).modeState = s.modeState := by
  rw [emitTriple]
  split
  · rfl
  · simp

theorem modeState_lexString [CharTables] (h : s.lexString none = some s') :
    s'.modeState = s.modeState := by
  unfold lexString at h
  dsimp only at h
  split at h
  · have hread := modeState_readTripleString (s.skip 3)
    cases heq : (s.skip 3).readTripleString with
    | mk content after =>
      rw [heq] at h hread
      cases content with
      | some content =>
        cases h
        exact (modeState_emitTriple after content _).trans hread
      | none =>
        cases h
        exact hread
  · obtain ⟨r, hr, heq⟩ := Option.map_eq_some_iff.mp h
    have hread : r.2.modeState = s.modeState :=
      run_mode StringScan.lexer Prod.snd singleStringBody_mode hr
    match r, hread with
    | (some content, after), hread =>
      rw [← heq]
      exact hread
    | (none, after), hread =>
      rw [← heq]
      exact hread

/-! ## Holes -/

def isStringPart : TokenKind → Bool
  | .stringPart _ => true
  | _ => false

/-- The tokens that a turn puts out end with a literal part and the brace of a hole. -/
def opensHole (s s' : Lexer) : Bool :=
  match (s'.tokens.drop s.tokens.length).reverse with
  | brace :: part :: _ => brace.kind = .lBrace && isStringPart part.kind
  | _ => false

theorem opensHole_true {new : List Token} {part brace : Token}
    (htokens : s'.tokens = s.tokens ++ (new ++ [part, brace])) (hpart : isStringPart part.kind)
    (hbrace : brace.kind = .lBrace) : opensHole s s' = true := by
  unfold opensHole
  rw [htokens, List.drop_left, List.reverse_append]
  simp [hpart, hbrace]

theorem opensHole_false {new : List Token} (htokens : s'.tokens = s.tokens ++ new)
    (hlast : ∀ t, new.getLast? = some t → t.kind ≠ .lBrace) : opensHole s s' = false := by
  unfold opensHole
  rw [htokens, List.drop_left]
  cases new using List.reverseRecOn with
  | nil => rfl
  | append_singleton new t =>
    have ht := hlast t List.getLast?_concat
    rw [List.reverse_append, List.reverse_singleton, List.singleton_append]
    cases new.reverse with
    | nil => rfl
    | cons u us => simp [ht]

/-- How the reading of a literal part ends. -/
inductive PartEnd (s s' : Lexer) : Prop
  /-- With the string. -/
  | closed (mode : s'.modeState = (s.braceDepth, s.interpStack.tail))
  /-- After a name or an error in it. -/
  | goesOn (mode : s'.modeState = s.modeState) (new : List Token)
      (tokens : s'.tokens = s.tokens ++ new)
      (last : ∀ t, new.getLast? = some t → t.kind ≠ .lBrace)
  | hole (frame : InterpFrame) (frames : List InterpFrame)
      (stack : s.interpStack = frame :: frames)
      (mode : s'.modeState =
        (s.braceDepth + 1, { frame with holeBrace := s.braceDepth + 1 } :: frames))
      (part brace : Token) (tokens : s'.tokens = s.tokens ++ [part, brace])
      (isPart : isStringPart part.kind) (isBrace : brace.kind = .lBrace)

/-- A part is being read. -/
structure Reading (s s' : Lexer) : Prop where
  mode : s'.modeState = s.modeState
  tokens : s'.tokens = s.tokens

/-- A turn of the loop over a part. -/
abbrev Reads (s : Lexer) (turn : Option (Step Lexer InterpScan)) : Prop :=
  (∀ s', turn = some (.done s') → PartEnd s s') ∧
    (∀ scan, turn = some (.next scan) → Reading s scan.lexer)

theorem Reading.of_skips {s s' s'' : Lexer} {n : ℕ} (h : Reading s s') (hskips : Skips n s' s'')
    (hmode : s''.modeState = s'.modeState) : Reading s s'' :=
  ⟨hmode.trans h.mode, hskips.tokens.trans h.tokens⟩

theorem Reading.skip (h : Reading s s') (k : ℕ) : Reading s (s'.skip k) := ⟨h.mode, h.tokens⟩

theorem popFrame_modeState (s : Lexer) :
    s.popFrame.modeState = (s.braceDepth, s.interpStack.tail) := rfl

theorem Reading.closed (h : Reading s s') {s'' : Lexer} (hmode : s''.modeState = s'.modeState) :
    PartEnd s s''.popFrame := by
  have hboth := Prod.mk.inj (hmode.trans h.mode)
  apply PartEnd.closed
  rw [popFrame_modeState, hboth.1, hboth.2]

theorem Reading.endInterp (h : Reading s s') (buf : List Char) (lo : UInt32) :
    PartEnd s (s'.endInterp buf lo) := by
  unfold Lexer.endInterp
  exact h.closed (modeState_finishInterpPart s' buf lo)

theorem endPart_tokens (s : Lexer) (buf : List Char) (lo : UInt32) :
    ∃ part, (s.endPart buf lo).tokens = s.tokens ++ [part] ∧ isStringPart part.kind := by
  obtain ⟨diags, heq⟩ := finishInterpPart_eq s buf lo
  unfold endPart
  dsimp only
  rw [heq]
  exact ⟨_, rfl, rfl⟩

theorem modeState_endPart (s : Lexer) (buf : List Char) (lo : UInt32) :
    (s.endPart buf lo).modeState = s.modeState := modeState_finishInterpPart s buf lo

theorem modeState_hole {s : Lexer} {frame : InterpFrame} {frames : List InterpFrame}
    (h : s.interpStack = frame :: frames) :
    (((s.addBrace 1).lexSingle .lBrace).setHoleBrace
        ((s.addBrace 1).lexSingle .lBrace).braceDepth).modeState =
      (s.braceDepth + 1, { frame with holeBrace := s.braceDepth + 1 } :: frames) := by
  have hstack : ((s.addBrace 1).lexSingle .lBrace).interpStack = frame :: frames := h
  unfold setHoleBrace
  rw [hstack]
  rfl

theorem setHoleBrace_tokens (s : Lexer) (depth : BitVec 32) :
    (s.setHoleBrace depth).tokens = s.tokens := by
  unfold setHoleBrace
  split <;> rfl

theorem lexSingle_tokens (s : Lexer) (kind : TokenKind) :
    ∃ t, (s.lexSingle kind).tokens = s.tokens ++ [t] ∧ t.kind = kind := ⟨_, rfl, rfl⟩

theorem interpDollar_mode [CharTables] {triple : Bool} {lo : UInt32} {scan : InterpScan}
    (h : Reading s scan.lexer) (hstack : s.interpStack ≠ []) :
    Reads s (interpDollar triple lo scan) := by
  obtain ⟨part, hpart, hkind⟩ := endPart_tokens scan.lexer scan.buf lo
  rw [h.tokens] at hpart
  have hmode : (scan.lexer.endPart scan.buf lo).bump.modeState = s.modeState :=
    (modeState_endPart _ _ _).trans h.mode
  have hname : ∀ (s' : Lexer) (t : Token), s'.modeState = s.modeState →
      s'.tokens = (scan.lexer.endPart scan.buf lo).tokens ++ [t] → t.kind ≠ .lBrace →
      PartEnd s s' := by
    intro s' t hs' htokens ht
    rw [hpart, List.append_assoc] at htokens
    refine .goesOn hs' _ htokens ?_
    intro u hu
    have hu' : t = u := by simpa using hu
    exact hu' ▸ ht
  unfold interpDollar
  dsimp only
  split
  · refine ⟨fun s' heq => (by cases heq), fun scan' heq => ?_⟩
    cases heq
    exact ⟨h.mode, h.tokens⟩
  · split
    · refine ⟨fun s' heq => ?_, fun scan' heq => (by cases heq)⟩
      cases heq
      exact hname _ _ hmode rfl (by simp)
    · split
      · refine ⟨fun s' heq => ?_, fun scan' heq => (by cases heq)⟩
        cases heq
        obtain ⟨hdepth, hframes⟩ := Prod.mk.inj hmode
        cases hs : s.interpStack with
        | nil => exact absurd hs hstack
        | cons frame frames =>
          rw [hs] at hframes
          obtain ⟨brace, hbrace, hkindBrace⟩ := lexSingle_tokens
            ((scan.lexer.endPart scan.buf lo).bump.addBrace 1) .lBrace
          refine .hole frame frames hs ?_ part brace ?_ hkind hkindBrace
          · rw [modeState_hole hframes, hdepth]
          · have hbefore : ((scan.lexer.endPart scan.buf lo).bump.addBrace 1).tokens =
                s.tokens ++ [part] := hpart
            rw [setHoleBrace_tokens, hbrace, hbefore, List.append_assoc]
            rfl
      · split
        · constructor
          · intro s' heq
            obtain ⟨name, -, hname'⟩ := Option.map_eq_some_iff.mp heq
            cases hname'
            exact hname _ _ hmode rfl (by simp)
          · intro scan' heq
            obtain ⟨name, -, hname'⟩ := Option.map_eq_some_iff.mp heq
            cases hname'
        · refine ⟨fun s' heq => (by cases heq), fun scan' heq => ?_⟩
          cases heq
          exact ⟨h.mode, h.tokens⟩

theorem interpBackslash_mode {triple : Bool} {scan : InterpScan} (h : Reading s scan.lexer) :
    Reads s (interpBackslash triple scan) := by
  unfold interpBackslash
  dsimp only
  split
  · have hread : Reading s (scan.lexer.bump.readEscape (asU32 scan.lexer.pos)).2 :=
      h.of_skips ((skips_skipAny scan.lexer 1).trans (skips_readEscape scan.lexer.bump _))
        (modeState_readEscape _ _)
    cases heq : scan.lexer.bump.readEscape (asU32 scan.lexer.pos) with
    | mk ch after =>
      rw [heq] at hread
      cases ch with
      | none =>
        refine ⟨fun s' heq => ?_, fun scan' heq => (by cases heq)⟩
        cases heq
        exact .goesOn hread.mode [] (by rw [hread.tokens, List.append_nil]) (by simp)
      | some ch =>
        refine ⟨fun s' heq => (by cases heq), fun scan' heq => ?_⟩
        cases heq
        exact hread
  · split
    · refine ⟨fun s' heq => (by cases heq), fun scan' heq => ?_⟩
      cases heq
      exact ⟨h.mode, h.tokens⟩
    · refine ⟨fun s' heq => (by cases heq), fun scan' heq => ?_⟩
      cases heq
      exact ⟨h.mode, h.tokens⟩

theorem interpBody_mode [CharTables] {triple : Bool} {lo : UInt32} {scan : InterpScan}
    (h : Reading s scan.lexer) (hstack : s.interpStack ≠ []) :
    Reads s (interpBody triple lo scan) := by
  have hdone : ∀ s₁, PartEnd s s₁ → Reads s (some (.done s₁)) := by
    intro s₁ hend
    refine ⟨fun s' heq => ?_, fun scan' heq => (by cases heq)⟩
    cases heq
    exact hend
  unfold interpBody
  dsimp only
  cases scan.lexer.peek with
  | none => exact hdone _ (h.closed rfl)
  | some c =>
    dsimp only
    split
    · exact hdone _ (h.closed rfl)
    · split
      · exact hdone _ ((h.skip _).endInterp _ _)
      · split
        · exact hdone _ ((h.skip 1).endInterp _ _)
        · split
          · exact interpDollar_mode h hstack
          · split
            · exact interpBackslash_mode h
            · refine ⟨fun s' heq => (by cases heq), fun scan' heq => ?_⟩
              cases heq
              exact ⟨h.mode, h.tokens⟩

theorem lexInterpString_mode [CharTables] (hstack : s.interpStack ≠ [])
    (h : s.lexInterpString = some s') : PartEnd s s' := by
  unfold lexInterpString at h
  cases hframes : s.interpStack with
  | nil => exact absurd hframes hstack
  | cons frame frames =>
    rw [hframes] at h
    refine invariant_of_run (I := fun scan => Reading s scan.lexer) (Q := PartEnd s) ?_ ?_
      ⟨rfl, rfl⟩ h
    · intro scan scan' hreading hbody
      exact (interpBody_mode hreading hstack).2 scan' hbody
    · intro scan s' hreading hbody
      exact (interpBody_mode hreading hstack).1 s' hbody

/-! ## Ordinary turns -/

/-- What an ordinary turn does to the brace depth and the open strings. -/
inductive Ordinary [CharTables] (s s' : Lexer) : Prop
  | other (mode : s'.modeState = s.modeState) (noOpen : s.peek ≠ some '{')
      (noClose : s.peek ≠ some '}')
  | lBrace (peek : s.peek = some '{') (result : s' = (s.addBrace 1).lexSingle .lBrace)
  | rBrace (peek : s.peek = some '}') (result : s' = s.lexRBrace)
  /-- An interpolated string begins, and its first part is read. -/
  | string (begun : Lexer) (frame : InterpFrame) (marker : frame.holeBrace = -1)
      (mode : begun.modeState = (s.braceDepth, frame :: s.interpStack)) (t : Token)
      (tokens : begun.tokens = s.tokens ++ [t]) (kind : t.kind ≠ .lBrace)
      (part : PartEnd begun s') (noOpen : s.peek ≠ some '{') (noClose : s.peek ≠ some '}')

variable [CharTables]

theorem lexString_begins {text : List Char} (h : s.lexString (some text) = some s') :
    ∃ begun frame, frame.holeBrace = -1 ∧
      begun.modeState = (s.braceDepth, frame :: s.interpStack) ∧
      (∃ t, begun.tokens = s.tokens ++ [t] ∧ t.kind ≠ .lBrace) ∧ PartEnd begun s' := by
  unfold lexString at h
  dsimp only at h
  have hopened : ∀ b : Bool, (if b then s.skip 3 else s.bump).modeState = s.modeState ∧
      (if b then s.skip 3 else s.bump).tokens = s.tokens := by
    intro b
    cases b <;> exact ⟨rfl, rfl⟩
  generalize s.startsWith "\"\"\"" = triple at h
  obtain ⟨hmode, htokens⟩ := hopened triple
  generalize (if triple then s.skip 3 else s.bump) = opened at h hmode htokens
  refine ⟨_, { triple, holeBrace := -1, escapes := s.interpEscapes text }, rfl, ?_,
    ⟨⟨.interpStart text triple, ⟨asU32 s.pos, asU32 opened.pos⟩, false, false⟩, ?_, by simp⟩,
    lexInterpString_mode (List.cons_ne_nil _ _) h⟩
  · obtain ⟨hdepth, hstack⟩ := Prod.mk.inj hmode
    rw [← hdepth, ← hstack]
    rfl
  · rw [← htokens]
    rfl

theorem lexIdentOrKw_ordinary (h : s.lexIdentOrKw = some s') (hopen : s.peek ≠ some '{')
    (hclose : s.peek ≠ some '}') : Ordinary s s' := by
  unfold lexIdentOrKw at h
  dsimp only at h
  have hfirst : Reading s (if s.peek.any isIdStart then s.bump else s) := by
    split <;> exact ⟨rfl, rfl⟩
  generalize (if s.peek.any isIdStart then s.bump else s) = first at h hfirst
  have hafter : Reading s (if 1 < byteLength ((first.skipWhile isIdPart).textSince s) ∧
      ((first.skipWhile isIdPart).textSince s).getLast? = some '_' then
        (first.skipWhile isIdPart).skipWhile isOpChar else first.skipWhile isIdPart) := by
    split <;> exact ⟨hfirst.mode, hfirst.tokens⟩
  generalize (if 1 < byteLength ((first.skipWhile isIdPart).textSince s) ∧
      ((first.skipWhile isIdPart).textSince s).getLast? = some '_' then
        (first.skipWhile isIdPart).skipWhile isOpChar
      else first.skipWhile isIdPart) = after at h hafter
  split at h
  · obtain ⟨begun, frame, hmarker, hmode, ⟨t, htokens, hkind⟩, hend⟩ := lexString_begins h
    obtain ⟨hdepth, hstack⟩ := Prod.mk.inj hafter.mode
    rw [hdepth, hstack] at hmode
    rw [hafter.tokens] at htokens
    exact .string begun frame hmarker hmode t htokens hkind hend hopen hclose
  · cases h
    exact .other hafter.mode hopen hclose

theorem lexUnderscore_ordinary (hs : Good s) (hpeek : s.peek = some '_')
    (h : s.lexUnderscore = some s') : Ordinary s s' := by
  have hopen : s.peek ≠ some '{' := by simp [hpeek]
  have hclose : s.peek ≠ some '}' := by simp [hpeek]
  unfold lexUnderscore at h
  dsimp only at h
  split at h
  · have hseek := hs.seek 1
    change s.bump.seek _ = some s at hseek
    rw [hseek, Option.bind_some] at h
    exact lexIdentOrKw_ordinary h hopen hclose
  · cases h
    exact .other rfl hopen hclose

/-- A turn that is ordinary if it does not panic. -/
abbrev OrdinaryTurn (s : Lexer) (result : Option Lexer) : Prop :=
  ∀ s', result = some s' → Ordinary s s'

theorem lexNormal_ordinary (hs : Good s) {c : Char} (hpeek : s.peek = some c) :
    OrdinaryTurn s s.lexNormal := by
  by_cases hopen : c = '{'
  · have hbrace : s.lexNormal = some ((s.addBrace 1).lexSingle .lBrace) := by
      unfold lexNormal
      rw [hpeek, hopen]
      rfl
    intro s' h
    rw [hbrace, Option.some.injEq] at h
    exact .lBrace (hopen ▸ hpeek) h.symm
  by_cases hclose : c = '}'
  · have hbrace : s.lexNormal = some s.lexRBrace := by
      unfold lexNormal
      rw [hpeek, hclose]
      rfl
    intro s' h
    rw [hbrace, Option.some.injEq] at h
    exact .rBrace (hclose ▸ hpeek) h.symm
  have hno : s.peek ≠ some '{' ∧ s.peek ≠ some '}' := by
    rw [hpeek]
    simp [hopen, hclose]
  have hother : ∀ s₁, s₁.modeState = s.modeState → OrdinaryTurn s (some s₁) := by
    intro s₁ hmode s' heq
    cases heq
    exact .other hmode hno.1 hno.2
  have hsingle : ∀ kind, OrdinaryTurn s (some (s.lexSingle kind)) :=
    fun kind => hother _ (modeState_lexSingle s kind)
  have hslash : OrdinaryTurn s (if s.startsWith "//" then some s.skipLineComment
      else if s.startsWith "/*" then some s.skipBlockComment else some s.lexOperator) := by
    split
    · exact hother _ rfl
    · split
      · exact hother _ (modeState_skipBlockComment s)
      · exact hother _ (modeState_lexOperator s)
  have hsingleOrOperator : ∀ kind, OrdinaryTurn s (some (s.lexSingleOrOperator kind)) := by
    intro kind
    apply hother
    unfold lexSingleOrOperator
    split
    · exact modeState_lexOperator s
    · rfl
  unfold lexNormal
  rw [hpeek]
  refine iteInduction (fun _ => hother _ rfl) fun _ => ?_
  refine iteInduction (fun _ => hsingle _) fun _ => ?_
  refine iteInduction (fun _ => hslash) fun _ => ?_
  refine iteInduction (fun _ s' h => .other (modeState_lexString h) hno.1 hno.2) fun _ => ?_
  refine iteInduction (fun _ => hother _ (modeState_lexCharOrSymbol s)) fun _ => ?_
  refine iteInduction (fun _ s' h => .other (modeState_lexBacktick h) hno.1 hno.2) fun _ => ?_
  refine iteInduction (fun _ => hother _ (modeState_lexNumber s)) fun _ => ?_
  refine iteInduction (fun _ => hsingle _) fun _ => ?_
  refine iteInduction (fun _ => hsingle _) fun _ => ?_
  refine iteInduction (fun _ => hsingle _) fun _ => ?_
  refine iteInduction (fun _ => hsingle _) fun _ => ?_
  refine iteInduction (fun hc => absurd hc hopen) fun _ => ?_
  refine iteInduction (fun hc => absurd hc hclose) fun _ => ?_
  refine iteInduction (fun _ => hsingle _) fun _ => ?_
  refine iteInduction (fun _ => hsingle _) fun _ => ?_
  refine iteInduction (fun _ => hsingle _) fun _ => ?_
  refine iteInduction (fun hc s' h => lexUnderscore_ordinary hs (hc ▸ hpeek) h) fun _ => ?_
  refine iteInduction (fun _ => hsingleOrOperator _) fun _ => ?_
  refine iteInduction (fun _ => hsingleOrOperator _) fun _ => ?_
  refine iteInduction (fun _ s' h => lexIdentOrKw_ordinary h hno.1 hno.2) fun _ => ?_
  refine iteInduction (fun _ => hother _ (modeState_lexOperator s)) fun _ => ?_
  exact hother _ rfl

end Lexer

/-! ## Modes -/

/-- Where the lexer is in an interpolated string. -/
inductive Mode where
  | part
  /-- In a hole, with so many braces open inside it. -/
  | hole (opened : ℕ)
deriving DecidableEq

/-- In a hole the braces are counted, and the one that matches goes back to the part. -/
def countBrace : List Mode → Option Char → List Mode
  | .hole n :: outer, some '{' => .hole (n + 1) :: outer
  | .hole (n + 1) :: outer, some '}' => .hole n :: outer
  | .hole 0 :: outer, some '}' => .part :: outer
  | modes, _ => modes

/-- The modes after a turn, the innermost first. A part ends with the string or with the brace
of a hole. -/
def nextModes (s s' : Lexer) (modes : List Mode) : List Mode :=
  match modes with
  | .part :: outer =>
    if s'.interpStack.length < s.interpStack.length then outer
    else if s.opensHole s' then .hole 0 :: outer
    else .part :: outer
  | _ =>
    if s.interpStack.length < s'.interpStack.length then
      (if s.opensHole s' then .hole 0 else .part) :: modes
    else countBrace modes s.peek

/-- The states of a run over a text, with their modes, when every turn is allowed. -/
inductive Reaches [CharTables] (allowed : Lexer → Lexer → Prop) (src : List Char)
    (fileIndex : ℕ) (unicodeEscapesRaw : Bool) : Lexer → List Mode → Prop
  | start : Reaches allowed src fileIndex unicodeEscapesRaw
      (Lexer.start src fileIndex unicodeEscapesRaw) []
  | turn (s s' : Lexer) (modes : List Mode)
      (before : Reaches allowed src fileIndex unicodeEscapesRaw s modes)
      (next : s.tokenizeBody = some (.next s')) (meets : allowed s s') :
      Reaches allowed src fileIndex unicodeEscapesRaw s' (nextModes s s' modes)

/-- A hole opens where the brace depth is not negative. -/
def HoleAllowed (s s' : Lexer) : Prop :=
  s.opensHole s' = true → (s.braceDepth + 1).slt 0 = false

/-! ## What ties the modes to the state -/

/-- The depth stored for a hole is the depth without the braces open inside it, and what was
open before the hole is tied to the depth before it. -/
inductive Tied (limit : ℕ) : BitVec 32 → List InterpFrame → List Mode → Prop
  | nil (depth : BitVec 32) : Tied limit depth [] []
  | part (depth : BitVec 32) (frame : InterpFrame) (frames : List InterpFrame)
      (modes : List Mode) (marker : frame.holeBrace = -1) (rest : Tied limit depth frames modes) :
      Tied limit depth (frame :: frames) (.part :: modes)
  | hole (depth : BitVec 32) (frame : InterpFrame) (frames : List InterpFrame)
      (modes : List Mode) (opened : ℕ) (nonneg : frame.holeBrace.slt 0 = false)
      (stored : depth = frame.holeBrace + BitVec.ofNat 32 opened) (le : opened ≤ limit)
      (rest : Tied limit (frame.holeBrace - 1) frames modes) :
      Tied limit depth (frame :: frames) (.hole opened :: modes)

namespace Tied
variable {limit limit' : ℕ} {depth : BitVec 32} {frames : List InterpFrame} {modes : List Mode}

theorem mono (h : Tied limit depth frames modes) (hle : limit ≤ limit') :
    Tied limit' depth frames modes := by
  induction h with
  | nil depth => exact .nil depth
  | part depth frame frames modes marker _ ih => exact .part depth frame frames modes marker ih
  | hole depth frame frames modes opened nonneg stored le _ ih =>
    exact .hole depth frame frames modes opened nonneg stored (le.trans hle) ih

theorem inStringPart_iff {s : Lexer} (h : Tied limit depth s.interpStack modes) :
    s.inStringPart = true ↔ modes.head? = some .part := by
  unfold Lexer.inStringPart
  generalize s.interpStack = frames at h
  cases h with
  | nil => simp
  | part _ frame frames modes marker rest =>
    rw [List.head?_cons, Option.any_some, marker]
    exact ⟨fun _ => rfl, fun _ => rfl⟩
  | hole _ frame frames modes opened nonneg =>
    rw [List.head?_cons, Option.any_some, nonneg]
    simp

end Tied

section
variable {s s' : Lexer} {modes : List Mode}

/-- A turn in a literal part. -/
theorem tied_part {outer : List Mode} (h : Tied s.pos s.braceDepth s.interpStack (.part :: outer))
    (hend : s.PartEnd s') (hpos : s.pos ≤ s'.pos) (hallowed : HoleAllowed s s') :
    Tied s'.pos s'.braceDepth s'.interpStack (nextModes s s' (.part :: outer)) := by
  unfold nextModes
  dsimp only
  generalize hframes : s.interpStack = frames at h
  cases h with
  | part _ frame frames modes marker rest =>
    cases hend with
    | closed mode =>
      obtain ⟨hdepth, hstack⟩ := Prod.mk.inj mode
      rw [hframes, List.tail_cons] at hstack
      rw [hstack, hdepth, List.length_cons, if_pos (Nat.lt_succ_self _)]
      exact rest.mono hpos
    | goesOn mode new tokens last =>
      obtain ⟨hdepth, hstack⟩ := Prod.mk.inj mode
      rw [hframes] at hstack
      rw [hstack, hdepth, if_neg (Nat.lt_irrefl _), Lexer.opensHole_false tokens last,
        if_neg Bool.false_ne_true]
      exact (Tied.part _ frame frames _ marker rest).mono hpos
    | hole frame' frames' stack mode part brace tokens isPart isBrace =>
      obtain ⟨hdepth, hstack⟩ := Prod.mk.inj mode
      rw [stack] at hframes
      obtain ⟨rfl, rfl⟩ := List.cons_eq_cons.mp hframes
      have hnew : s'.tokens = s.tokens ++ ([] ++ [part, brace]) := tokens
      have hopens := Lexer.opensHole_true hnew isPart isBrace
      rw [hstack, hdepth, List.length_cons, List.length_cons, if_neg (Nat.lt_irrefl _), hopens,
        if_pos rfl]
      apply Tied.hole
      · exact hallowed hopens
      · exact (BitVec.add_zero _).symm
      · exact Nat.zero_le _
      · have hback : s.braceDepth + 1 - 1 = s.braceDepth := BitVec.add_sub_cancel _ _
        dsimp only
        rw [hback]
        exact rest.mono hpos

theorem nextModes_ordinary (h : modes.head? ≠ some .part) : nextModes s s' modes =
    if s.interpStack.length < s'.interpStack.length then
      (if s.opensHole s' then .hole 0 else .part) :: modes
    else countBrace modes s.peek := by
  unfold nextModes
  cases modes with
  | nil => rfl
  | cons mode outer =>
    cases mode with
    | part => exact absurd rfl h
    | hole n => rfl

/-- A turn that neither opens nor closes a brace and leaves the strings alone. -/
theorem nextModes_same (h : modes.head? ≠ some .part)
    (hstack : s'.interpStack = s.interpStack) (hopen : s.peek ≠ some '{')
    (hclose : s.peek ≠ some '}') : nextModes s s' modes = modes := by
  rw [nextModes_ordinary h, hstack, if_neg (Nat.lt_irrefl _)]
  unfold countBrace
  split
  · exact absurd ‹_› hopen
  · exact absurd ‹_› hclose
  · exact absurd ‹_› hclose
  · rfl

/-- A string begins in an ordinary turn. -/
theorem tied_string [CharTables] {begun : Lexer} {frame : InterpFrame} {t : Token}
    (h : Tied s.pos s.braceDepth s.interpStack modes) (hmodes : modes.head? ≠ some .part)
    (hmarker : frame.holeBrace = -1)
    (hmode : begun.modeState = (s.braceDepth, frame :: s.interpStack))
    (htokens : begun.tokens = s.tokens ++ [t]) (hkind : t.kind ≠ .lBrace)
    (hend : begun.PartEnd s') (hopen : s.peek ≠ some '{') (hclose : s.peek ≠ some '}')
    (hpos : s.pos ≤ s'.pos) (hallowed : HoleAllowed s s') :
    Tied s'.pos s'.braceDepth s'.interpStack (nextModes s s' modes) := by
  obtain ⟨hbegun, hbegunStack⟩ := Prod.mk.inj hmode
  have hmono := h.mono hpos
  cases hend with
  | closed mode =>
    obtain ⟨hdepth, hstack⟩ := Prod.mk.inj mode
    rw [hbegunStack, List.tail_cons] at hstack
    rw [nextModes_same hmodes hstack hopen hclose, hdepth, hbegun, hstack]
    exact hmono
  | goesOn mode new tokens last =>
    obtain ⟨hdepth, hstack⟩ := Prod.mk.inj mode
    rw [hbegunStack] at hstack
    rw [htokens, List.append_assoc] at tokens
    have hopens : s.opensHole s' = false := by
      apply Lexer.opensHole_false tokens
      intro u hu
      cases new using List.reverseRecOn with
      | nil =>
        have heq : t = u := by simpa using hu
        exact heq ▸ hkind
      | append_singleton new v =>
        apply last u
        rw [← List.append_assoc, List.getLast?_concat] at hu
        rw [List.getLast?_concat]
        exact hu
    rw [nextModes_ordinary hmodes, hstack, hdepth, hbegun, List.length_cons,
      if_pos (Nat.lt_succ_self _), hopens, if_neg Bool.false_ne_true]
    exact .part _ frame _ _ hmarker hmono
  | hole frame' frames' stack mode part brace tokens isPart isBrace =>
    obtain ⟨hdepth, hstack⟩ := Prod.mk.inj mode
    rw [hbegunStack] at stack
    obtain ⟨rfl, rfl⟩ := List.cons_eq_cons.mp stack
    rw [htokens, List.append_assoc] at tokens
    have hopens := Lexer.opensHole_true tokens isPart isBrace
    rw [nextModes_ordinary hmodes, hstack, hdepth, hbegun, List.length_cons,
      if_pos (Nat.lt_succ_self _), hopens, if_pos rfl]
    apply Tied.hole
    · exact hallowed hopens
    · exact (BitVec.add_zero _).symm
    · exact Nat.zero_le _
    · have hback : s.braceDepth + 1 - 1 = s.braceDepth := BitVec.add_sub_cancel _ _
      dsimp only
      rw [hback]
      exact hmono

/-- An opening brace. -/
theorem tied_lBrace (h : Tied s.pos s.braceDepth s.interpStack modes)
    (hmodes : modes.head? ≠ some .part) (hpeek : s.peek = some '{')
    (hs' : s' = (s.addBrace 1).lexSingle .lBrace) :
    Tied s'.pos s'.braceDepth s'.interpStack (nextModes s s' modes) := by
  have hstack : s'.interpStack = s.interpStack := by rw [hs']; rfl
  have hdepth : s'.braceDepth = s.braceDepth + 1 := by rw [hs']; rfl
  have hpos : s'.pos = s.pos + 1 := by
    rw [hs']
    change s.pos + byteLength (s.rest.take 1) = s.pos + 1
    rw [Lexer.peek] at hpeek
    cases hrest : s.rest with
    | nil => simp [hrest] at hpeek
    | cons c cs =>
      have hc : c = '{' := by simpa [hrest] using hpeek
      rw [hc]
      rfl
  rw [nextModes_ordinary hmodes, hstack, if_neg (Nat.lt_irrefl _), hpeek, hdepth]
  generalize s.interpStack = frames at h
  cases h with
  | nil => exact .nil _
  | part => exact absurd rfl hmodes
  | hole _ frame frames modes opened nonneg stored le rest =>
    apply Tied.hole
    · exact nonneg
    · rw [stored, BitVec.ofNat_add, BitVec.add_assoc]
      rfl
    · omega
    · exact rest.mono (by omega)

theorem Lexer.braceDepth_lexSingle_addBrace (s : Lexer) (k : BitVec 32) (kind : TokenKind) :
    ((s.addBrace k).lexSingle kind).braceDepth = s.braceDepth + k := rfl

theorem Lexer.interpStack_lexSingle_addBrace (s : Lexer) (k : BitVec 32) (kind : TokenKind) :
    ((s.addBrace k).lexSingle kind).interpStack = s.interpStack := rfl

theorem Lexer.modeState_setHoleBrace {s : Lexer} {frame : InterpFrame} {frames : List InterpFrame}
    (h : s.interpStack = frame :: frames) (depth : BitVec 32) :
    (s.setHoleBrace depth).modeState =
      (s.braceDepth, { frame with holeBrace := depth } :: frames) := by
  unfold Lexer.setHoleBrace
  rw [h]
  rfl

theorem add_ofNat_eq_self (depth : BitVec 32) {opened : ℕ} (h : opened < 2 ^ 32)
    (heq : depth + BitVec.ofNat 32 opened = depth) : opened = 0 := by
  have hzero : BitVec.ofNat 32 opened = 0#32 := by simpa using heq
  have hnat := congrArg BitVec.toNat hzero
  rwa [BitVec.toNat_ofNat, BitVec.toNat_ofNat, Nat.mod_eq_of_lt h] at hnat

/-- A closing brace. -/
theorem tied_rBrace (h : Tied s.pos s.braceDepth s.interpStack modes)
    (hmodes : modes.head? ≠ some .part) (hshort : s.pos < 2 ^ 32) (hpeek : s.peek = some '}')
    (hs' : s' = s.lexRBrace) (hpos : s.pos ≤ s'.pos) :
    Tied s'.pos s'.braceDepth s'.interpStack (nextModes s s' modes) := by
  have hsame : ∀ after : Lexer, after.interpStack.length = s.interpStack.length →
      nextModes s after modes = countBrace modes (some '}') := by
    intro after hlength
    rw [nextModes_ordinary hmodes, hlength, if_neg (Nat.lt_irrefl _), hpeek]
  have hdepth : ((s.addBrace (-1)).lexSingle .rBrace).braceDepth = s.braceDepth - 1 := by
    rw [Lexer.braceDepth_lexSingle_addBrace, BitVec.sub_eq_add_neg]
  have hstack := Lexer.interpStack_lexSingle_addBrace s (-1) .rBrace
  unfold Lexer.lexRBrace at hs'
  generalize (s.addBrace (-1)).lexSingle .rBrace = after at hs' hdepth hstack
  generalize hframes : s.interpStack = frames at h
  cases h with
  | nil =>
    have hcloses : s.closesHole = false := by
      rw [Lexer.closesHole, hframes]
    rw [hcloses, if_neg Bool.false_ne_true] at hs'
    rw [hframes] at hstack
    rw [hs', hsame after (by rw [hstack, hframes]), hdepth, hstack]
    exact .nil _
  | part => exact absurd rfl hmodes
  | hole _ frame frames modes opened nonneg stored le rest =>
    have hcloses : s.closesHole = decide (s.braceDepth = frame.holeBrace) := by
      rw [Lexer.closesHole, hframes]
      dsimp only
      rw [nonneg, Bool.not_false, Bool.true_and]
    rw [hcloses] at hs'
    rw [hframes] at hstack
    cases opened with
    | zero =>
      -- the brace that matches the one which opened the hole
      have heq : s.braceDepth = frame.holeBrace := stored.trans (BitVec.add_zero _)
      rw [if_pos (decide_eq_true heq)] at hs'
      obtain ⟨hdepth', hstack'⟩ := Prod.mk.inj (Lexer.modeState_setHoleBrace hstack (-1))
      rw [← hs'] at hdepth' hstack'
      rw [hsame s' (by rw [hstack', hframes]; rfl), hdepth', hstack', hdepth, heq]
      exact .part _ _ _ _ rfl (rest.mono hpos)
    | succ opened =>
      have hne : s.braceDepth ≠ frame.holeBrace := by
        intro heq
        have hzero := add_ofNat_eq_self frame.holeBrace (by omega) (stored.symm.trans heq)
        omega
      rw [decide_eq_false hne, if_neg Bool.false_ne_true] at hs'
      rw [hs', hsame after (by rw [hstack, hframes]), hdepth, hstack]
      rw [hs'] at hpos
      apply Tied.hole
      · exact nonneg
      · rw [stored, BitVec.ofNat_add, ← BitVec.add_assoc]
        exact BitVec.add_sub_cancel _ _
      · omega
      · exact rest.mono hpos

theorem tied_ordinary [CharTables] (h : Tied s.pos s.braceDepth s.interpStack modes)
    (hmodes : modes.head? ≠ some .part) (hturn : s.Ordinary s') (hshort : s.pos < 2 ^ 32)
    (hpos : s.pos ≤ s'.pos) (hallowed : HoleAllowed s s') :
    Tied s'.pos s'.braceDepth s'.interpStack (nextModes s s' modes) := by
  cases hturn with
  | other mode noOpen noClose =>
    obtain ⟨hdepth, hstack⟩ := Prod.mk.inj mode
    rw [nextModes_same hmodes hstack noOpen noClose, hdepth, hstack]
    exact h.mono hpos
  | lBrace peek result => exact tied_lBrace h hmodes peek result
  | rBrace peek result => exact tied_rBrace h hmodes hshort peek result hpos
  | string begun frame marker mode t tokens kind part noOpen noClose =>
    exact tied_string h hmodes marker mode tokens kind part noOpen noClose hpos hallowed

end

/-! ## Runs -/

section
variable [CharTables] {src : List Char} {fileIndex : ℕ} {unicodeEscapesRaw : Bool} {s : Lexer}
  {modes : List Mode}

/-- The states that a run reaches within the text, with the modes tied to them. -/
theorem Reaches.tied (hsrc : byteLength src < 2 ^ 32)
    (h : Reaches HoleAllowed src fileIndex unicodeEscapesRaw s modes) :
    s.Good ∧ Tied s.pos s.braceDepth s.interpStack modes := by
  induction h with
  | start => exact ⟨Lexer.good_start hsrc fileIndex unicodeEscapesRaw, .nil _⟩
  | turn s s' modes before next meets ih =>
    obtain ⟨hgood, htied⟩ := ih
    obtain ⟨hdone, -⟩ | ⟨result, hnext, hscans, -⟩ := s.tokenizeBody_turn
    · rw [hdone] at next
      cases next
    · rw [hnext] at next
      obtain ⟨s'', hs'', heq⟩ := Option.map_eq_some_iff.mp next
      cases heq
      obtain ⟨hgood', -, new, -, hplaced⟩ := (hscans s' hs'').good hgood
      have hpos : s.pos ≤ s'.pos := hplaced.le
      have hshort : s.pos < 2 ^ 32 := Nat.lt_of_le_of_lt hgood.boundary.le hgood.short
      refine ⟨hgood', ?_⟩
      unfold Lexer.tokenizeBody at hnext
      by_cases hpart : s.inStringPart = true
      · rw [if_pos hpart] at hnext
        have hhead := htied.inStringPart_iff.mp hpart
        have hstack : s.interpStack ≠ [] := by
          intro hnil
          rw [Lexer.inStringPart, hnil] at hpart
          exact Bool.false_ne_true hpart
        have hend : s.PartEnd s' := by
          obtain ⟨s₁, hs₁, heq⟩ := Option.map_eq_some_iff.mp (hnext.trans next)
          cases heq
          exact Lexer.lexInterpString_mode hstack hs₁
        cases modes with
        | nil => cases hhead
        | cons mode outer =>
          cases hhead
          exact tied_part htied hend hpos meets
      · have hhead : modes.head? ≠ some .part := fun h => hpart (htied.inStringPart_iff.mpr h)
        rw [if_neg hpart] at hnext
        split at hnext
        · cases hnext.trans next
        · next hrest =>
          obtain ⟨c, cs, hcons⟩ := List.exists_cons_of_ne_nil hrest
          have hpeek : s.peek = some c := by rw [Lexer.peek, hcons, List.head?_cons]
          obtain ⟨s₁, hs₁, heq⟩ := Option.map_eq_some_iff.mp (hnext.trans next)
          cases heq
          exact tied_ordinary htied hhead (Lexer.lexNormal_ordinary hgood hpeek s' hs₁) hshort hpos
            meets

/-- The state and the modes after some turns, if all are allowed. -/
def follow (allowed : Lexer → Lexer → Prop) [DecidableRel allowed] :
    ℕ → Lexer → List Mode → Option (Lexer × List Mode)
  | 0, s, modes => some (s, modes)
  | n + 1, s, modes =>
    match s.tokenizeBody with
    | some (.next s') =>
      if allowed s s' then follow allowed n s' (nextModes s s' modes) else none
    | _ => none

theorem Reaches.follow {allowed : Lexer → Lexer → Prop} [DecidableRel allowed] {n : ℕ} {s' : Lexer}
    {modes' : List Mode} (hs : Reaches allowed src fileIndex unicodeEscapesRaw s modes)
    (h : follow allowed n s modes = some (s', modes')) :
    Reaches allowed src fileIndex unicodeEscapesRaw s' modes' := by
  induction n generalizing s modes with
  | zero =>
    cases h
    exact hs
  | succ n ih =>
    rw [Lexing.follow] at h
    split at h
    · next s₁ hs₁ =>
      by_cases hallowed : allowed s s₁
      · rw [if_pos hallowed] at h
        exact ih (.turn s s₁ modes hs hs₁ hallowed) h
      · rw [if_neg hallowed] at h
        cases h
    · cases h

/-- In a text of fewer than 2^32 bytes whose holes all open at a depth that is not negative, the
lexer reads a literal part exactly where the braces say so: a hole is lexed as ordinary tokens up
to the brace that matches the one which opened it. -/
theorem holes_correct (hsrc : byteLength src < 2 ^ 32)
    (h : Reaches HoleAllowed src fileIndex unicodeEscapesRaw s modes) :
    s.inStringPart = true ↔ modes.head? = some .part :=
  (h.tied hsrc).2.inStringPart_iff

end

instance : DecidableRel HoleAllowed := fun s s' =>
  inferInstanceAs (Decidable (s.opensHole s' = true → (s.braceDepth + 1).slt 0 = false))

/-- `s"${x}"` up to the end of the hole. -/
theorem holes_correct_one : ∃ s modes,
    byteLength "s\"$\x7bx\x7d\"".toList < 2 ^ 32 ∧
    @Reaches asciiTables HoleAllowed "s\"$\x7bx\x7d\"".toList 0 false s modes ∧
    modes = [.part] ∧ (s.inStringPart = true ↔ modes.head? = some .part) := by
  have hrun : ((@follow asciiTables HoleAllowed _ 3
      (Lexer.start "s\"$\x7bx\x7d\"".toList 0 false) []).map Prod.snd) = some [.part] := by
    decide
  obtain ⟨⟨s, modes⟩, hfollow, hmodes⟩ := Option.map_eq_some_iff.mp hrun
  have hreaches := @Reaches.follow asciiTables _ _ _ _ _ _ _ _ _ _
    (@Reaches.start asciiTables _ _ _ _) hfollow
  have hshort : byteLength "s\"$\x7bx\x7d\"".toList < 2 ^ 32 := by decide
  exact ⟨s, modes, hshort, hreaches, hmodes, @holes_correct asciiTables _ _ _ _ _ hshort hreaches⟩

/-- In `}} s"${x}"` the hole is read as a literal part. -/
theorem hole_below_zero : ¬ ∀ src s modes, byteLength src < 2 ^ 32 →
    @Reaches asciiTables (fun _ _ => True) src 0 false s modes →
      (s.inStringPart = true ↔ modes.head? = some .part) := by
  intro h
  have hrun : ((@follow asciiTables (fun _ _ => True) _ 4
      (Lexer.start "\x7d\x7d s\"$\x7bx\x7d\"".toList 0 false) []).map
        fun r => (r.1.inStringPart, r.2)) = some (true, [.hole 0]) := by
    decide
  obtain ⟨⟨s, modes⟩, hfollow, heq⟩ := Option.map_eq_some_iff.mp hrun
  have hreaches := @Reaches.follow asciiTables _ _ _ _ _ _ _ _ _ _
    (@Reaches.start asciiTables _ _ _ _) hfollow
  obtain ⟨hpart, hmodes⟩ := Prod.mk.inj heq
  have hhead := (h _ s modes (by decide) hreaches).mp hpart
  have heq : modes = [.hole 0] := hmodes
  rw [heq] at hhead
  cases hhead

end ScalaRs.Lexing
