import ScalaRs.LexerProgress
import ScalaRs.StatementBreaks

/-! # Spans of the tokens

A text of fewer than 2^32 bytes is cut into tokens that lie in order in it. -/
namespace ScalaRs.Lexing
open WhileLoops

namespace Lexer
variable {s s' : Lexer}

/-- A turn of `tokenize_all` makes the lexer lighter. -/
theorem tokenizeBody_turn [CharTables] (s : Lexer) :
    (tokenizeBody s = some (.done s) ∧ s.rest = []) ∨
    (∃ result, tokenizeBody s = result.map .next ∧ Steps 1 s result) := by
  unfold tokenizeBody
  split
  · next hpart =>
    have hstack : s.interpStack ≠ [] := by
      intro hnil
      rw [inStringPart, hnil] at hpart
      simp at hpart
    exact .inr ⟨_, rfl, steps_lexInterpString hstack⟩
  · split
    · next hrest => exact .inl ⟨rfl, hrest⟩
    · next hrest =>
      obtain ⟨c, hpeek⟩ : ∃ c, s.peek = some c := by
        rw [peek]
        cases hs : s.rest with
        | nil => exact absurd hs hrest
        | cons c cs => exact ⟨c, rfl⟩
      obtain ⟨hscans, hexists⟩ := steps_lexNormal hpeek
      exact .inr ⟨_, rfl, fun s' hs' => (hscans s' hs').lighter (by omega), hexists⟩

/-- What holds of the states of a run that starts at `start`. -/
theorem run_tokenizeBody_scans [CharTables] {fuel : ℕ} (h : run tokenizeBody fuel s = some s') :
    Scans 0 s s' ∧ s'.rest = [] := by
  refine invariant_of_run (I := fun st => Scans 0 s st) (Q := fun st => Scans 0 s st ∧ st.rest = [])
    ?_ ?_ (Skips.refl s).scans h
  · intro st st' hscans hbody
    obtain ⟨hdone, -⟩ | ⟨result, hnext, hresult, -⟩ := tokenizeBody_turn st
    · rw [hdone] at hbody
      cases hbody
    · rw [hnext] at hbody
      obtain ⟨st'', hst, heq⟩ := Option.map_eq_some_iff.mp hbody
      cases heq
      exact (hscans.trans (hresult _ hst)).lighter (Nat.zero_le _)
  · intro st r hscans hbody
    obtain ⟨hdone, hrest⟩ | ⟨result, hnext, -⟩ := tokenizeBody_turn st
    · rw [hdone] at hbody
      cases hbody
      exact ⟨hscans, hrest⟩
    · rw [hnext] at hbody
      obtain ⟨st'', -, heq⟩ := Option.map_eq_some_iff.mp hbody
      cases heq

theorem run_tokenizeBody_exists [CharTables] (hs : Good s) {fuel : ℕ} (hfuel : s.weight < fuel) :
    ∃ s', run tokenizeBody fuel s = some s' := by
  refine run_terminates (I := Good) weight ?_ hs hfuel
  intro st hst
  obtain ⟨hdone, -⟩ | ⟨result, hnext, hscans, hexists⟩ := tokenizeBody_turn st
  · exact ⟨_, hdone, fun st' heq => by cases heq⟩
  · obtain ⟨st', hst'⟩ := hexists hst
    rw [hst'] at hnext
    refine ⟨_, hnext, ?_⟩
    intro st'' heq
    cases heq
    obtain ⟨hgood, hweight, -⟩ := (hscans st' hst').good hst
    exact ⟨hgood, hweight⟩

theorem good_start {src : List Char} (h : byteLength src < 2 ^ 32) (fileIndex : ℕ) (raw : Bool) :
    Good (start src fileIndex raw) := ⟨⟨[], rfl, rfl⟩, h⟩

theorem tokenizeAll_exists [CharTables] {src : List Char} (h : byteLength src < 2 ^ 32)
    (fileIndex : ℕ) (raw : Bool) :
    ∃ fuel s, (start src fileIndex raw).tokenizeAll fuel = some s := by
  obtain ⟨s, hs⟩ := run_tokenizeBody_exists (good_start h fileIndex raw) (Nat.lt_succ_self _)
  refine ⟨(start src fileIndex raw).weight + 1, s.emitFrom (asU32 s.pos) .eof, ?_⟩
  rw [tokenizeAll, hs]
  rfl

end Lexer

/-! ## Tokens in order -/

/-- The tokens lie in a text in order, and `eof` at its end is the last of them. -/
structure WellPlaced (src : List Char) (tokens : List Token) : Prop where
  inside : ∀ t ∈ tokens, IsBoundary src t.span.lo.toNat ∧ IsBoundary src t.span.hi.toNat ∧
    t.span.lo.toNat ≤ t.span.hi.toNat
  inOrder : tokens.Pairwise fun t u => t.span.hi.toNat ≤ u.span.lo.toNat
  eof : ∃ front last, tokens = front ++ [last] ∧ last.kind = .eof ∧
    last.span.lo.toNat = byteLength src ∧ last.span.hi.toNat = byteLength src ∧
    ∀ t ∈ front, t.kind ≠ .eof

theorem Placed.inside {src : List Char} {lo hi : ℕ} {ts : List Token} (h : Placed src lo ts hi) :
    ∀ t ∈ ts, IsBoundary src t.span.lo.toNat ∧ IsBoundary src t.span.hi.toNat ∧
      lo ≤ t.span.lo.toNat ∧ t.span.lo.toNat ≤ t.span.hi.toNat ∧ t.span.hi.toNat ≤ hi ∧
      t.kind ≠ .eof := by
  induction h with
  | nil lo hi le => simp
  | cons lo hi t ts after le start stop kind rest ih =>
    intro u hu
    cases List.mem_cons.mp hu with
    | inl heq =>
      rw [heq]
      exact ⟨start, stop, after, le, rest.le, kind⟩
    | inr hmem =>
      obtain ⟨hlo, hhi, hafter, hle, hbefore, hkind⟩ := ih u hmem
      exact ⟨hlo, hhi, by omega, hle, hbefore, hkind⟩

theorem Placed.pairwise {src : List Char} {lo hi : ℕ} {ts : List Token} (h : Placed src lo ts hi) :
    ts.Pairwise fun t u => t.span.hi.toNat ≤ u.span.lo.toNat := by
  induction h with
  | nil lo hi le => exact .nil
  | cons lo hi t ts after le start stop kind rest ih =>
    exact .cons (fun u hu => (rest.inside u hu).2.2.1) ih

theorem Placed.wellPlaced {src : List Char} {ts : List Token}
    (h : Placed src 0 ts (byteLength src)) {last : Token} (hkind : last.kind = .eof)
    (hlo : last.span.lo.toNat = byteLength src) (hhi : last.span.hi.toNat = byteLength src) :
    WellPlaced src (ts ++ [last]) := by
  have hend : IsBoundary src (byteLength src) := ⟨src, [], (List.append_nil src).symm, rfl⟩
  refine ⟨?_, ?_, ts, last, rfl, hkind, hlo, hhi, fun t ht => (h.inside t ht).2.2.2.2.2⟩
  · intro t ht
    cases List.mem_append.mp ht with
    | inl hmem =>
      obtain ⟨hstart, hstop, -, hle, -⟩ := h.inside t hmem
      exact ⟨hstart, hstop, hle⟩
    | inr hmem =>
      rw [List.mem_singleton.mp hmem, hlo, hhi]
      exact ⟨hend, hend, Nat.le_refl _⟩
  · rw [List.pairwise_append]
    refine ⟨h.pairwise, List.pairwise_singleton _ _, ?_⟩
    intro t ht u hu
    rw [List.mem_singleton.mp hu, hlo]
    exact (h.inside t ht).2.2.2.2.1

theorem tokenizeAll_wellPlaced [CharTables] {src : List Char} (h : byteLength src < 2 ^ 32)
    {fileIndex : ℕ} {raw : Bool} {fuel : ℕ} {s : Lexer}
    (hs : (Lexer.start src fileIndex raw).tokenizeAll fuel = some s) : WellPlaced src s.tokens := by
  rw [Lexer.tokenizeAll] at hs
  obtain ⟨s₁, hrun, rfl⟩ := Option.map_eq_some_iff.mp hs
  obtain ⟨hscans, hrest⟩ := Lexer.run_tokenizeBody_scans hrun
  obtain ⟨hgood, -, new, htokens, hplaced⟩ := hscans.good (Lexer.good_start h fileIndex raw)
  have hpos : s₁.pos = byteLength src := by
    obtain ⟨before, hsrc, hpos⟩ := hgood.before
    rw [hscans.src, hrest, List.append_nil] at hsrc
    have hsame : src = before := hsrc
    rw [hpos, hsame]
  have hend : (asU32 s₁.pos).toNat = byteLength src := by
    rw [hgood.asU32, hpos]
  have hnew : s₁.tokens = new := htokens
  rw [hpos] at hplaced
  change WellPlaced src (s₁.tokens ++ [_])
  rw [hnew]
  exact Placed.wellPlaced hplaced rfl hend hend

/-! ## The passes -/

def kindAndSpan (t : Token) : TokenKind × Span := (t.kind, t.span)

/-- Fewer tokens, in the same order, with the same last one. -/
structure Reduces (ts ts' : List Token) : Prop where
  sublist : (ts'.map kindAndSpan).Sublist (ts.map kindAndSpan)
  last : (ts.getLast?.map kindAndSpan).map Prod.fst = some .eof →
    ts'.getLast?.map kindAndSpan = ts.getLast?.map kindAndSpan

theorem Reduces.refl (ts : List Token) : Reduces ts ts := ⟨.refl _, fun _ => rfl⟩

theorem Reduces.trans {ts ts' ts'' : List Token} (h : Reduces ts ts') (h' : Reduces ts' ts'') :
    Reduces ts ts'' := by
  refine ⟨h'.sublist.trans h.sublist, ?_⟩
  intro heof
  have hlast := h.last heof
  rw [← hlast] at heof
  rw [h'.last heof, hlast]

/-- A token is kept, perhaps with a mark. -/
theorem Reduces.cons {ts ts' : List Token} (h : Reduces ts ts') {t t' : Token}
    (ht : kindAndSpan t' = kindAndSpan t) : Reduces (t :: ts) (t' :: ts') := by
  constructor
  · rw [List.map_cons, List.map_cons, ht]
    exact h.sublist.cons_cons _
  · intro heof
    cases ts with
    | nil =>
      have hnil : ts' = [] := List.map_eq_nil_iff.mp (List.sublist_nil.mp h.sublist)
      rw [hnil]
      exact congrArg some ht
    | cons u ts =>
      rw [List.getLast?_cons_of_ne_nil (List.cons_ne_nil u ts)] at heof ⊢
      have hlast := h.last heof
      cases ts' with
      | nil =>
        rw [← hlast] at heof
        cases heof
      | cons u' ts' =>
        rw [List.getLast?_cons_of_ne_nil (List.cons_ne_nil u' ts')]
        exact hlast

theorem Reduces.drop {ts ts' : List Token} (h : Reduces ts ts') {t : Token} (ht : t.kind ≠ .eof) :
    Reduces (t :: ts) ts' := by
  refine ⟨h.sublist.cons (kindAndSpan t), ?_⟩
  intro heof
  cases ts with
  | nil =>
    have hkind : t.kind = .eof := Option.some.inj heof
    exact absurd hkind ht
  | cons u ts =>
    rw [List.getLast?_cons_of_ne_nil (List.cons_ne_nil u ts)] at heof ⊢
    exact h.last heof

theorem reduces_dropSemiBeforeElse (ts : List Token) : Reduces ts (dropSemiBeforeElse ts) := by
  induction ts with
  | nil => exact .refl []
  | cons t ts ih =>
    rw [dropSemiBeforeElse]
    split
    · next h => exact ih.drop (by simp [h.1])
    · exact ih.cons rfl

theorem reduces_dropTrailingCommas (ts : List Token) : Reduces ts (dropTrailingCommas ts) := by
  induction ts with
  | nil => exact .refl []
  | cons t ts ih =>
    rw [dropTrailingCommas]
    split
    · next h =>
      apply ih.drop
      intro heof
      rw [isTrailingComma, heof] at h
      cases h
    · exact ih.cons rfl

theorem reduces_breaks {breaks : List Token} (h : ∀ t ∈ breaks, t.isNewline) {ts ts' : List Token}
    (hts : Reduces ts ts') : Reduces (breaks ++ ts) ts' := by
  induction breaks with
  | nil => exact hts
  | cons t breaks ih =>
    apply (ih fun u hu => h u (List.mem_cons_of_mem t hu)).drop
    have ht : t.kind = .newline := of_decide_eq_true (h t List.mem_cons_self)
    rw [ht]
    simp

theorem reduces_dropNewlinesLoop (fuel : ℕ) (ts : List Token) (regions : List Region)
    (out : List Token) (hfuel : ts.length ≤ fuel)
    (hend : ts.getLast?.any Token.isNewline = false) :
    ∃ rest, dropNewlinesLoop fuel ts regions out = out.reverse ++ rest ∧ Reduces ts rest := by
  induction fuel using Nat.strong_induction_on generalizing ts regions out with
  | h fuel ih =>
    -- a token that is put out next
    have hput : ∀ (fuel' : ℕ) (next next' : Token) (ts : List Token) (regions : List Region)
        (out : List Token), fuel' < fuel → ts.length ≤ fuel' →
        kindAndSpan next' = kindAndSpan next → ts.getLast?.any Token.isNewline = false →
        ∃ rest, dropNewlinesLoop fuel' ts regions (next' :: out) = out.reverse ++ rest ∧
          Reduces (next :: ts) rest := by
      intro fuel' next next' ts regions out hlt hlen hkind hend
      obtain ⟨rest, heq, hreduces⟩ := ih fuel' hlt ts regions (next' :: out) hlen hend
      refine ⟨next' :: rest, ?_, hreduces.cons hkind⟩
      rw [heq, List.reverse_cons, List.append_assoc, List.singleton_append]
    cases ts with
    | nil =>
      refine ⟨[], ?_, .refl []⟩
      rw [List.append_nil]
      cases fuel <;> rfl
    | cons t ts =>
      obtain ⟨fuel, rfl⟩ : ∃ n, fuel = n + 1 := ⟨fuel - 1, by simp at hfuel; omega⟩
      cases ht : t.isNewline with
      | false =>
        rw [dropNewlinesLoop_token ht]
        exact hput fuel t t ts _ out (by omega) (by simpa using hfuel) rfl (getLast?_tail hend)
      | true =>
        have hne : ts ≠ [] := by
          intro hnil
          rw [hnil] at hend
          simp [ht] at hend
        obtain ⟨breaks, next, rest, rfl, hbreaks, hnext⟩ :=
          exists_after_breaks (getLast?_tail hend) hne
        have hrest : rest.getLast?.any Token.isNewline = false := by
          have h := getLast?_tail hend
          rw [List.getLast?_append_of_ne_nil _ (List.cons_ne_nil next rest)] at h
          exact getLast?_tail h
        have hall : ∀ u ∈ t :: breaks, u.isNewline := List.forall_mem_cons.mpr ⟨ht, hbreaks⟩
        have hlen : rest.length + 2 ≤ fuel + 1 := by
          simp at hfuel
          omega
        rw [dropNewlinesLoop_breaks hall hnext fuel rest regions out Iff.rfl]
        split
        · obtain ⟨fuel, rfl⟩ : ∃ n, fuel = n + 1 := ⟨fuel - 1, by omega⟩
          rw [dropNewlinesLoop_token hnext]
          obtain ⟨out', heq, hreduces⟩ := hput fuel next next rest
            (regionsAfter regions next.kind)
            ({ t with blankLine := (t :: breaks).any Token.blankLine } :: out) (by omega) (by omega)
            rfl hrest
          refine ⟨{ t with blankLine := (t :: breaks).any Token.blankLine } :: out', ?_, ?_⟩
          · rw [heq, List.reverse_cons, List.append_assoc, List.singleton_append]
          · exact (reduces_breaks hbreaks hreduces).cons rfl
        · obtain ⟨out', heq, hreduces⟩ := hput fuel next { next with nlBefore := true } rest _ out
            (by omega) (by omega) rfl hrest
          exact ⟨out', heq, reduces_breaks hall hreduces⟩

theorem reduces_postProcess {ts : List Token} (h : ts.getLast?.map Token.kind = some .eof) :
    Reduces ts (postProcess ts) := by
  have hsemi := reduces_dropSemiBeforeElse ts
  have hend : (dropSemiBeforeElse ts).getLast?.any Token.isNewline = false := by
    have hkind : ∀ o : Option Token, (o.map kindAndSpan).map Prod.fst = o.map Token.kind := by
      intro o
      cases o <;> rfl
    have hlast := congrArg (Option.map Prod.fst) (hsemi.last ((hkind _).trans h))
    rw [hkind, hkind, h] at hlast
    cases hlast' : (dropSemiBeforeElse ts).getLast? with
    | none => rfl
    | some t =>
      rw [hlast'] at hlast
      have ht : t.kind = .eof := Option.some.inj hlast
      rw [Option.any_some, Token.isNewline, ht]
      rfl
  obtain ⟨rest, heq, hreduces⟩ := reduces_dropNewlinesLoop ((dropSemiBeforeElse ts).length + 1)
    (dropSemiBeforeElse ts) [] [] (Nat.le_succ _) hend
  have hrest : dropNonSeparatingNewlines (dropSemiBeforeElse ts) = rest := heq
  rw [postProcess, hrest]
  exact (hsemi.trans hreduces).trans (reduces_dropTrailingCommas rest)

theorem WellPlaced.reduces {src : List Char} {ts ts' : List Token} (h : WellPlaced src ts)
    (hts : Reduces ts ts') : WellPlaced src ts' := by
  constructor
  · intro t' ht'
    have hin := hts.sublist.subset (List.mem_map_of_mem (f := kindAndSpan) ht')
    obtain ⟨t, ht, heq⟩ := List.mem_map.mp hin
    have hspan : t.span = t'.span := congrArg Prod.snd heq
    rw [← hspan]
    exact h.inside t ht
  · have horder : (ts.map kindAndSpan).Pairwise fun p q => p.2.hi.toNat ≤ q.2.lo.toNat :=
      List.pairwise_map.mpr h.inOrder
    exact List.pairwise_map.mp (horder.sublist hts.sublist)
  · obtain ⟨front, last, rfl, hkind, hlo, hhi, hfront⟩ := h.eof
    have hlast := hts.last (by rw [List.getLast?_concat]; exact congrArg some hkind)
    rw [List.getLast?_concat] at hlast
    obtain ⟨last', hlast', heq⟩ := Option.map_eq_some_iff.mp hlast
    obtain ⟨front', rfl⟩ := List.getLast?_eq_some_iff.mp hlast'
    have hspan : last'.span = last.span := congrArg Prod.snd heq
    refine ⟨front', last', rfl, (congrArg Prod.fst heq).trans hkind, ?_, ?_, ?_⟩
    · rw [hspan]
      exact hlo
    · rw [hspan]
      exact hhi
    · intro t ht
      have hsub := hts.sublist
      rw [List.map_append, List.map_append, List.map_singleton, List.map_singleton, heq,
        List.append_sublist_append_right] at hsub
      obtain ⟨u, hu, hsame⟩ := List.mem_map.mp
        (hsub.subset (List.mem_map_of_mem (f := kindAndSpan) ht))
      have hsameKind : u.kind = t.kind := congrArg Prod.fst hsame
      rw [← hsameKind]
      exact hfront u hu

/-! ## The result -/

/-- Some run of the lexer ends, and every run that ends puts out tokens in order. -/
def Tokenizes [CharTables] (src : List Char) (fileIndex : ℕ) (unicodeEscapesRaw : Bool) : Prop :=
  (∃ fuel result, tokenizeOpts fuel src fileIndex unicodeEscapesRaw = some result) ∧
    ∀ fuel tokens diags, tokenizeOpts fuel src fileIndex unicodeEscapesRaw = some (tokens, diags) →
      WellPlaced src tokens

/-- The span of `eof` is that of a text whose length is a number of 32 bits. -/
theorem Tokenizes.short [CharTables] {src : List Char} {fileIndex : ℕ} {raw : Bool}
    (h : Tokenizes src fileIndex raw) : byteLength src < 2 ^ 32 := by
  obtain ⟨⟨fuel, ⟨tokens, diags⟩, hresult⟩, hplaced⟩ := h
  obtain ⟨front, last, -, -, -, hhi, -⟩ := (hplaced fuel tokens diags hresult).eof
  rw [← hhi]
  exact last.span.hi.toNat_lt

theorem WellPlaced.last {src : List Char} {ts : List Token} (h : WellPlaced src ts) :
    ts.getLast?.map Token.kind = some .eof := by
  obtain ⟨front, last, rfl, hkind, -⟩ := h.eof
  rw [List.getLast?_concat]
  exact congrArg some hkind

/-- Exactly the texts of fewer than 2^32 bytes are cut into tokens that lie in order inside
them, on character boundaries, with one `eof` at the end. -/
theorem tokenizes_iff [CharTables] (src : List Char) (fileIndex : ℕ) (unicodeEscapesRaw : Bool) :
    Tokenizes src fileIndex unicodeEscapesRaw ↔ byteLength src < 2 ^ 32 := by
  constructor
  · exact Tokenizes.short
  · intro h
    constructor
    · obtain ⟨fuel, s, hs⟩ := Lexer.tokenizeAll_exists h fileIndex unicodeEscapesRaw
      exact ⟨fuel, _, Option.map_eq_some_iff.mpr ⟨s, hs, rfl⟩⟩
    · intro fuel tokens diags hresult
      obtain ⟨s, hs, heq⟩ := Option.map_eq_some_iff.mp hresult
      have hplaced := tokenizeAll_wellPlaced h hs
      have htokens : postProcess s.tokens = tokens := congrArg Prod.fst heq
      rw [← htokens]
      exact hplaced.reduces (reduces_postProcess hplaced.last)

theorem byteLength_replicate (n : ℕ) (c : Char) :
    byteLength (List.replicate n c) = n * c.utf8Size := by
  induction n with
  | zero => rw [List.replicate_zero, byteLength_nil, Nat.zero_mul]
  | succ n ih => rw [List.replicate_succ, byteLength_cons, ih, Nat.succ_mul, Nat.add_comm]

/-- The positions in 2^32 spaces do not fit in the spans. -/
theorem tokenizes_spaces :
    ¬ @Tokenizes asciiTables (List.replicate (2 ^ 32) ' ') 0 false := by
  intro h
  have hshort := @Tokenizes.short asciiTables _ _ _ h
  have hlength : byteLength (List.replicate (2 ^ 32) ' ') = 2 ^ 32 := by
    rw [byteLength_replicate]
    exact Nat.mul_one _
  rw [hlength] at hshort
  exact Nat.lt_irrefl _ hshort

end ScalaRs.Lexing
