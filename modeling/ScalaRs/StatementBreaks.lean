import Mathlib.Data.List.DropRight
import ScalaRs.LexerPasses

/-! # Which line breaks separate statements -/
namespace ScalaRs.Lexing

/-! ## Brackets -/

def opens : TokenKind → Option Region
  | .lParen => some .paren
  | .lBracket => some .bracket
  | .lBrace => some .brace
  | _ => none

def closes : TokenKind → Option Region
  | .rParen => some .paren
  | .rBracket => some .bracket
  | .rBrace => some .brace
  | _ => none

/-- The brackets are properly nested. -/
inductive Balanced : List Token → Prop
  | nil : Balanced []
  | other (t : Token) (ts : List Token) (opens : opens t.kind = none) (closes : closes t.kind = none)
      (rest : Balanced ts) : Balanced (t :: ts)
  | group (o : Token) (inner : List Token) (c : Token) (ts : List Token) (r : Region)
      (opens : opens o.kind = some r) (closes : closes c.kind = some r)
      (balanced : Balanced inner) (rest : Balanced ts) : Balanced (o :: (inner ++ c :: ts))

/-- The innermost bracket that tokens leave open. -/
inductive InnermostOpen : List Token → Option Region → Prop
  | top (ts : List Token) (balanced : Balanced ts) : InnermostOpen ts none
  | inside (before : List Token) (o : Token) (ts : List Token) (r : Region)
      (opens : opens o.kind = some r) (balanced : Balanced ts) :
      InnermostOpen (before ++ o :: ts) (some r)

def regionsOf (regions : List Region) (ts : List Token) : List Region :=
  ts.foldl (fun rs t => regionsAfter rs t.kind) regions

theorem regionsAfter_opens {k : TokenKind} {r : Region} (h : opens k = some r)
    (regions : List Region) : regionsAfter regions k = r :: regions := by
  cases k <;> cases h <;> rfl

theorem regionsAfter_closes {k : TokenKind} {r : Region} (h : closes k = some r)
    (regions : List Region) : regionsAfter regions k = regions.tail := by
  cases k <;> cases h <;> rfl

theorem regionsAfter_other {k : TokenKind} (ho : opens k = none) (hc : closes k = none)
    (regions : List Region) : regionsAfter regions k = regions := by
  cases k <;> simp_all [opens, closes, regionsAfter]

theorem Balanced.regionsOf {ts : List Token} (h : Balanced ts) (regions : List Region) :
    regionsOf regions ts = regions := by
  unfold Lexing.regionsOf
  induction h generalizing regions with
  | nil => rfl
  | other t ts ho hc rest ih => rw [List.foldl_cons, regionsAfter_other ho hc, ih]
  | group o inner c ts r ho hc balanced rest ihInner ih =>
    rw [List.foldl_cons, List.foldl_append, List.foldl_cons, regionsAfter_opens ho, ihInner,
      regionsAfter_closes hc, List.tail_cons, ih]

theorem InnermostOpen.head?_regionsOf {ts : List Token} {r : Option Region}
    (h : InnermostOpen ts r) : (regionsOf [] ts).head? = r := by
  cases h with
  | top _ balanced => rw [balanced.regionsOf, List.head?_nil]
  | inside before o ts r ho balanced =>
    have hinner := balanced.regionsOf (r :: regionsOf [] before)
    unfold regionsOf at hinner ⊢
    rw [List.foldl_append, List.foldl_cons, regionsAfter_opens ho, hinner, List.head?_cons]

/-- What stands before does not matter inside a bracket. -/
theorem InnermostOpen.after {ts : List Token} {r : Region} (h : InnermostOpen ts (some r))
    (before : List Token) : InnermostOpen (before ++ ts) (some r) := by
  cases h with
  | inside front o ts r ho balanced =>
    rw [← List.append_assoc]
    exact .inside (before ++ front) o ts r ho balanced

theorem Balanced.innermostOpen {ts : List Token} (h : Balanced ts) {front post : List Token}
    (hts : front ++ post = ts) : ∃ r, InnermostOpen front r := by
  induction h generalizing front post with
  | nil =>
    rw [List.append_eq_nil_iff] at hts
    rw [hts.1]
    exact ⟨none, .top [] .nil⟩
  | other t ts ho hc rest ih =>
    cases front with
    | nil => exact ⟨none, .top [] .nil⟩
    | cons u front =>
      obtain ⟨rfl, hrest⟩ := List.cons_eq_cons.mp hts
      obtain ⟨r, hr⟩ := ih hrest
      cases hr with
      | top _ hbalanced => exact ⟨none, .top _ (.other u front ho hc hbalanced)⟩
      | inside before o ts r hopen hbalanced =>
        exact ⟨some r, (InnermostOpen.inside before o ts r hopen hbalanced).after [u]⟩
  | group o inner c ts r ho hc balanced rest ihInner ih =>
    cases front with
    | nil => exact ⟨none, .top [] .nil⟩
    | cons u front =>
      obtain ⟨rfl, htail⟩ := List.cons_eq_cons.mp hts
      obtain ⟨later, hinner, -⟩ | ⟨later, rfl, hlater⟩ := List.append_eq_append_iff.mp htail
      · -- the front ends inside the group
        obtain ⟨r', hr⟩ := ihInner hinner.symm
        cases hr with
        | top _ hbalanced => exact ⟨some r, .inside [] u front r ho hbalanced⟩
        | inside before o' ts' r' hopen hbalanced =>
          exact ⟨some r', (InnermostOpen.inside before o' ts' r' hopen hbalanced).after [u]⟩
      · cases later with
        | nil =>
          rw [List.append_nil]
          exact ⟨some r, .inside [] u inner r ho balanced⟩
        | cons d later =>
          obtain ⟨rfl, hrest⟩ := List.cons_eq_cons.mp hlater
          obtain ⟨r', hr⟩ := ih hrest.symm
          cases hr with
          | top _ hbalanced => exact ⟨none, .top _ (.group u inner c later r ho hc balanced hbalanced)⟩
          | inside before o' ts' r' hopen hbalanced =>
            have hafter := (InnermostOpen.inside before o' ts' r' hopen hbalanced).after
              (u :: (inner ++ [c]))
            rw [List.cons_append, List.append_assoc] at hafter
            exact ⟨some r', hafter⟩

/-! ## The line breaks that count -/

/-- Every token with those before and after it. -/
def contexts : List Token → List Token → List (List Token × Token × List Token)
  | _, [] => []
  | before, t :: after => (before, t, after) :: contexts (before ++ [t]) after

/-- A run of line breaks after these tokens separates statements from the next token: it lies
directly in braces or at the top level, after a token that can end a statement and before
one that can begin one. -/
def Separates (before : List Token) (next : Token) : Prop :=
  (InnermostOpen before none ∨ InnermostOpen before (some .brace)) ∧
    (∃ t, before.getLast? = some t ∧ canEndStatement t.kind = true) ∧
    canBeginStatement next.kind = true

open Classical in
/-- What becomes of a token. Of a run of line breaks the first is kept if the run separates;
another token notes whether it comes after a run that does not. -/
noncomputable def survivor (before : List Token) (t : Token) (after : List Token) : Option Token :=
  if t.isNewline then
    if ¬ before.getLast?.any Token.isNewline ∧
        ∃ next, (after.dropWhile Token.isNewline).head? = some next ∧ Separates before next then
      some { t with
        blankLine := t.blankLine || (after.takeWhile Token.isNewline).any Token.blankLine }
    else none
  else
    let dropped := before.rtakeWhile Token.isNewline ≠ [] ∧
      ¬ Separates (before.rdropWhile Token.isNewline) t
    some { t with nlBefore := t.nlBefore || decide dropped }

noncomputable def survivors (before ts : List Token) : List Token :=
  (contexts before ts).filterMap fun c => survivor c.1 c.2.1 c.2.2

@[simp] theorem survivors_nil (before : List Token) : survivors before [] = [] := rfl

theorem survivors_cons (before : List Token) (t : Token) (ts : List Token) :
    survivors before (t :: ts) = (survivor before t ts).toList ++ survivors (before ++ [t]) ts := by
  unfold survivors
  rw [contexts, List.filterMap_cons]
  cases survivor before t ts <;> rfl

/-- The other breaks of a run are dropped. -/
theorem survivors_breaks {before breaks : List Token} (h : before.getLast?.any Token.isNewline)
    (hbreaks : ∀ t ∈ breaks, t.isNewline) (ts : List Token) :
    survivors before (breaks ++ ts) = survivors (before ++ breaks) ts := by
  induction breaks generalizing before with
  | nil => rw [List.nil_append, List.append_nil]
  | cons t breaks ih =>
    have ht := hbreaks t List.mem_cons_self
    have hnone : survivor before t (breaks ++ ts) = none := by
      rw [survivor, if_pos ht, if_neg]
      exact fun hkept => hkept.1 h
    rw [List.cons_append, survivors_cons, hnone, Option.toList_none, List.nil_append,
      ih (by simpa using ht) fun u hu => hbreaks u (List.mem_cons_of_mem t hu),
      List.append_assoc, List.singleton_append]

/-! ## What the loop puts out -/

/-- The tokens do not end in a line break. -/
def EndsInToken (before : List Token) : Prop := before.getLast?.any Token.isNewline = false

theorem endsInToken_concat {t : Token} (ht : t.isNewline = false) (before : List Token) :
    EndsInToken (before ++ [t]) := by
  rw [EndsInToken, List.getLast?_concat]
  exact ht

theorem EndsInToken.rtakeWhile {before : List Token} (h : EndsInToken before)
    {breaks : List Token} (hbreaks : ∀ t ∈ breaks, t.isNewline) :
    (before ++ breaks).rtakeWhile Token.isNewline = breaks ∧
      (before ++ breaks).rdropWhile Token.isNewline = before := by
  induction breaks using List.reverseRecOn with
  | nil =>
    rw [List.append_nil]
    cases before using List.reverseRecOn with
    | nil => exact ⟨rfl, rfl⟩
    | append_singleton before t =>
      rw [EndsInToken, List.getLast?_concat] at h
      have ht : ¬ t.isNewline = true := by
        rw [Bool.not_eq_true]
        exact h
      rw [List.rtakeWhile_concat_neg _ _ _ ht, List.rdropWhile_concat_neg _ _ _ ht]
      exact ⟨rfl, rfl⟩
  | append_singleton breaks t ih =>
    obtain ⟨htake, hdrop⟩ := ih fun u hu => hbreaks u (List.mem_append_left _ hu)
    have ht : t.isNewline = true := hbreaks t (List.mem_append_right _ List.mem_cons_self)
    rw [← List.append_assoc, List.rtakeWhile_concat_pos _ _ _ ht,
      List.rdropWhile_concat_pos _ _ _ ht, htake, hdrop]
    exact ⟨rfl, rfl⟩

theorem survivor_token {before : List Token} {t : Token} (h : EndsInToken before)
    (ht : t.isNewline = false) (after : List Token) : survivor before t after = some t := by
  have htake := (h.rtakeWhile (by simp : ∀ t ∈ ([] : List Token), t.isNewline)).1
  rw [List.append_nil] at htake
  rw [survivor, ht, if_neg Bool.false_ne_true, htake]
  simp

theorem survivor_break {before : List Token} {t next : Token} {breaks : List Token}
    (h : EndsInToken before) (ht : t.isNewline) (hbreaks : ∀ t ∈ breaks, t.isNewline)
    (hnext : next.isNewline = false) (rest : List Token) [Decidable (Separates before next)] :
    survivor before t (breaks ++ next :: rest) =
      if Separates before next then
        some { t with blankLine := (t :: breaks).any Token.blankLine }
      else none := by
  have htake : (breaks ++ next :: rest).takeWhile Token.isNewline = breaks := by
    rw [List.takeWhile_append_of_pos hbreaks, List.takeWhile_cons_of_neg (by simp [hnext]),
      List.append_nil]
  have hdrop : (breaks ++ next :: rest).dropWhile Token.isNewline = next :: rest := by
    rw [List.dropWhile_append_of_pos hbreaks, List.dropWhile_cons_of_neg (by simp [hnext])]
  rw [survivor, if_pos ht, htake, hdrop]
  rw [EndsInToken] at h
  simp [h]

theorem survivor_after_breaks {before : List Token} {t next : Token} {breaks : List Token}
    (h : EndsInToken before) (hbreaks : ∀ u ∈ t :: breaks, u.isNewline)
    (hnext : next.isNewline = false) (rest : List Token) [Decidable (Separates before next)] :
    survivor (before ++ t :: breaks) next rest =
      some { next with nlBefore := next.nlBefore || !decide (Separates before next) } := by
  obtain ⟨htake, hdrop⟩ := h.rtakeWhile hbreaks
  rw [survivor, hnext, if_neg Bool.false_ne_true, htake, hdrop]
  simp

/-- The loop's test, and what it looks at. -/
theorem separates_iff {before out : List Token} {next : Token} {r : Option Region}
    (hr : InnermostOpen before r)
    (hlast : (out.find? fun t => !t.isNewline).map Token.kind = before.getLast?.map Token.kind) :
    Separates before next ↔
      ¬((regionsOf [] before).head? = some .paren ∨ (regionsOf [] before).head? = some .bracket) ∧
      (out.find? fun t => !t.isNewline).any (canEndStatement ·.kind) = true ∧
      canBeginStatement next.kind = true := by
  have hregion : InnermostOpen before none ∨ InnermostOpen before (some .brace) ↔
      ¬((regionsOf [] before).head? = some .paren ∨ (regionsOf [] before).head? = some .bracket) := by
    rw [hr.head?_regionsOf]
    constructor
    · intro hbraces
      have hhead : r = none ∨ r = some .brace := by
        rw [← hr.head?_regionsOf]
        exact hbraces.imp InnermostOpen.head?_regionsOf InnermostOpen.head?_regionsOf
      cases hhead with
      | inl h => simp [h]
      | inr h => simp [h]
    · intro hnot
      match r, hr with
      | none, hr => exact .inl hr
      | some .brace, hr => exact .inr hr
      | some .paren, _ => exact absurd (.inl rfl) hnot
      | some .bracket, _ => exact absurd (.inr rfl) hnot
  have hends : (∃ t, before.getLast? = some t ∧ canEndStatement t.kind = true) ↔
      (out.find? fun t => !t.isNewline).any (canEndStatement ·.kind) = true := by
    have hany : ∀ o : Option Token, o.any (canEndStatement ·.kind) =
        (o.map Token.kind).any canEndStatement := by
      intro o
      cases o <;> rfl
    rw [hany, hlast, ← hany]
    cases before.getLast? with
    | none => simp
    | some t => simp
  unfold Separates
  rw [hregion, hends]

theorem dropNewlinesLoop_token {t : Token} (ht : t.isNewline = false) (fuel : ℕ) (ts : List Token)
    (regions : List Region) (out : List Token) :
    dropNewlinesLoop (fuel + 1) (t :: ts) regions out =
      dropNewlinesLoop fuel ts (regionsAfter regions t.kind) (t :: out) := by
  rw [dropNewlinesLoop, ht]
  rfl

theorem dropNewlinesLoop_breaks {t next : Token} {breaks : List Token}
    (hbreaks : ∀ u ∈ t :: breaks, u.isNewline) (hnext : next.isNewline = false) (fuel : ℕ)
    (rest : List Token) (regions : List Region) (out : List Token) {separates : Prop}
    [Decidable separates]
    (hsep : separates ↔ ¬(regions.head? = some .paren ∨ regions.head? = some .bracket) ∧
      (out.find? fun t => !t.isNewline).any (canEndStatement ·.kind) = true ∧
      canBeginStatement next.kind = true) :
    dropNewlinesLoop (fuel + 1) (t :: (breaks ++ next :: rest)) regions out =
      if separates then
        dropNewlinesLoop fuel (next :: rest) regions
          ({ t with blankLine := (t :: breaks).any Token.blankLine } :: out)
      else
        dropNewlinesLoop fuel rest (regionsAfter regions next.kind)
          ({ next with nlBefore := true } :: out) := by
  have ht : t.isNewline = true := hbreaks t List.mem_cons_self
  have hkind : regionsAfter regions t.kind = regions := by
    rw [of_decide_eq_true ht]
    rfl
  have htake : (t :: (breaks ++ next :: rest)).takeWhile Token.isNewline = t :: breaks := by
    rw [← List.cons_append, List.takeWhile_append_of_pos hbreaks,
      List.takeWhile_cons_of_neg (by simp [hnext]), List.append_nil]
  have hdrop : (t :: (breaks ++ next :: rest)).dropWhile Token.isNewline = next :: rest := by
    rw [← List.cons_append, List.dropWhile_append_of_pos hbreaks,
      List.dropWhile_cons_of_neg (by simp [hnext])]
  rw [dropNewlinesLoop, ht, hkind, htake, hdrop]
  simp only [Bool.not_true, Bool.false_eq_true, if_false]
  by_cases hregion : regions.head? = some .paren ∨ regions.head? = some .bracket
  · have hnot : ¬ separates := fun h => (hsep.mp h).1 hregion
    rw [if_pos hregion, if_neg hnot]
  · rw [if_neg hregion]
    have hrest : separates ↔ (out.find? fun t => !t.isNewline).any (canEndStatement ·.kind) = true ∧
        canBeginStatement next.kind = true := by
      rw [hsep]
      exact and_iff_right hregion
    simp only [← hrest]

/-- Line breaks before the end are followed by another token. -/
theorem exists_after_breaks {ts : List Token} (h : ts.getLast?.any Token.isNewline = false)
    (hne : ts ≠ []) : ∃ breaks next rest, ts = breaks ++ next :: rest ∧
      (∀ t ∈ breaks, t.isNewline) ∧ next.isNewline = false := by
  induction ts with
  | nil => exact absurd rfl hne
  | cons t ts ih =>
    cases ht : t.isNewline with
    | false => exact ⟨[], t, ts, rfl, by simp, ht⟩
    | true =>
      cases ts with
      | nil => simp [ht] at h
      | cons u ts =>
        obtain ⟨breaks, next, rest, heq, hbreaks, hnext⟩ := ih (by simpa using h) (by simp)
        refine ⟨t :: breaks, next, rest, by rw [heq, List.cons_append], ?_, hnext⟩
        intro v hv
        cases List.mem_cons.mp hv with
        | inl h => exact h ▸ ht
        | inr h => exact hbreaks v h

theorem regionsOf_concat (before : List Token) (t : Token) :
    regionsOf [] (before ++ [t]) = regionsAfter (regionsOf [] before) t.kind := by
  unfold regionsOf
  rw [List.foldl_append, List.foldl_cons, List.foldl_nil]

theorem regionsOf_breaks {breaks : List Token} (h : ∀ t ∈ breaks, t.isNewline)
    (before : List Token) : regionsOf [] (before ++ breaks) = regionsOf [] before := by
  induction breaks using List.reverseRecOn with
  | nil => rw [List.append_nil]
  | append_singleton breaks t ih =>
    have ht := h t (List.mem_append_right _ List.mem_cons_self)
    rw [← List.append_assoc, regionsOf_concat, of_decide_eq_true ht,
      ih fun u hu => h u (List.mem_append_left _ hu)]
    rfl

open Classical in
theorem dropNewlinesLoop_eq (fuel : ℕ) (ts before out : List Token) (hfuel : ts.length ≤ fuel)
    (hbalanced : Balanced (before ++ ts)) (hbefore : EndsInToken before)
    (hlast : (out.find? fun t => !t.isNewline).map Token.kind = before.getLast?.map Token.kind)
    (heof : ts.getLast?.any Token.isNewline = false) :
    dropNewlinesLoop fuel ts (regionsOf [] before) out = out.reverse ++ survivors before ts := by
  induction fuel using Nat.strong_induction_on generalizing ts before out with
  | h fuel ih =>
    cases ts with
    | nil =>
      rw [survivors_nil, List.append_nil]
      cases fuel <;> rfl
    | cons t ts =>
      obtain ⟨fuel, rfl⟩ : ∃ n, fuel = n + 1 := ⟨fuel - 1, by simp at hfuel; omega⟩
      obtain ⟨r, hr⟩ := hbalanced.innermostOpen rfl
      -- what follows a token that is put out, whether or not breaks were dropped before it
      have hrest : ∀ (fuel' : ℕ) (before' : List Token) (next next' : Token) (rest out' : List Token),
          fuel' < fuel + 1 → rest.length ≤ fuel' → before' ++ next :: rest = before ++ t :: ts →
          next.isNewline = false → next'.kind = next.kind →
          (next :: rest).getLast?.any Token.isNewline = false →
          dropNewlinesLoop fuel' rest (regionsAfter (regionsOf [] before') next.kind) (next' :: out') =
            out'.reverse ++ next' :: survivors (before' ++ [next]) rest := by
        intro fuel' before' next next' rest out' hlt hlen heq hnext hkind hend
        rw [← regionsOf_concat, ih fuel' hlt rest (before' ++ [next]) (next' :: out') hlen]
        · rw [List.reverse_cons, List.append_assoc, List.singleton_append]
        · rw [List.append_assoc, List.singleton_append, heq]
          exact hbalanced
        · exact endsInToken_concat hnext before'
        · have hnext' : next'.isNewline = false := by
            rw [Token.isNewline, hkind]
            exact hnext
          rw [List.find?_cons, hnext', List.getLast?_concat, Option.map_some]
          exact congrArg some hkind
        · cases rest with
          | nil => rfl
          | cons u rest => simpa using hend
      cases ht : t.isNewline with
      | false =>
        rw [dropNewlinesLoop_token ht, survivors_cons, survivor_token hbefore ht]
        exact hrest fuel before t t ts out (by omega) (by simpa using hfuel) rfl ht rfl heof
      | true =>
        have hne : ts ≠ [] := by
          rintro rfl
          simp [ht] at heof
        have hend : ts.getLast?.any Token.isNewline = false := by
          rw [List.getLast?_cons_of_ne_nil hne] at heof
          exact heof
        obtain ⟨breaks, next, rest, rfl, hbreaks, hnext⟩ := exists_after_breaks hend hne
        have hall : ∀ u ∈ t :: breaks, u.isNewline := List.forall_mem_cons.mpr ⟨ht, hbreaks⟩
        have hsurvivors : survivors before (t :: (breaks ++ next :: rest)) =
            (survivor before t (breaks ++ next :: rest)).toList ++
              (survivor (before ++ t :: breaks) next rest).toList ++
              survivors (before ++ t :: breaks ++ [next]) rest := by
          have hlastBreak : (before ++ [t]).getLast?.any Token.isNewline = true := by
            rw [List.getLast?_concat]
            exact ht
          rw [survivors_cons, survivors_breaks hlastBreak hbreaks, List.append_assoc before [t],
            List.singleton_append, survivors_cons, ← List.append_assoc]
        rw [dropNewlinesLoop_breaks hall hnext fuel rest _ out (separates_iff hr hlast), hsurvivors,
          survivor_break hbefore ht hbreaks hnext, survivor_after_breaks hbefore hall hnext]
        have hregions := regionsOf_breaks hall before
        have hlen : rest.length + 2 ≤ fuel + 1 := by
          simp at hfuel
          omega
        have hendNext : (next :: rest).getLast?.any Token.isNewline = false := by
          rw [List.getLast?_append_of_ne_nil _ (List.cons_ne_nil next rest)] at hend
          exact hend
        by_cases hsep : Separates before next
        · obtain ⟨fuel, rfl⟩ : ∃ n, fuel = n + 1 := ⟨fuel - 1, by omega⟩
          rw [if_pos hsep, if_pos hsep, dropNewlinesLoop_token hnext, ← hregions,
            hrest fuel (before ++ t :: breaks) next next rest _ (by omega) (by omega) (by simp) hnext
              rfl hendNext]
          simp [hsep]
        · rw [if_neg hsep, if_neg hsep, ← hregions,
            hrest fuel (before ++ t :: breaks) next { next with nlBefore := true } rest out (by omega)
              (by omega) (by simp) hnext rfl hendNext]
          simp [hsep]

theorem dropNonSeparatingNewlines_eq {tokens : List Token} (hbalanced : Balanced tokens)
    (heof : tokens.getLast?.any Token.isNewline = false) :
    dropNonSeparatingNewlines tokens = survivors [] tokens :=
  dropNewlinesLoop_eq (tokens.length + 1) tokens [] [] (Nat.le_succ _) hbalanced rfl rfl heof

/-! ## A second pass changes nothing -/

/-- Every line break left is between tokens that it separates. -/
inductive Settled : List Region → Option TokenKind → List Token → Prop
  | nil (regions : List Region) (last : Option TokenKind) : Settled regions last []
  | token (regions : List Region) (last : Option TokenKind) (t : Token) (ts : List Token)
      (token : t.isNewline = false)
      (rest : Settled (regionsAfter regions t.kind) (some t.kind) ts) :
      Settled regions last (t :: ts)
  | newline (regions : List Region) (last : Option TokenKind) (t next : Token) (ts : List Token)
      (newline : t.isNewline = true)
      (region : ¬(regions.head? = some .paren ∨ regions.head? = some .bracket))
      (before : last.any canEndStatement = true) (after : canBeginStatement next.kind = true)
      (token : next.isNewline = false)
      (rest : Settled (regionsAfter regions next.kind) (some next.kind) ts) :
      Settled regions last (t :: next :: ts)

/-- The kind of the last token put out, line breaks aside. -/
def lastKind (out : List Token) : Option TokenKind :=
  (out.find? fun t => !t.isNewline).map Token.kind

theorem lastKind_token {t : Token} (ht : t.isNewline = false) (out : List Token) :
    lastKind (t :: out) = some t.kind := by
  rw [lastKind, List.find?_cons, ht]
  rfl

theorem lastKind_newline {t : Token} (ht : t.isNewline = true) (out : List Token) :
    lastKind (t :: out) = lastKind out := by
  rw [lastKind, List.find?_cons, ht]
  rfl

theorem find?_any_canEnd (out : List Token) :
    (out.find? fun t => !t.isNewline).any (canEndStatement ·.kind) =
      (lastKind out).any canEndStatement := by
  rw [lastKind]
  cases out.find? fun t => !t.isNewline <;> rfl

theorem getLast?_tail {t : Token} {ts : List Token}
    (h : (t :: ts).getLast?.any Token.isNewline = false) :
    ts.getLast?.any Token.isNewline = false := by
  cases ts with
  | nil => rfl
  | cons u ts => simpa using h

theorem dropNewlinesLoop_settled (fuel : ℕ) (ts : List Token) (regions : List Region)
    (out : List Token) (hfuel : ts.length ≤ fuel)
    (heof : ts.getLast?.any Token.isNewline = false) :
    ∃ rest, dropNewlinesLoop fuel ts regions out = out.reverse ++ rest ∧
      Settled regions (lastKind out) rest := by
  induction fuel using Nat.strong_induction_on generalizing ts regions out with
  | h fuel ih =>
    -- a token that is put out next
    have hput : ∀ (fuel' : ℕ) (next next' : Token) (ts out : List Token), fuel' < fuel →
        ts.length ≤ fuel' → next.isNewline = false → next'.kind = next.kind →
        ts.getLast?.any Token.isNewline = false → ∃ rest,
          dropNewlinesLoop fuel' ts (regionsAfter regions next.kind) (next' :: out) =
            out.reverse ++ next' :: rest ∧
          Settled (regionsAfter regions next'.kind) (some next'.kind) rest := by
      intro fuel' next next' ts out hlt hlen hnext hkind hend
      have hnext' : next'.isNewline = false := by
        rw [Token.isNewline, hkind]
        exact hnext
      rw [← hkind]
      obtain ⟨rest, heq, hsettled⟩ :=
        ih fuel' hlt ts (regionsAfter regions next'.kind) (next' :: out) hlen hend
      rw [lastKind_token hnext'] at hsettled
      refine ⟨rest, ?_, hsettled⟩
      rw [heq, List.reverse_cons, List.append_assoc, List.singleton_append]
    cases fuel with
    | zero => exact ⟨[], (List.append_nil _).symm, .nil _ _⟩
    | succ fuel =>
      cases ts with
      | nil => exact ⟨[], (List.append_nil _).symm, .nil _ _⟩
      | cons t ts =>
        cases ht : t.isNewline with
        | false =>
          rw [dropNewlinesLoop_token ht]
          obtain ⟨rest, heq, hsettled⟩ := hput fuel t t ts out (by omega) (by simpa using hfuel)
            ht rfl (getLast?_tail heof)
          exact ⟨t :: rest, heq, .token _ _ t rest ht hsettled⟩
        | true =>
          have hne : ts ≠ [] := by
            intro hnil
            rw [hnil] at heof
            simp [ht] at heof
          obtain ⟨breaks, next, rest, rfl, hbreaks, hnext⟩ :=
            exists_after_breaks (getLast?_tail heof) hne
          have hend : rest.getLast?.any Token.isNewline = false := by
            have h := getLast?_tail heof
            rw [List.getLast?_append_of_ne_nil _ (List.cons_ne_nil next rest)] at h
            exact getLast?_tail h
          have hall : ∀ u ∈ t :: breaks, u.isNewline := List.forall_mem_cons.mpr ⟨ht, hbreaks⟩
          have hlen : rest.length + 2 ≤ fuel + 1 := by
            simp at hfuel
            omega
          rw [dropNewlinesLoop_breaks hall hnext fuel rest regions out Iff.rfl]
          split
          · next hsep =>
            rw [find?_any_canEnd] at hsep
            obtain ⟨fuel, rfl⟩ : ∃ n, fuel = n + 1 := ⟨fuel - 1, by omega⟩
            rw [dropNewlinesLoop_token hnext]
            obtain ⟨rest, heq, hsettled⟩ :=
              hput fuel next next rest _ (by omega) (by omega) hnext rfl hend
            rw [heq, List.reverse_cons, List.append_assoc, List.singleton_append]
            exact ⟨_, rfl, .newline _ _ _ next rest ht hsep.1 hsep.2.1 hsep.2.2 hnext hsettled⟩
          · obtain ⟨rest, heq, hsettled⟩ :=
              hput fuel next { next with nlBefore := true } rest out (by omega) (by omega) hnext rfl
                hend
            exact ⟨_, heq, .token _ _ _ rest hnext hsettled⟩

/-- A settled list is left as it is. -/
theorem Settled.dropNewlinesLoop {regions : List Region} {last : Option TokenKind}
    {ts : List Token} (h : Settled regions last ts) {fuel : ℕ} (hfuel : ts.length ≤ fuel)
    {out : List Token} (hlast : lastKind out = last) :
    dropNewlinesLoop fuel ts regions out = out.reverse ++ ts := by
  induction h generalizing fuel out with
  | nil regions last =>
    rw [List.append_nil]
    cases fuel <;> rfl
  | token regions last t ts ht rest ih =>
    obtain ⟨fuel, rfl⟩ : ∃ n, fuel = n + 1 := ⟨fuel - 1, by simp at hfuel; omega⟩
    rw [dropNewlinesLoop_token ht, ih (by simpa using hfuel) (lastKind_token ht out),
      List.reverse_cons, List.append_assoc, List.singleton_append]
  | newline regions last t next ts ht region before after hnext rest ih =>
    obtain ⟨fuel, rfl⟩ : ∃ n, fuel = n + 2 := ⟨fuel - 2, by simp at hfuel; omega⟩
    have hbreaks := dropNewlinesLoop_breaks (by simpa using ht : ∀ u ∈ [t], u.isNewline) hnext
      (fuel + 1) ts regions out Iff.rfl
    have hsep : ¬(regions.head? = some .paren ∨ regions.head? = some .bracket) ∧
        (out.find? fun t => !t.isNewline).any (canEndStatement ·.kind) = true ∧
        canBeginStatement next.kind = true := by
      rw [find?_any_canEnd, hlast]
      exact ⟨region, before, after⟩
    have hkept : { t with blankLine := [t].any Token.blankLine } = t := by simp
    rw [if_pos hsep, hkept, dropNewlinesLoop_token hnext] at hbreaks
    rw [← List.nil_append (next :: ts), hbreaks,
      ih (by simp at hfuel; omega) (lastKind_token hnext _)]
    simp

theorem survivor_toList (before : List Token) (t : Token) (after : List Token) :
    ((survivor before t after).toList.filter fun t => !t.isNewline).map
        (fun t => (t.kind, t.span, t.blankLine)) =
      ([t].filter fun t => !t.isNewline).map (fun t => (t.kind, t.span, t.blankLine)) := by
  cases ht : t.isNewline with
  | false =>
    rw [survivor, ht, if_neg Bool.false_ne_true]
    have hkind : ∀ b : Bool, Token.isNewline { t with nlBefore := b } = false := fun _ => ht
    simp [hkind]
  | true =>
    have hkind : ∀ b : Bool, Token.isNewline { t with blankLine := b } = true := fun _ => ht
    rw [survivor, if_pos ht]
    split
    · simp [hkind]
    · simp [ht]

theorem survivors_filter (before ts : List Token) :
    ((survivors before ts).filter fun t => !t.isNewline).map
        (fun t => (t.kind, t.span, t.blankLine)) =
      (ts.filter fun t => !t.isNewline).map (fun t => (t.kind, t.span, t.blankLine)) := by
  induction ts generalizing before with
  | nil => rfl
  | cons t ts ih =>
    rw [survivors_cons, List.filter_append, List.map_append, survivor_toList, ih, ← List.map_append,
      ← List.filter_append, List.singleton_append]

/-- Of properly nested tokens that end in `eof`, exactly the first break of every run that
separates statements is kept; the other tokens are kept, in order, with their kinds and spans,
and note whether a dropped run precedes them. A second pass changes nothing. -/
theorem dropNonSeparatingNewlines_correct (tokens : List Token) (hbalanced : Balanced tokens)
    (heof : tokens.getLast?.map Token.kind = some .eof) :
    dropNonSeparatingNewlines tokens =
      (contexts [] tokens).filterMap (fun c => survivor c.1 c.2.1 c.2.2) ∧
    ((dropNonSeparatingNewlines tokens).filter fun t => !t.isNewline).map
        (fun t => (t.kind, t.span, t.blankLine)) =
      (tokens.filter fun t => !t.isNewline).map (fun t => (t.kind, t.span, t.blankLine)) ∧
    dropNonSeparatingNewlines (dropNonSeparatingNewlines tokens) =
      dropNonSeparatingNewlines tokens := by
  have hend : tokens.getLast?.any Token.isNewline = false := by
    cases hlast : tokens.getLast? with
    | none => rfl
    | some t =>
      rw [hlast] at heof
      have hkind : t.kind = .eof := Option.some.inj heof
      rw [Option.any_some, Token.isNewline, hkind]
      rfl
  have hsurvivors := dropNonSeparatingNewlines_eq hbalanced hend
  refine ⟨hsurvivors, ?_, ?_⟩
  · rw [hsurvivors]
    exact survivors_filter [] tokens
  · obtain ⟨rest, heq, hsettled⟩ :=
      dropNewlinesLoop_settled (tokens.length + 1) tokens [] [] (Nat.le_succ _) hend
    have hrest : dropNonSeparatingNewlines tokens = rest := heq
    rw [hrest]
    exact hsettled.dropNewlinesLoop (Nat.le_succ _) rfl

/-- `a` and `b` on two lines, then `(c` and `)` on two. -/
theorem dropNonSeparatingNewlines_two_lines :
    let token (k : TokenKind) : Token := ⟨k, ⟨0, 0⟩, false, false⟩
    let tokens := [.ident ['a'], .newline, .ident ['b'], .lParen, .ident ['c'], .newline, .rParen,
      .eof].map token
    (Balanced tokens ∧ tokens.getLast?.map Token.kind = some .eof) ∧
      dropNonSeparatingNewlines tokens =
        (contexts [] tokens).filterMap (fun c => survivor c.1 c.2.1 c.2.2) := by
  intro token tokens
  have hbalanced : Balanced tokens := by
    refine .other _ _ rfl rfl (.other _ _ rfl rfl (.other _ _ rfl rfl ?_))
    refine .group _ [token (.ident ['c']), token .newline] _ _ .paren rfl rfl ?_ ?_
    · exact .other _ _ rfl rfl (.other _ _ rfl rfl .nil)
    · exact .other _ _ rfl rfl .nil
  exact ⟨⟨hbalanced, rfl⟩, (dropNonSeparatingNewlines_correct tokens hbalanced rfl).1⟩

end ScalaRs.Lexing
