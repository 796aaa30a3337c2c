import ScalaRs.SexpWire

/-! # The texts of the wire format

What a text reads as, without a cursor, a stack or a table. Both parsers are
compared with this relation. -/
namespace ScalaRs.Wire
open CodeUnits

section Grammar

variable {U : Type} [CodeUnit U]

/-- What a quoted string says, and the text after it. -/
def readStr : List U → Option (List U × List U)
  | [] => none
  | c :: s =>
    if code c = 34 then some ([], s)
    else if code c ≠ 92 then (readStr s).map fun r => (c :: r.1, r.2)
    else match s with
      | [] => none
      | e :: s => (unescape e).bind fun u => (readStr s).map fun r => (u :: r.1, r.2)

@[simp]
theorem readStr_nil : readStr ([] : List U) = none := by rw [readStr]

theorem readStr_quote {c : U} {s : List U} (hc : code c = 34) : readStr (c :: s) = some ([], s) := by
  rw [readStr.eq_def]
  simp only [if_pos hc]

theorem readStr_plain {c : U} {s : List U} (hc : code c ≠ 34) (hb : code c ≠ 92) :
    readStr (c :: s) = (readStr s).map fun r => (c :: r.1, r.2) := by
  rw [readStr.eq_def]
  simp only [if_neg hc, if_pos hb]

theorem readStr_escape_nil {c : U} (hb : code c = 92) : readStr [c] = none := by
  rw [readStr.eq_def]
  simp only [if_neg (show code c ≠ 34 by omega), if_neg (show ¬ code c ≠ 92 by omega)]

theorem readStr_escape {c e : U} {s : List U} (hb : code c = 92) : readStr (c :: e :: s) =
    (unescape e).bind fun u => (readStr s).map fun r => (u :: r.1, r.2) := by
  rw [readStr.eq_def]
  simp only [if_neg (show code c ≠ 34 by omega), if_neg (show ¬ code c ≠ 92 by omega)]

mutual
/-- The text before the rest reads as an item in a list `depth` deep. -/
inductive Reads (maxDepth : ℕ) : List U → ℕ → Sexp U → List U → Prop
  | atom {s depth c rest} (hs : skipSpaces s = c :: rest) (hc : inAtom c) (hq : code c ≠ 34) :
    Reads maxDepth s depth (.atom ((c :: rest).takeWhile inAtom)) ((c :: rest).dropWhile inAtom)
  | str {s depth c rest content after} (hs : skipSpaces s = c :: rest) (hq : code c = 34)
    (hr : readStr rest = some (content, after)) : Reads maxDepth s depth (.str content) after
  | list {s depth c rest items after} (hs : skipSpaces s = c :: rest) (hc : code c = 40)
    (hd : depth < maxDepth) (hi : ReadsItems maxDepth rest depth items after) :
    Reads maxDepth s depth (.list items) after

/-- The text before the rest is the items of a list and its closing parenthesis. -/
inductive ReadsItems (maxDepth : ℕ) : List U → ℕ → List (Sexp U) → List U → Prop
  | nil {s depth c rest} (hs : skipSpaces s = c :: rest) (hc : code c = 41) :
    ReadsItems maxDepth s depth [] rest
  | cons {s depth c rest t next ts after} (hs : skipSpaces s = c :: rest) (hc : code c ≠ 41)
    (ht : Reads maxDepth (c :: rest) (depth + 1) t next)
    (hts : ReadsItems maxDepth next depth ts after) : ReadsItems maxDepth s depth (t :: ts) after
end

variable {d depth : ℕ} {s rest after : List U} {c : U} {t : Sexp U} {ts : List (Sexp U)}

theorem inAtom_iff : inAtom c = true ↔ code c ≠ 32 ∧ code c ≠ 40 ∧ code c ≠ 41 := by
  simp [inAtom, and_assoc]

theorem code_ne_space (hs : skipSpaces s = c :: rest) : code c ≠ 32 := by
  intro h
  have hnot := List.head?_dropWhile_not (fun c => code c == 32) s
  rw [show s.dropWhile (fun c => code c == 32) = c :: rest from hs] at hnot
  simp [h] at hnot

theorem skipSpaces_suffix (hs : skipSpaces s = c :: rest) : c :: rest <:+ s := by
  rw [← hs]
  exact List.dropWhile_suffix _

theorem skipSpaces_of_ne (hc : code c ≠ 32) : skipSpaces (c :: rest) = c :: rest := by
  rw [skipSpaces, List.dropWhile_cons_of_neg]
  simpa using hc

/-! ## What a first unit decides -/

theorem not_reads_of_nil (hs : skipSpaces s = []) : ¬ Reads d s depth t after := by
  intro h
  cases h <;> simp_all

theorem reads_list_iff (hs : skipSpaces s = c :: rest) (hc : code c = 40) :
    Reads d s depth t after ↔
      depth < d ∧ ∃ items, t = .list items ∧ ReadsItems d rest depth items after := by
  constructor
  · intro h
    cases h with
    | atom hs' ha hq =>
      rw [hs] at hs'
      cases hs'
      exact absurd hc (inAtom_iff.mp ha).2.1
    | str hs' hq _ =>
      rw [hs] at hs'
      cases hs'
      omega
    | list hs' _ hd hi =>
      rw [hs] at hs'
      cases hs'
      exact ⟨hd, _, rfl, hi⟩
  · intro ⟨hd, items, ht, hi⟩
    rw [ht]
    exact .list hs hc hd hi

theorem reads_str_iff (hs : skipSpaces s = c :: rest) (hc : code c = 34) :
    Reads d s depth t after ↔ ∃ content, t = .str content ∧ readStr rest = some (content, after) := by
  constructor
  · intro h
    cases h with
    | atom hs' ha hq =>
      rw [hs] at hs'
      cases hs'
      exact absurd hc hq
    | str hs' hq hr =>
      rw [hs] at hs'
      cases hs'
      exact ⟨_, rfl, hr⟩
    | list hs' hc' _ _ =>
      rw [hs] at hs'
      cases hs'
      omega
  · intro ⟨content, ht, hr⟩
    rw [ht]
    exact .str hs hc hr

theorem not_reads_of_close (hs : skipSpaces s = c :: rest) (hc : code c = 41) :
    ¬ Reads d s depth t after := by
  intro h
  cases h with
  | atom hs' ha hq =>
    rw [hs] at hs'
    cases hs'
    exact absurd hc (inAtom_iff.mp ha).2.2
  | str hs' hq hr =>
    rw [hs] at hs'
    cases hs'
    omega
  | list hs' hc' _ _ =>
    rw [hs] at hs'
    cases hs'
    omega

theorem reads_atom_iff (hs : skipSpaces s = c :: rest) (hopen : code c ≠ 40) (hquote : code c ≠ 34)
    (hclose : code c ≠ 41) :
    Reads d s depth t after ↔
      t = .atom ((c :: rest).takeWhile inAtom) ∧ after = (c :: rest).dropWhile inAtom := by
  constructor
  · intro h
    cases h with
    | atom hs' ha hq =>
      rw [hs] at hs'
      cases hs'
      exact ⟨rfl, rfl⟩
    | str hs' hq hr =>
      rw [hs] at hs'
      cases hs'
      exact absurd hq hquote
    | list hs' hc' _ _ =>
      rw [hs] at hs'
      cases hs'
      exact absurd hc' hopen
  · intro ⟨ht, hafter⟩
    rw [ht, hafter]
    exact .atom hs (inAtom_iff.mpr ⟨code_ne_space hs, hopen, hclose⟩) hquote

theorem not_readsItems_of_nil (hs : skipSpaces s = []) : ¬ ReadsItems d s depth ts after := by
  intro h
  cases h <;> simp_all

theorem readsItems_close_iff (hs : skipSpaces s = c :: rest) (hc : code c = 41) :
    ReadsItems d s depth ts after ↔ ts = [] ∧ after = rest := by
  constructor
  · intro h
    cases h with
    | nil hs' _ =>
      rw [hs] at hs'
      cases hs'
      exact ⟨rfl, rfl⟩
    | cons hs' hc' _ _ =>
      rw [hs] at hs'
      cases hs'
      exact absurd hc hc'
  · intro ⟨hts, hafter⟩
    rw [hts, hafter]
    exact .nil hs hc

theorem readsItems_cons_iff (hs : skipSpaces s = c :: rest) (hc : code c ≠ 41) :
    ReadsItems d s depth ts after ↔ ∃ t next ts', ts = t :: ts' ∧
      Reads d (c :: rest) (depth + 1) t next ∧ ReadsItems d next depth ts' after := by
  constructor
  · intro h
    cases h with
    | nil hs' hc' =>
      rw [hs] at hs'
      cases hs'
      exact absurd hc' hc
    | cons hs' _ ht hts =>
      rw [hs] at hs'
      cases hs'
      exact ⟨_, _, _, rfl, ht, hts⟩
  · intro ⟨t, next, ts', hts, ht, hts'⟩
    rw [hts]
    exact .cons hs hc ht hts'

/-! ## Reading takes text -/

theorem readStr_suffix {s content after : List U} (h : readStr s = some (content, after)) :
    after <:+ s := by
  fun_induction readStr s generalizing content with
  | case1 => cases h
  | case2 c s hq =>
    cases h
    exact List.suffix_cons _ _
  | case3 c s hq hne ih =>
    obtain ⟨r, hr, heq⟩ := Option.map_eq_some_iff.mp h
    cases heq
    exact (ih hr).trans (List.suffix_cons _ _)
  | case4 => cases h
  | case5 c hq hne e s ih =>
    obtain ⟨u, hu, h⟩ := Option.bind_eq_some_iff.mp h
    obtain ⟨r, hr, heq⟩ := Option.map_eq_some_iff.mp h
    cases heq
    exact (ih hr).trans ((List.suffix_cons _ _).trans (List.suffix_cons _ _))

mutual
theorem Reads.suffix {s after : List U} {t : Sexp U} {depth : ℕ} (h : Reads d s depth t after) :
    after <:+ s ∧ after.length < s.length := by
  cases h with
  | @atom _ _ c rest hs hc hq =>
    have hsuf : (c :: rest).dropWhile inAtom <:+ rest := by
      rw [List.dropWhile_cons_of_pos hc]
      exact List.dropWhile_suffix _
    have htail := skipSpaces_suffix hs
    have hlt := length_lt_of_suffix htail
    have hle := hsuf.length_le
    exact ⟨hsuf.trans ((List.suffix_cons _ _).trans htail), by omega⟩
  | @str _ _ c rest content _ hs hq hr =>
    have hsuf := readStr_suffix hr
    have htail := skipSpaces_suffix hs
    have hlt := length_lt_of_suffix htail
    have hle := hsuf.length_le
    exact ⟨hsuf.trans ((List.suffix_cons _ _).trans htail), by omega⟩
  | @list _ _ c rest items _ hs hc hd hi =>
    have hsuf := hi.suffix
    have htail := skipSpaces_suffix hs
    have hlt := length_lt_of_suffix htail
    have hle := hsuf.length_le
    exact ⟨hsuf.trans ((List.suffix_cons _ _).trans htail), by omega⟩

theorem ReadsItems.suffix {s after : List U} {ts : List (Sexp U)} {depth : ℕ}
    (h : ReadsItems d s depth ts after) : after <:+ s := by
  cases h with
  | nil hs hc => exact (List.suffix_cons _ _).trans (skipSpaces_suffix hs)
  | cons hs hc ht hts => exact hts.suffix.trans (ht.suffix.1.trans (skipSpaces_suffix hs))
end

end Grammar
end ScalaRs.Wire
