import ScalaRs.CodeUnits
import ScalaRs.LexerProgress

/-! # UTF-16 offsets in the files of a run

The offset of a byte is counted from the last one asked for in its file, if that lies
before it. -/
namespace ScalaRs.Utf16Offsets
open CodeUnits Lexing

/-- The last byte asked for in each file, with its offset. -/
abbrev Marks := ℕ → Option (ℕ × ℕ)

/-- `str::get` of a range, which has to start and end between characters. -/
def get (text : List Char) (start stop : ℕ) : Option (List Char) :=
  if start ≤ stop then
    match splitBytes start text with
    | none => none
    | some parts => (splitBytes (stop - start) parts.2).map Prod.fst
  else none

def isAscii (cs : List Char) : Bool := cs.all fun c => decide (c.toNat < 128)

/-- `encode_utf16().count()` -/
def utf16Count (cs : List Char) : ℕ := (utf16.text cs).length

/-- Where counting starts. -/
def startAt (marks : Marks) (file pos : ℕ) : ℕ × ℕ :=
  match marks file with
  | some (byte, units) => if byte ≤ pos then (byte, units) else (0, 0)
  | none => (0, 0)

def utf16Offset (marks : Marks) (file : ℕ) (text : List Char) (pos : ℕ) : Option ℕ × Marks :=
  let start := startAt marks file pos
  match get text start.1 pos with
  | none => (none, marks)
  | some delta =>
    let units := start.2 + if isAscii delta then byteLength delta else utf16Count delta
    (some units, Function.update marks file (some (pos, units)))

/-- The answers to queries for bytes of files, one after the other. -/
def answers (texts : ℕ → List Char) : Marks → List (ℕ × ℕ) → List (Option ℕ)
  | _, [] => []
  | marks, (file, pos) :: queries =>
    let answer := utf16Offset marks file (texts file) pos
    answer.1 :: answers texts answer.2 queries

/-- There are this many units before the byte, which lies between two characters or at
an end of the text. -/
def UnitsBefore (text : List Char) (pos units : ℕ) : Prop :=
  ∃ before after, text = before ++ after ∧ byteLength before = pos ∧ utf16Count before = units

/-! ## Cutting a text -/

section
-- Derives the equations of these definitions in front of the proofs that use them.
attribute [local simp] splitBytes utf16Offset
end

theorem splitBytes_eq_some {n : ℕ} {text before after : List Char} :
    splitBytes n text = some (before, after) ↔ text = before ++ after ∧ byteLength before = n := by
  constructor
  · intro h
    induction n, text using splitBytes.induct generalizing before after with
    | case1 cs =>
        rw [splitBytes] at h
        cases h
        exact ⟨rfl, rfl⟩
    | case2 n =>
        rw [splitBytes] at h
        cases h
    | case3 n c cs hle ih =>
        rw [splitBytes, if_pos hle] at h
        obtain ⟨parts, hparts, heq⟩ := Option.map_eq_some_iff.mp h
        cases heq
        obtain ⟨htext, hlen⟩ := ih hparts
        refine ⟨congrArg (c :: ·) htext, ?_⟩
        rw [byteLength_cons, hlen]
        omega
    | case4 n c cs hgt =>
        rw [splitBytes, if_neg hgt] at h
        cases h
  · intro h
    rw [h.1, ← h.2]
    exact splitBytes_append before after

theorem get_append {before after : List Char} {stop : ℕ} {delta : List Char} :
    get (before ++ after) (byteLength before) stop = some delta ↔
      ∃ rest, after = delta ++ rest ∧ byteLength before + byteLength delta = stop := by
  delta get
  rw [splitBytes_append]
  constructor
  · intro h
    by_cases hle : byteLength before ≤ stop
    · rw [if_pos hle] at h
      obtain ⟨parts, hparts, heq⟩ := Option.map_eq_some_iff.mp h
      cases heq
      obtain ⟨hafter, hlen⟩ := splitBytes_eq_some.mp hparts
      exact ⟨parts.2, hafter, by omega⟩
    · rw [if_neg hle] at h
      cases h
  · intro h
    obtain ⟨rest, hafter, hstop⟩ := h
    have hparts : splitBytes (stop - byteLength before) after = some (delta, rest) :=
      splitBytes_eq_some.mpr ⟨hafter, by omega⟩
    rw [if_pos (by omega)]
    exact Option.map_eq_some_iff.mpr ⟨(delta, rest), hparts, rfl⟩

/-! ## Counting -/

theorem utf16Count_append (cs ds : List Char) :
    utf16Count (cs ++ ds) = utf16Count cs + utf16Count ds := by
  delta utf16Count
  rw [utf16.text_append, List.length_append]

/-- An ASCII character is one byte and one unit. -/
theorem byteLength_of_isAscii {cs : List Char} (h : isAscii cs = true) :
    byteLength cs = utf16Count cs := by
  induction cs with
  | nil => rfl
  | cons c cs ih =>
      delta isAscii at h
      rw [List.all_cons, Bool.and_eq_true, decide_eq_true_eq] at h
      have hone : c.utf8Size = 1 := by
        apply Char.utf8Size_eq_one_iff.mpr
        apply UInt32.le_iff_toNat_le.mpr
        exact Nat.le_of_lt_succ h.1
      have hunit : utf16Count [c] = 1 := by
        delta utf16Count
        rw [utf16.text_cons, utf16.ascii c h.1]
        rfl
      have hsplit : c :: cs = [c] ++ cs := rfl
      rw [byteLength_cons, ih h.2, hone, hsplit, utf16Count_append, hunit]

theorem units_eq (delta : List Char) :
    (if isAscii delta then byteLength delta else utf16Count delta) = utf16Count delta := by
  split
  · exact byteLength_of_isAscii ‹_›
  · rfl

theorem UnitsBefore.unique {text : List Char} {pos m n : ℕ} (hm : UnitsBefore text pos m)
    (hn : UnitsBefore text pos n) : m = n := by
  obtain ⟨before, after, htext, hlen, rfl⟩ := hm
  obtain ⟨before', after', htext', hlen', rfl⟩ := hn
  have hcut := splitBytes_eq_some.mpr ⟨htext, hlen⟩
  have hcut' := splitBytes_eq_some.mpr ⟨htext', hlen'⟩
  cases hcut.symm.trans hcut'
  rfl

/-! ## Marks -/

/-- Every mark is a true answer. -/
def Sound (texts : ℕ → List Char) (marks : Marks) : Prop :=
  ∀ file byte units, marks file = some (byte, units) → UnitsBefore (texts file) byte units

variable {texts : ℕ → List Char} {marks : Marks}

theorem sound_empty : Sound texts fun _ => none := fun _ _ _ h => nomatch h

/-- Counting starts at a true answer, not after the byte that is asked for. -/
theorem startAt_spec (h : Sound texts marks) (file pos : ℕ) :
    UnitsBefore (texts file) (startAt marks file pos).1 (startAt marks file pos).2 ∧
      (startAt marks file pos).1 ≤ pos := by
  have hzero : UnitsBefore (texts file) 0 0 := ⟨[], texts file, rfl, rfl, rfl⟩
  delta startAt
  split
  · rename_i byte units hmark
    split
    · exact ⟨h file byte units hmark, ‹_›⟩
    · exact ⟨hzero, Nat.zero_le pos⟩
  · exact ⟨hzero, Nat.zero_le pos⟩

/-- From any start that is a true answer, what is cut off up to the byte has the units
that are left. -/
theorem unitsBefore_iff {text : List Char} {start units pos : ℕ} (hstart : UnitsBefore text start units)
    (hle : start ≤ pos) (n : ℕ) : UnitsBefore text pos n ↔
      ∃ delta, get text start pos = some delta ∧ units + utf16Count delta = n := by
  obtain ⟨before, after, rfl, rfl, rfl⟩ := hstart
  constructor
  · intro h
    obtain ⟨before', after', htext, rfl, rfl⟩ := h
    obtain ⟨delta, hdelta⟩ | ⟨delta, hdelta⟩ := List.append_eq_append_iff.mp htext
    · obtain ⟨rfl, rfl⟩ := hdelta
      refine ⟨delta, get_append.mpr ⟨after', rfl, (byteLength_append before delta).symm⟩, ?_⟩
      exact (utf16Count_append before delta).symm
    · -- the byte is where counting starts
      obtain ⟨rfl, rfl⟩ := hdelta
      have hnil : delta = [] := by
        cases delta with
        | nil => rfl
        | cons c delta =>
            have hpos := c.utf8Size_pos
            rw [byteLength_append, byteLength_cons] at hle
            omega
      subst hnil
      refine ⟨[], get_append.mpr ⟨after, rfl, by simp⟩, by simp [utf16Count]⟩
  · intro h
    obtain ⟨delta, hget, hn⟩ := h
    obtain ⟨rest, rfl, hpos⟩ := get_append.mp hget
    refine ⟨before ++ delta, rest, (List.append_assoc before delta rest).symm, ?_, ?_⟩
    · rw [byteLength_append, hpos]
    · rw [utf16Count_append, hn]

/-- One query: a true answer, and marks that stay true. -/
theorem utf16Offset_spec (h : Sound texts marks) (file pos : ℕ) :
    (∀ n, (utf16Offset marks file (texts file) pos).1 = some n ↔ UnitsBefore (texts file) pos n) ∧
      Sound texts (utf16Offset marks file (texts file) pos).2 := by
  obtain ⟨hstart, hle⟩ := startAt_spec h file pos
  have hiff := unitsBefore_iff hstart hle
  cases hget : get (texts file) (startAt marks file pos).1 pos with
  | none =>
      simp only [utf16Offset, hget]
      refine ⟨fun n => ?_, h⟩
      rw [hiff n, hget]
      simp
  | some delta =>
      have hanswer : UnitsBefore (texts file) pos
          ((startAt marks file pos).2 + utf16Count delta) := (hiff _).mpr ⟨delta, hget, rfl⟩
      simp only [utf16Offset, hget, units_eq]
      constructor
      · intro n
        constructor
        · intro hn
          cases hn
          exact hanswer
        · intro hn
          rw [hanswer.unique hn]
      · intro file' byte units hmark
        by_cases hfile : file' = file
        · subst hfile
          rw [Function.update_self] at hmark
          cases hmark
          exact hanswer
        · rw [Function.update_of_ne hfile] at hmark
          exact h file' byte units hmark

theorem answers_of_sound (h : Sound texts marks) (queries : List (ℕ × ℕ)) :
    List.Forall₂ (fun q r => ∀ n, r = some n ↔ UnitsBefore (texts q.1) q.2 n) queries
      (answers texts marks queries) := by
  induction queries generalizing marks with
  | nil => exact .nil
  | cons q queries ih =>
      obtain ⟨hanswer, hsound⟩ := utf16Offset_spec h q.1 q.2
      exact .cons hanswer (ih hsound)

/-- Each answer is the number of units before the byte, whatever was asked before. -/
theorem answers_exact (texts : ℕ → List Char) (queries : List (ℕ × ℕ)) :
    List.Forall₂ (fun q r => ∀ n, r = some n ↔ UnitsBefore (texts q.1) q.2 n) queries
      (answers texts (fun _ => none) queries) :=
  answers_of_sound sound_empty queries

end ScalaRs.Utf16Offsets
