import ScalaRs.ClassInterning

/-! # Strings in pieces that fit one constant

The characters are gathered until the next one would overflow the piece. -/
namespace ScalaRs.Utf8Chunking
open ModifiedUtf8

structure Chunking where
  out : List String
  cur : List Char
  len : ℕ

/-- The piece is finished before the character that overflows it is added. -/
def flush (max w : ℕ) (s : Chunking) : Chunking :=
  if s.len + w > max ∧ s.cur ≠ [] then ⟨s.out ++ [String.ofList s.cur], [], 0⟩ else s

def push (max : ℕ) (s : Chunking) (ch : Char) : Chunking :=
  let w := modifiedUtf8Width ch
  let s := flush max w s
  { s with cur := s.cur ++ [ch], len := s.len + w }

def finish (s : Chunking) : List String :=
  if s.cur ≠ [] ∨ s.out = [] then s.out ++ [String.ofList s.cur] else s.out

def utf8Chunks (s : String) (max : ℕ) : List String :=
  finish (s.toList.foldl (push max) ⟨[], [], 0⟩)

/-- The width of a text in modified UTF-8. -/
def width (cs : List Char) : ℕ := (cs.map modifiedUtf8Width).sum

theorem width_append (cs ds : List Char) : width (cs ++ ds) = width cs + width ds := by
  rw [width, List.map_append, List.sum_append]
  rfl

theorem modifiedUtf8Width_le (c : Char) : modifiedUtf8Width c ≤ 3 := by
  unfold modifiedUtf8Width
  dsimp only
  split
  · omega
  · split
    · omega
    · split <;> omega

/-- What is true after some characters. -/
structure Gathered (max : ℕ) (done : List Char) (s : Chunking) : Prop where
  text : s.out.flatMap String.toList ++ s.cur = done
  len : s.len = width s.cur
  fits : s.len ≤ max
  pieces : ∀ piece ∈ s.out, piece ≠ "" ∧ width piece.toList ≤ max
  started : done ≠ [] → s.cur ≠ []

variable {max : ℕ} {done : List Char} {s : Chunking}

theorem gathered_start (max : ℕ) : Gathered max [] ⟨[], [], 0⟩ where
  text := rfl
  len := rfl
  fits := Nat.zero_le max
  pieces := fun _ h => absurd h List.not_mem_nil
  started := fun h => absurd rfl h

/-- After a flush the character fits. -/
theorem flush_spec (h : Gathered max done s) {w : ℕ} (hw : w ≤ max) :
    (flush max w s).out.flatMap String.toList ++ (flush max w s).cur = done ∧
      (flush max w s).len = width (flush max w s).cur ∧ (flush max w s).len + w ≤ max ∧
      ∀ piece ∈ (flush max w s).out, piece ≠ "" ∧ width piece.toList ≤ max := by
  unfold flush
  split
  · rename_i hover
    refine ⟨?_, rfl, by simpa using hw, ?_⟩
    · simp only [List.flatMap_append, List.flatMap_singleton, String.toList_ofList,
        List.append_nil]
      exact h.text
    · intro piece hpiece
      cases List.mem_append.mp hpiece with
      | inl hold => exact h.pieces piece hold
      | inr hnew =>
          obtain rfl := List.mem_singleton.mp hnew
          rw [String.toList_ofList, ← h.len]
          refine ⟨?_, h.fits⟩
          intro hempty
          apply hover.2
          simpa using congrArg String.toList hempty
  · rename_i hfits
    refine ⟨h.text, h.len, ?_, h.pieces⟩
    by_cases hcur : s.cur = []
    · have hlen : s.len = 0 := by simp [h.len, hcur, width]
      omega
    · by_contra hover
      exact hfits ⟨by omega, hcur⟩

theorem gathered_push (hmax : 3 ≤ max) (h : Gathered max done s) (ch : Char) :
    Gathered max (done ++ [ch]) (push max s ch) := by
  have hw : modifiedUtf8Width ch ≤ max := (modifiedUtf8Width_le ch).trans hmax
  obtain ⟨htext, hlen, hfits, hpieces⟩ := flush_spec h hw
  have hpush : push max s ch = ⟨(flush max (modifiedUtf8Width ch) s).out,
      (flush max (modifiedUtf8Width ch) s).cur ++ [ch],
      (flush max (modifiedUtf8Width ch) s).len + modifiedUtf8Width ch⟩ := rfl
  rw [hpush]
  constructor
  · rw [← List.append_assoc, htext]
  · rw [width_append, hlen]
    simp [width]
  · exact hfits
  · exact hpieces
  · intro _ hnil
    exact List.append_ne_nil_of_right_ne_nil _ (List.cons_ne_nil ch []) hnil

theorem gathered_foldl (hmax : 3 ≤ max) (cs : List Char) (h : Gathered max done s) :
    Gathered max (done ++ cs) (cs.foldl (push max) s) := by
  induction cs generalizing done s with
  | nil => simpa using h
  | cons c cs ih =>
      rw [List.foldl_cons, List.append_cons]
      exact ih (gathered_push hmax h c)

theorem gathered_all (hmax : 3 ≤ max) (s : String) :
    Gathered max s.toList (s.toList.foldl (push max) ⟨[], [], 0⟩) := by
  simpa using gathered_foldl hmax s.toList (gathered_start max)

theorem toList_join (pieces : List String) :
    (String.join pieces).toList = pieces.flatMap String.toList := by
  have hfold : ∀ acc : String,
      (pieces.foldl (fun r s => r ++ s) acc).toList = acc.toList ++ pieces.flatMap String.toList := by
    induction pieces with
    | nil => simp
    | cons piece pieces ih =>
        intro acc
        rw [List.foldl_cons, ih, String.toList_append, List.flatMap_cons, List.append_assoc]
  rw [String.join, hfold, String.toList_empty, List.nil_append]

/-- The last piece is empty only if nothing was gathered at all. -/
theorem finish_spec (h : Gathered max done s) :
    finish s ≠ [] ∧ (finish s).flatMap String.toList = done ∧
      (∀ piece ∈ finish s, width piece.toList ≤ max) ∧ ("" ∈ finish s → done = []) := by
  unfold finish
  split
  · refine ⟨by simp, ?_, ?_, ?_⟩
    · simpa using h.text
    · intro piece hpiece
      cases List.mem_append.mp hpiece with
      | inl hold => exact (h.pieces piece hold).2
      | inr hlast =>
          obtain rfl := List.mem_singleton.mp hlast
          rw [String.toList_ofList, ← h.len]
          exact h.fits
    · intro hempty
      by_contra hdone
      cases List.mem_append.mp hempty with
      | inl hold => exact (h.pieces "" hold).1 rfl
      | inr hlast =>
          apply h.started hdone
          have heq := congrArg String.toList (List.mem_singleton.mp hlast)
          simpa using heq.symm
  · rename_i hdone
    obtain ⟨hcur, hout⟩ := not_or.mp hdone
    refine ⟨hout, ?_, fun piece hpiece => (h.pieces piece hpiece).2, ?_⟩
    · simpa [not_not.mp hcur] using h.text
    · exact fun hempty => absurd rfl (h.pieces "" hempty).1

/-- The pieces are the string, each fits, and only the empty string has an empty one. -/
theorem utf8Chunks_fit {max : ℕ} (hmax : 3 ≤ max) (s : String) :
    utf8Chunks s max ≠ [] ∧ String.join (utf8Chunks s max) = s ∧
      (∀ piece ∈ utf8Chunks s max, width piece.toList ≤ max) ∧
      ("" ∈ utf8Chunks s max → s = "") := by
  obtain ⟨hne, htext, hfits, hempty⟩ := finish_spec (gathered_all hmax s)
  refine ⟨hne, ?_, hfits, ?_⟩
  · apply String.toList_inj.mp
    rw [toList_join]
    exact htext
  · intro h
    exact String.toList_inj.mp (hempty h)

theorem utf8Chunks_fit_small :
    utf8Chunks "ab" 3 ≠ [] ∧ String.join (utf8Chunks "ab" 3) = "ab" ∧
      (∀ piece ∈ utf8Chunks "ab" 3, width piece.toList ≤ 3) ∧
      ("" ∈ utf8Chunks "ab" 3 → "ab" = "") :=
  utf8Chunks_fit (Nat.le_refl 3) "ab"

theorem push_over {c : Char} (hover : s.len + modifiedUtf8Width c > max) (hcur : s.cur ≠ []) :
    push max s c = ⟨s.out ++ [String.ofList s.cur], [c], modifiedUtf8Width c⟩ := by
  simp only [push, flush, if_pos (And.intro hover hcur), List.nil_append, Nat.zero_add]

theorem push_fits {c : Char} (hfits : ¬ s.len + modifiedUtf8Width c > max) :
    push max s c = ⟨s.out, s.cur ++ [c], s.len + modifiedUtf8Width c⟩ := by
  have hnot : ¬ (s.len + modifiedUtf8Width c > max ∧ s.cur ≠ []) := fun h => hfits h.1
  simp only [push, flush, if_neg hnot]

theorem finish_foldl_push (max : ℕ) (cs : List Char) : ∀ (out : List String) (cur : List Char),
    cur ≠ [] → finish (cs.foldl (push max) ⟨out, cur, width cur⟩) =
      out ++ (Classfile.chunksFrom max cs cur (width cur)).map String.ofList := by
  induction cs with
  | nil =>
      intro out cur hcur
      simp [finish, hcur, Classfile.chunksFrom]
  | cons c cs ih =>
      intro out cur hcur
      have hwidth : width cur + modifiedUtf8Width c = width (cur ++ [c]) := by
        simp [width]
      have hone : modifiedUtf8Width c = width [c] := by simp [width]
      rw [List.foldl_cons, Classfile.chunksFrom]
      by_cases hover : width cur + modifiedUtf8Width c > max
      · rw [push_over (s := ⟨out, cur, width cur⟩) hover hcur, hone,
          ih _ _ (List.cons_ne_nil c [])]
        simp [← hone, hover, hcur]
      · rw [push_fits (s := ⟨out, cur, width cur⟩) hover]
        dsimp only
        rw [hwidth, ih _ _ (by simp), ← hwidth, if_neg fun h => hover h.1]

/-- The pieces that the emission of a class splits a signature into are these. -/
theorem classfile_utf8Chunks (s : String) (max : ℕ) :
    Classfile.utf8Chunks s max = utf8Chunks s max := by
  unfold Classfile.utf8Chunks utf8Chunks
  cases s.toList with
  | nil => simp [finish, Classfile.chunksFrom]
  | cons c cs =>
      have hfirst : push max ⟨[], [], 0⟩ c = ⟨[], [c], width [c]⟩ := by
        simp [push, flush, width]
      rw [List.foldl_cons, hfirst, finish_foldl_push max cs [] [c] (List.cons_ne_nil c [])]
      simp [Classfile.chunksFrom, width]

end ScalaRs.Utf8Chunking
