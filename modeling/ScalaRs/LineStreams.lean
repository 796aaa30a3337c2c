import Mathlib.Data.Nat.Basic
import Mathlib.Data.List.Basic

/-! # Lines of a stream

The lines of a stream of symbols, each with its terminator, and a buffered reader that gets the
stream in chunks. What a reader still has to return does not depend on where the chunks end. -/
namespace LineStreams

variable {α : Type}

section
variable [DecidableEq α]

/-- The first line, with its terminator if there is one, and what comes after it. -/
def splitLine (newline : α) : List α → List α × List α
  | [] => ([], [])
  | a :: s =>
      if a = newline then ([a], s)
      else (a :: (splitLine newline s).1, (splitLine newline s).2)

def lines (newline : α) : List α → List (List α)
  | [] => []
  | a :: s =>
      if a = newline then [a] :: lines newline s
      else
        match lines newline s with
        | [] => [[a]]
        | line :: rest => (a :: line) :: rest

variable {newline : α}

@[simp] theorem splitLine_nil : splitLine newline [] = ([], []) := rfl

@[simp] theorem lines_nil : lines newline [] = [] := rfl

theorem splitLine_append (s : List α) : (splitLine newline s).1 ++ (splitLine newline s).2 = s := by
  induction s with
  | nil => rfl
  | cons a s ih =>
      unfold splitLine
      split
      · rfl
      · exact congrArg (a :: ·) ih

theorem splitLine_ne_nil {s : List α} (hs : s ≠ []) : (splitLine newline s).1 ≠ [] := by
  cases s with
  | nil => exact absurd rfl hs
  | cons a s =>
      unfold splitLine
      split <;> exact List.cons_ne_nil _ _

theorem splitLine_length {s : List α} (hs : s ≠ []) :
    (splitLine newline s).2.length < s.length := by
  have hlength := congrArg List.length (splitLine_append s : (splitLine newline s).1 ++ _ = s)
  have hpos : 0 < (splitLine newline s).1.length := List.length_pos_iff.2 (splitLine_ne_nil hs)
  rw [List.length_append] at hlength
  omega

theorem lines_of_ne_nil {s : List α} (hs : s ≠ []) :
    lines newline s = (splitLine newline s).1 :: lines newline (splitLine newline s).2 := by
  induction s with
  | nil => exact absurd rfl hs
  | cons a s ih =>
      by_cases ha : a = newline
      · rw [lines, splitLine, if_pos ha, if_pos ha]
      · rw [lines, splitLine, if_neg ha, if_neg ha]
        cases s with
        | nil => rfl
        | cons b s => rw [ih (List.cons_ne_nil b s)]

theorem linesInduction {P : List α → Prop} (nil : P [])
    (line : ∀ s, s ≠ [] → P (splitLine newline s).2 → P s) (s : List α) : P s := by
  induction hn : s.length using Nat.strong_induction_on generalizing s with
  | _ n ih =>
      by_cases hs : s = []
      · exact hs ▸ nil
      · exact line s hs (ih _ (hn ▸ splitLine_length hs) _ rfl)

/-- No symbol is lost and none comes twice. -/
theorem flatten_lines (s : List α) : (lines newline s).flatten = s := by
  induction s using @linesInduction α _ newline with
  | nil => rfl
  | line s hs ih => rw [lines_of_ne_nil hs, List.flatten_cons, ih, splitLine_append]

/-! ## Where the terminators stand -/

/-- A line ends with its only terminator. -/
def IsLine (newline : α) (line : List α) : Prop := ∃ text, newline ∉ text ∧ line = text ++ [newline]

/-- The last line may lack its terminator, but not its text. -/
def IsUnterminated (newline : α) (line : List α) : Prop := newline ∉ line ∧ line ≠ []

theorem splitLine_of_mem {s : List α} (hs : newline ∈ s) :
    IsLine newline (splitLine newline s).1 := by
  induction s with
  | nil => exact absurd hs List.not_mem_nil
  | cons a s ih =>
      unfold splitLine
      split
      · rename_i ha
        exact ⟨[], List.not_mem_nil, by rw [ha]; rfl⟩
      · rename_i ha
        obtain ⟨text, htext, heq⟩ := ih ((List.mem_cons.1 hs).resolve_left fun h => ha h.symm)
        refine ⟨a :: text, ?_, by rw [heq]; rfl⟩
        rw [List.mem_cons, not_or]
        exact ⟨fun h => ha h.symm, htext⟩

theorem splitLine_of_notMem {s : List α} (hs : newline ∉ s) : splitLine newline s = (s, []) := by
  induction s with
  | nil => rfl
  | cons a s ih =>
      rw [List.mem_cons, not_or] at hs
      rw [splitLine, if_neg fun h => hs.1 h.symm, ih hs.2]

/-- Every line but the last is terminated. -/
theorem isLine_of_mem_dropLast {s line : List α} (h : line ∈ (lines newline s).dropLast) :
    IsLine newline line := by
  induction s using @linesInduction α _ newline with
  | nil => exact absurd h List.not_mem_nil
  | line s hs ih =>
      rw [lines_of_ne_nil hs] at h
      by_cases hrest : (splitLine newline s).2 = []
      · simp [hrest] at h
      · have hne : lines newline (splitLine newline s).2 ≠ [] := by
          rw [lines_of_ne_nil hrest]
          exact List.cons_ne_nil _ _
        rw [List.dropLast_cons_of_ne_nil hne] at h
        rcases List.mem_cons.1 h with rfl | h
        · apply splitLine_of_mem
          by_contra hmem
          exact hrest (by rw [splitLine_of_notMem hmem])
        · exact ih h

theorem isLine_or_of_mem {s line : List α} (h : line ∈ lines newline s) :
    IsLine newline line ∨ IsUnterminated newline line := by
  induction s using @linesInduction α _ newline with
  | nil => exact absurd h List.not_mem_nil
  | line s hs ih =>
      rw [lines_of_ne_nil hs] at h
      rcases List.mem_cons.1 h with rfl | h
      · by_cases hmem : newline ∈ s
        · exact .inl (splitLine_of_mem hmem)
        · rw [splitLine_of_notMem hmem]
          exact .inr ⟨hmem, hs⟩
      · exact ih h

/-! ## Chunks -/

/-- The first chunk of a stream has the end of the line. -/
theorem splitLine_append_of_mem {available : List α} (h : newline ∈ available) (s : List α) :
    splitLine newline (available ++ s) =
      ((splitLine newline available).1, (splitLine newline available).2 ++ s) := by
  induction available with
  | nil => exact absurd h List.not_mem_nil
  | cons a available ih =>
      by_cases ha : a = newline
      · simp [splitLine, ha]
      · have hmem := (List.mem_cons.1 h).resolve_left fun h => ha h.symm
        simp [splitLine, ha, ih hmem]

theorem splitLine_append_of_notMem {available : List α} (h : newline ∉ available) (s : List α) :
    splitLine newline (available ++ s) =
      (available ++ (splitLine newline s).1, (splitLine newline s).2) := by
  induction available with
  | nil => rfl
  | cons a available ih =>
      rw [List.mem_cons, not_or] at h
      have ha : a ≠ newline := fun heq => h.1 heq.symm
      simp [splitLine, ha, ih h.2]

/-- Where the terminator is found, what is taken up to it is the line. -/
theorem splitLine_of_idxOf {available : List α} (h : newline ∈ available) :
    splitLine newline available =
      (available.take (available.idxOf newline + 1), available.drop (available.idxOf newline + 1)) := by
  induction available with
  | nil => exact absurd h List.not_mem_nil
  | cons a available ih =>
      by_cases ha : a = newline
      · simp [splitLine, ha]
      · have hmem := (List.mem_cons.1 h).resolve_left fun h => ha h.symm
        simp [splitLine, ha, ih hmem, List.idxOf_cons_ne _ ha]

/-- The text of a line that is terminated is what comes before the terminator. -/
theorem splitLine_of_takeWhile {s : List α} (h : newline ∈ s) :
    splitLine newline s = (s.takeWhile (· ≠ newline) ++ [newline],
      s.drop ((s.takeWhile (· ≠ newline)).length + 1)) := by
  induction s with
  | nil => exact absurd h List.not_mem_nil
  | cons a s ih =>
      by_cases ha : a = newline
      · simp [splitLine, ha]
      · have hmem := (List.mem_cons.1 h).resolve_left fun h => ha h.symm
        simp [splitLine, ha, ih hmem]

theorem takeWhile_of_notMem {s : List α} (h : newline ∉ s) : s.takeWhile (· ≠ newline) = s := by
  induction s with
  | nil => rfl
  | cons a s ih =>
      rw [List.mem_cons, not_or] at h
      rw [List.takeWhile_cons_of_pos (by simpa using fun heq : a = newline => h.1 heq.symm), ih h.2]

theorem length_takeWhile_lt_iff {s : List α} :
    (s.takeWhile (· ≠ newline)).length < s.length ↔ newline ∈ s := by
  constructor
  · intro h
    by_contra hmem
    rw [takeWhile_of_notMem hmem] at h
    exact Nat.lt_irrefl _ h
  · intro h
    have hlength := congrArg List.length (splitLine_append s : (splitLine newline s).1 ++ _ = s)
    rw [splitLine_of_takeWhile h] at hlength
    simp only [List.length_append, List.length_singleton] at hlength
    omega

end

/-- What has been read and not yet taken, and what the reads to come return. A read returns nothing
only at the end of the stream. -/
structure Reader (α : Type) where
  buffer : List α
  reads : List (List α)
  nonempty : ∀ chunk ∈ reads, chunk ≠ []

namespace Reader

def stream (reader : Reader α) : List α := reader.buffer ++ reader.reads.flatten

/-- A read if the buffer is empty. -/
def fillBuf (reader : Reader α) : Reader α :=
  if reader.buffer = [] then
    match h : reader.reads with
    | [] => reader
    | chunk :: reads => ⟨chunk, reads, fun c hc => reader.nonempty c (h ▸ List.mem_cons_of_mem _ hc)⟩
  else reader

def consume (reader : Reader α) (n : ℕ) : Reader α := { reader with buffer := reader.buffer.drop n }

theorem stream_fillBuf (reader : Reader α) : reader.fillBuf.stream = reader.stream := by
  unfold fillBuf
  split
  · rename_i hbuffer
    split
    · rfl
    · rename_i chunk reads hreads
      simp [stream, hbuffer, hreads]
  · rfl

/-- Nothing is available only at the end of the stream. -/
theorem stream_eq_nil {reader : Reader α} (h : reader.fillBuf.buffer = []) :
    reader.stream = [] := by
  unfold fillBuf at h
  split at h
  · rename_i hbuffer
    split at h
    · rename_i hreads
      simp [stream, hbuffer, hreads]
    · rename_i chunk reads hreads
      exact absurd h (reader.nonempty chunk (by rw [hreads]; exact List.mem_cons_self))
  · rename_i hbuffer
    exact absurd h hbuffer

theorem stream_consume_length {reader : Reader α} {n : ℕ} (hn : 0 < n) (h : reader.buffer ≠ []) :
    (reader.consume n).stream.length < reader.stream.length := by
  have hpos := List.length_pos_iff.2 h
  simp only [stream, consume, List.length_append, List.length_drop]
  omega

end Reader

/-! ## Repeated calls -/

/-- The results of `n` calls, up to the first that fails. -/
def repeated {σ ε β : Type} (call : σ → Except ε β × σ) : ℕ → σ → List (Except ε β)
  | 0, _ => []
  | n + 1, s =>
      match call s with
      | (.ok b, s') => .ok b :: repeated call n s'
      | (.error e, _) => [.error e]

/-- What `n` calls return when each takes one line, up to the first that fails. At the end of the
stream there is nothing left. -/
def takenLines {ε β : Type} (take : List α → Except ε β) (done : β) :
    ℕ → List (List α) → List (Except ε β)
  | 0, _ => []
  | n + 1, [] => .ok done :: takenLines take done n []
  | n + 1, line :: rest =>
      match take line with
      | .ok b => .ok b :: takenLines take done n rest
      | .error e => [.error e]

variable [DecidableEq α] {newline : α}

/-- Calls that each take the first line take the lines. -/
theorem repeated_eq_takenLines {σ ε β : Type} {call : σ → Except ε β × σ} {stream : σ → List α}
    {take : List α → Except ε β} {done : β} {P : σ → Prop}
    (hend : ∀ s, P s → stream s = [] →
      (call s).1 = .ok done ∧ stream (call s).2 = [] ∧ P (call s).2)
    (hline : ∀ s, P s → stream s ≠ [] → (call s).1 = take (splitLine newline (stream s)).1 ∧
      ∀ b, (call s).1 = .ok b →
        stream (call s).2 = (splitLine newline (stream s)).2 ∧ P (call s).2)
    (n : ℕ) {s : σ} (hs : P s) :
    repeated call n s = takenLines take done n (lines newline (stream s)) := by
  induction n generalizing s with
  | zero => rfl
  | succ n ih =>
      by_cases hstream : stream s = []
      · obtain ⟨hresult, hnil, hP⟩ := hend s hs hstream
        rw [hstream, lines_nil, takenLines, repeated]
        split
        · rename_i b s' hcall
          rw [hcall] at hresult hnil hP
          cases hresult
          rw [ih hP, hnil, lines_nil]
        · rename_i e s' hcall
          rw [hcall] at hresult
          cases hresult
      · obtain ⟨hresult, hnext⟩ := hline s hs hstream
        rw [lines_of_ne_nil hstream, takenLines, ← hresult, repeated]
        split
        · rename_i b s' hcall
          rw [hcall] at hnext ⊢
          obtain ⟨hrest, hP⟩ := hnext b rfl
          rw [ih hP, hrest]
        · rename_i e s' hcall
          rw [hcall]

end LineStreams
