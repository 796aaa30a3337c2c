import Mathlib.Data.Nat.Notation

/-! # Greedy reading of tokens

A text is read from the left: where a token stands it is taken, elsewhere a single
element. A text cut between two pieces reads as the pieces before the cut. -/
namespace GreedyTokens

variable {α β : Type}

/-- Reads the token at the front of a text, with its length. What follows a token
has no influence on it. -/
structure Reader (α β : Type) where
  read : List α → Option (β × ℕ)
  length_pos : ∀ {s b n}, read s = some (b, n) → 0 < n
  length_le : ∀ {s b n}, read s = some (b, n) → n ≤ s.length
  extend : ∀ {s b n} (t : List α), read s = some (b, n) → read (s ++ t) = some (b, n)
  shorten : ∀ {s t b n}, read (s ++ t) = some (b, n) → n ≤ s.length → read s = some (b, n)

inductive Piece (α β : Type) where
  | token (meaning : β) (text : List α)
  | plain (element : α)

def Piece.text : Piece α β → List α
  | token _ text => text
  | plain a => [a]

def texts (ps : List (Piece α β)) : List α := ps.flatMap Piece.text

@[simp]
theorem texts_nil : texts ([] : List (Piece α β)) = [] := rfl

@[simp]
theorem texts_cons (p : Piece α β) (ps : List (Piece α β)) :
    texts (p :: ps) = p.text ++ texts ps := rfl

@[simp]
theorem texts_append (ps qs : List (Piece α β)) : texts (ps ++ qs) = texts ps ++ texts qs :=
  List.flatMap_append

namespace Reader

variable (r : Reader α β)

theorem length_drop_lt {a : α} {s : List α} {b : β} {n : ℕ} (h : r.read (a :: s) = some (b, n)) :
    ((a :: s).drop n).length < (a :: s).length := by
  have hpos := r.length_pos h
  rw [List.length_drop, List.length_cons]
  omega

def pieces : List α → List (Piece α β)
  | [] => []
  | a :: s => match h : r.read (a :: s) with
    | some (b, n) => .token b ((a :: s).take n) :: pieces ((a :: s).drop n)
    | none => .plain a :: pieces s
termination_by s => s.length
decreasing_by
  · exact r.length_drop_lt h
  · exact Nat.lt_succ_self _

@[simp]
theorem pieces_nil : r.pieces [] = [] := by rw [pieces]

theorem read_nil : r.read [] = none := by
  cases h : r.read [] with
  | none => rfl
  | some x =>
    have hpos := r.length_pos h
    have hle := r.length_le h
    simp only [List.length_nil] at hle
    omega

theorem pieces_of_read {s : List α} {b : β} {n : ℕ} (h : r.read s = some (b, n)) :
    r.pieces s = .token b (s.take n) :: r.pieces (s.drop n) := by
  cases s with
  | nil => simp [r.read_nil] at h
  | cons a s =>
    rw [pieces]
    split
    · next h' =>
      rw [h] at h'
      cases h'
      rfl
    · next h' => simp [h] at h'

theorem pieces_of_not_read {a : α} {s : List α} (h : r.read (a :: s) = none) :
    r.pieces (a :: s) = .plain a :: r.pieces s := by
  rw [pieces]
  split
  · next h' => simp [h] at h'
  · rfl

/-- A token in front of any text. -/
theorem pieces_token_append {w : List α} {b : β} (h : r.read w = some (b, w.length))
    (s : List α) : r.pieces (w ++ s) = .token b w :: r.pieces s := by
  rw [r.pieces_of_read (r.extend s h), List.take_left, List.drop_left]

/-- Reads a text piece by piece: what holds of the empty text and is passed on from
the rest of a text to the text holds of all. -/
theorem pieces_induction {P : List α → Prop} (nil : P [])
    (token : ∀ s b n, r.read s = some (b, n) → P (s.drop n) → P s)
    (plain : ∀ a s, r.read (a :: s) = none → P s → P (a :: s)) (s : List α) : P s := by
  fun_induction r.pieces s with
  | case1 => exact nil
  | case2 a s b n h ih => exact token _ b n h ih
  | case3 a s h ih => exact plain a s h ih

theorem texts_pieces (s : List α) : texts (r.pieces s) = s := by
  induction s using r.pieces_induction with
  | nil => rw [pieces_nil, texts_nil]
  | token s b n h ih => rw [r.pieces_of_read h, texts_cons, ih, Piece.text, List.take_append_drop]
  | plain a s h ih => rw [r.pieces_of_not_read h, texts_cons, ih, Piece.text, List.singleton_append]

/-- No token starts where none started in a longer text. -/
theorem not_read_of_append {s t : List α} (h : r.read (s ++ t) = none) : r.read s = none := by
  cases hs : r.read s with
  | none => rfl
  | some x => simp [r.extend t hs] at h

/-- A text cut between two of its pieces reads as the pieces before the cut. -/
theorem pieces_cut {s : List α} {ps qs : List (Piece α β)} (h : r.pieces s = ps ++ qs) :
    r.pieces (texts ps) = ps := by
  induction ps generalizing s with
  | nil => rw [texts_nil, pieces_nil]
  | cons p ps ih =>
    cases s with
    | nil => simp at h
    | cons a s =>
      cases hread : r.read (a :: s) with
      | some x =>
        obtain ⟨b, n⟩ := x
        rw [r.pieces_of_read hread, List.cons_append, List.cons.injEq] at h
        obtain ⟨hp, hrest⟩ := h
        have hlen : ((a :: s).take n).length = n :=
          List.length_take_of_le (r.length_le hread)
        have hword : r.read ((a :: s).take n) = some (b, ((a :: s).take n).length) := by
          rw [hlen]
          apply r.shorten (t := (a :: s).drop n)
          · rwa [List.take_append_drop]
          · exact Nat.le_of_eq hlen.symm
        rw [← hp, texts_cons, Piece.text, r.pieces_token_append hword, ih hrest]
      | none =>
        rw [r.pieces_of_not_read hread, List.cons_append, List.cons.injEq] at h
        obtain ⟨hp, hrest⟩ := h
        have hcut : s = texts ps ++ texts qs := by
          rw [← texts_append, ← hrest, r.texts_pieces]
        have hplain : r.read (a :: texts ps) = none := by
          apply r.not_read_of_append (t := texts qs)
          rwa [List.cons_append, ← hcut]
        rw [← hp, texts_cons, Piece.text, List.singleton_append, r.pieces_of_not_read hplain,
          ih hrest]

end Reader

end GreedyTokens
