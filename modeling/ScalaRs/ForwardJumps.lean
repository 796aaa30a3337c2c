import Mathlib.Data.List.Basic
import Mathlib.Data.Nat.Notation

/-! # Code whose jumps go forward

A jump continues after the next mark of its label. A label without one is where
a run gets stuck. -/
namespace ForwardJumps

variable {L α S R : Type} [DecidableEq L]

inductive Instr (L α : Type)
  | mark (l : L)
  | op (a : α)

/-- What one operation does. -/
inductive Move (L S R : Type)
  | next (s : S)
  | jump (l : L) (s : S)
  | halt (r : R)

inductive Outcome (L S R : Type)
  | ended (s : S)
  | halted (r : R)
  | unmarked (l : L)

/-- The code after the first mark of a label. -/
def after (l : L) : List (Instr L α) → Option (List (Instr L α))
  | [] => none
  | .mark l' :: code => if l' = l then some code else after l code
  | .op _ :: code => after l code

theorem length_after_le {l : L} {code code' : List (Instr L α)} (h : after l code = some code') :
    code'.length ≤ code.length := by
  induction code with
  | nil => cases h
  | cons i code ih =>
    cases i with
    | op a => exact Nat.le_succ_of_le (ih h)
    | mark l' =>
      rw [after] at h
      split at h
      · cases h
        exact Nat.le_succ _
      · exact Nat.le_succ_of_le (ih h)

variable (step : α → S → Move L S R)

def run : List (Instr L α) → S → Outcome L S R
  | [], s => .ended s
  | .mark _ :: code, s => run code s
  | .op a :: code, s =>
    match step a s with
    | .next s => run code s
    | .halt r => .halted r
    | .jump l s =>
      match _h : after l code with
      | some code => run code s
      | none => .unmarked l
termination_by code => code.length
decreasing_by
  · exact Nat.lt_succ_self _
  · exact Nat.lt_succ_self _
  · exact Nat.lt_succ_of_le (length_after_le _h)

/-- Where a run continues that jumps to `l` in front of `code`. -/
def resume (l : L) (code : List (Instr L α)) (s : S) : Outcome L S R :=
  match after l code with
  | some code => run step code s
  | none => .unmarked l

variable {step}

@[simp] theorem run_nil (s : S) : run step [] s = .ended s := by rw [run]

@[simp] theorem run_mark (l : L) (code : List (Instr L α)) (s : S) :
    run step (.mark l :: code) s = run step code s := by rw [run]

theorem run_next {a : α} {s s' : S} (h : step a s = .next s') (code : List (Instr L α)) :
    run step (.op a :: code) s = run step code s' := by
  rw [run, h]

theorem run_halt {a : α} {s : S} {r : R} (h : step a s = .halt r) (code : List (Instr L α)) :
    run step (.op a :: code) s = .halted r := by
  rw [run, h]

theorem run_jump {a : α} {s s' : S} {l : L} (h : step a s = .jump l s')
    (code : List (Instr L α)) : run step (.op a :: code) s = resume step l code s' := by
  rw [run, h]
  simp only [resume]
  split <;> simp_all

/-! ## Marks -/

def marks (code : List (Instr L α)) : List L :=
  code.filterMap fun
    | .mark l => some l
    | .op _ => none

omit [DecidableEq L] in
@[simp] theorem marks_nil : marks ([] : List (Instr L α)) = [] := rfl

omit [DecidableEq L] in
@[simp] theorem marks_mark (l : L) (code : List (Instr L α)) :
    marks (.mark l :: code) = l :: marks code := rfl

omit [DecidableEq L] in
@[simp] theorem marks_op (a : α) (code : List (Instr L α)) :
    marks (.op a :: code) = marks code := rfl

omit [DecidableEq L] in
@[simp] theorem marks_append (code code' : List (Instr L α)) :
    marks (code ++ code') = marks code ++ marks code' := List.filterMap_append

theorem after_append {l : L} {code : List (Instr L α)} (h : l ∉ marks code)
    (rest : List (Instr L α)) : after l (code ++ rest) = after l rest := by
  induction code with
  | nil => rfl
  | cons i code ih =>
    cases i with
    | op a => exact ih h
    | mark l' =>
      rw [marks_mark, List.mem_cons, not_or] at h
      rw [List.cons_append, after, if_neg (Ne.symm h.1), ih h.2]

theorem after_eq_none {l : L} {code : List (Instr L α)} (h : l ∉ marks code) :
    after l code = none := by
  simpa [after] using after_append h []

theorem after_mark (l : L) (code : List (Instr L α)) : after l (.mark l :: code) = some code := by
  rw [after, if_pos rfl]

/-- A jump over code without the label's mark, to that mark. -/
theorem resume_append_mark {l : L} {code : List (Instr L α)} (h : l ∉ marks code)
    (rest : List (Instr L α)) (s : S) :
    resume step l (code ++ .mark l :: rest) s = run step rest s := by
  rw [resume, after_append h, after_mark]

theorem resume_append {l : L} {code : List (Instr L α)} (h : l ∉ marks code)
    (rest : List (Instr L α)) (s : S) :
    resume step l (code ++ rest) s = resume step l rest s := by
  rw [resume, resume, after_append h]

theorem resume_unmarked {l : L} {code : List (Instr L α)} (h : l ∉ marks code) (s : S) :
    resume step l code s = .unmarked l := by
  rw [resume, after_eq_none h]

/-- Every label that the code may jump to is marked in it. -/
def AllMarked (targets : α → List L) (code : List (Instr L α)) : Prop :=
  ∀ a, Instr.op a ∈ code → ∀ l ∈ targets a, l ∈ marks code

end ForwardJumps
