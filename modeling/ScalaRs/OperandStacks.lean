import Mathlib.Data.Option.Basic
import Mathlib.Data.List.Basic
import Mathlib.Tactic.Cases

/-! # Straight-line code on a stack

An instruction takes what it needs from the top of a stack and fails where that is missing. -/
namespace ScalaRs.OperandStacks

variable {ι τ : Type} (exec : ι → List τ → Option (List τ))

/-- The stack after a list of instructions. -/
def run : List ι → List τ → Option (List τ)
  | [], s => some s
  | i :: code, s => (exec i s).bind (run code)

/-- The code needs nothing from the stack and leaves one value. -/
def Delivers (code : List ι) : Prop := ∃ t, run exec code [] = some [t]

/-- An instruction that runs on a stack runs on a deeper one and leaves what is below. -/
def Framed : Prop := ∀ i s t below, exec i s = some t → exec i (s ++ below) = some (t ++ below)

@[simp] theorem run_nil (s : List τ) : run exec [] s = some s := rfl

@[simp] theorem run_cons (i : ι) (code : List ι) (s : List τ) :
    run exec (i :: code) s = (exec i s).bind (run exec code) := rfl

theorem run_append (c d : List ι) (s : List τ) :
    run exec (c ++ d) s = (run exec c s).bind (run exec d) := by
  induction c generalizing s with
  | nil => rfl
  | cons i c ih =>
      rw [List.cons_append, run_cons, run_cons, Option.bind_assoc]
      congr 1
      funext t
      apply ih

variable {exec}

theorem Framed.run (h : Framed exec) {code : List ι} {s t : List τ} (below : List τ)
    (hrun : run exec code s = some t) : OperandStacks.run exec code (s ++ below) = some (t ++ below) := by
  induction code generalizing s with
  | nil =>
      cases hrun
      rfl
  | cons i code ih =>
      obtain ⟨mid, hi, hcode⟩ := Option.bind_eq_some_iff.mp hrun
      rw [run_cons, h i s mid below hi]
      exact ih hcode

theorem Framed.run_of_delivers (h : Framed exec) {code : List ι} (hcode : Delivers exec code)
    (below : List τ) : ∃ t, OperandStacks.run exec code below = some (t :: below) := by
  obtain ⟨t, ht⟩ := hcode
  exact ⟨t, h.run below ht⟩

/-- Blocks of code that leave a value each leave as many values as there are blocks. -/
theorem Framed.run_flatten (h : Framed exec) {blocks : List (List ι)}
    (hblocks : ∀ b ∈ blocks, Delivers exec b) (below : List τ) :
    ∃ values, values.length = blocks.length ∧
      OperandStacks.run exec blocks.flatten below = some (values ++ below) := by
  induction blocks generalizing below with
  | nil => exact ⟨[], rfl, rfl⟩
  | cons b blocks ih =>
      obtain ⟨t, ht⟩ := h.run_of_delivers (hblocks b List.mem_cons_self) below
      obtain ⟨values, hlength, hrun⟩ :=
        ih (fun c hc => hblocks c (List.mem_cons_of_mem b hc)) (t :: below)
      refine ⟨values ++ [t], by simp [hlength], ?_⟩
      rw [List.flatten_cons, run_append, ht, Option.bind_some, hrun, List.append_assoc]
      rfl

/-! ## Code that changes the value on top -/

variable (exec) in
/-- The code makes another value of the one on top, and leaves none where there is none. -/
structure Converts (code : List ι) : Prop where
  top : ∀ c s, ∃ d, run exec code (c :: s) = some (d :: s)
  empty : ∀ s, run exec code [] = some s → s = []

theorem Converts.nil : Converts exec [] := by
  constructor
  · intro c s
    exact ⟨c, rfl⟩
  · intro s h
    cases h
    rfl

theorem Converts.append {c d : List ι} (hc : Converts exec c) (hd : Converts exec d) :
    Converts exec (c ++ d) := by
  constructor
  · intro x s
    obtain ⟨y, hy⟩ := hc.top x s
    obtain ⟨z, hz⟩ := hd.top y s
    exact ⟨z, by rw [run_append, hy, Option.bind_some, hz]⟩
  · intro s h
    rw [run_append] at h
    obtain ⟨mid, hmid, hrun⟩ := Option.bind_eq_some_iff.mp h
    cases hc.empty mid hmid
    exact hd.empty s hrun

/-- One instruction that takes a value and leaves one. -/
theorem Converts.one {i : ι} (htop : ∀ c s, ∃ d, exec i (c :: s) = some (d :: s))
    (hempty : exec i [] = none) : Converts exec [i] := by
  constructor
  · intro c s
    obtain ⟨d, hd⟩ := htop c s
    exact ⟨d, by rw [run_cons, hd]; rfl⟩
  · intro s h
    rw [run_cons, hempty] at h
    cases h

end ScalaRs.OperandStacks
