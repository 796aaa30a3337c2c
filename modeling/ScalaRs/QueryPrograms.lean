import Mathlib.Data.Nat.Notation

/-! # Programs that ask

A program asks queries and goes on with their answers. Where answers take time, a run
ends exactly if every query that is asked gets its answer. -/
namespace QueryPrograms

inductive Program (Q : Type) (A : Q → Type) (α : Type) where
  | done (a : α)
  | ask (q : Q) (go : A q → Program Q A α)

namespace Program

variable {Q : Type} {A : Q → Type} {α β : Type}

def bind : Program Q A α → (α → Program Q A β) → Program Q A β
  | done a, f => f a
  | ask q go, f => ask q fun a => (go a).bind f

instance : Monad (Program Q A) where
  pure := done
  bind := bind

/-- One query. -/
def query (q : Q) : Program Q A (A q) := ask q done

def run (answer : (q : Q) → Option (A q)) : Program Q A α → Option α
  | done a => some a
  | ask q go => (answer q).bind fun a => (go a).run answer

/-- Answers that are found with enough fuel, and stay the same with more. -/
structure Answers (Q : Type) (A : Q → Type) where
  find : ℕ → (q : Q) → Option (A q)
  mono : ∀ {n m q a}, n ≤ m → find n q = some a → find m q = some a

variable (answers : Answers Q A)

/-- The query has an answer. -/
def Answers.Ends (q : Q) : Prop := ∃ n a, answers.find n q = some a

/-- The queries of a program, when those before are answered. -/
inductive Asks : Program Q A α → Q → Prop
  | here {q : Q} {go : A q → Program Q A α} : Asks (ask q go) q
  | later {q q' : Q} {go : A q → Program Q A α} {n : ℕ} {a : A q}
      (h : answers.find n q = some a) (hlater : Asks (go a) q') : Asks (ask q go) q'

variable {answers}

theorem Answers.unique {n m : ℕ} {q : Q} {a b : A q} (ha : answers.find n q = some a)
    (hb : answers.find m q = some b) : a = b := by
  have ha' := answers.mono (Nat.le_max_left n m) ha
  have hb' := answers.mono (Nat.le_max_right n m) hb
  rw [ha'] at hb'
  exact Option.some.inj hb'

theorem run_mono {p : Program Q A α} {n m : ℕ} (hnm : n ≤ m) {a : α}
    (h : p.run (answers.find n) = some a) : p.run (answers.find m) = some a := by
  induction p with
  | done b => exact h
  | ask q go ih =>
    obtain ⟨b, hb, hgo⟩ := Option.bind_eq_some_iff.mp h
    exact Option.bind_eq_some_iff.mpr ⟨b, answers.mono hnm hb, ih b hgo⟩

/-- A program ends exactly if every query it asks does. -/
theorem run_ends_iff (p : Program Q A α) :
    (∃ n a, p.run (answers.find n) = some a) ↔ ∀ q, Asks answers p q → answers.Ends q := by
  induction p with
  | done a =>
    constructor
    · intro _ q hq
      cases hq
    · intro _
      exact ⟨0, a, rfl⟩
  | ask q go ih =>
    constructor
    · intro h q' hq'
      obtain ⟨n, a, hrun⟩ := h
      obtain ⟨b, hb, hgo⟩ := Option.bind_eq_some_iff.mp hrun
      cases hq' with
      | here => exact ⟨n, b, hb⟩
      | later hfind hlater =>
        rw [← Answers.unique hb hfind] at hlater
        exact (ih b).mp ⟨n, a, hgo⟩ q' hlater
    · intro h
      obtain ⟨n, b, hb⟩ := h q .here
      obtain ⟨m, a, hgo⟩ := (ih b).mpr fun q' hq' => h q' (.later hb hq')
      refine ⟨max n m, a, ?_⟩
      exact Option.bind_eq_some_iff.mpr ⟨b, answers.mono (Nat.le_max_left n m) hb,
        run_mono (Nat.le_max_right n m) hgo⟩

end Program
end QueryPrograms
