import Mathlib.Computability.StateTransition
import Mathlib.Data.Fintype.EquivFin
import Mathlib.Data.Fintype.Pigeonhole
import ScalaRs.WhileLoops

/-! # Walks over finitely many points

A walk goes from a point to the one that `step` names, until there is none. Over
finitely many points it ends exactly if it runs into no cycle. -/
namespace FiniteWalks

open Relation StateTransition

variable {α : Type} (step : α → Option α)

/-- The walk comes to a point without a next one. -/
def Ends (a : α) : Prop := ∃ b, Reaches step a b ∧ step b = none

/-- The walk comes to a point that leads back to itself. -/
def Cycles (a : α) : Prop := ∃ b, Reaches step a b ∧ Reaches₁ step b b

variable {step}

theorem ends_of_none {a : α} (h : step a = none) : Ends step a := ⟨a, .refl, h⟩

theorem ends_of_some {a b : α} (h : step a = some b) : Ends step a ↔ Ends step b := by
  constructor
  · intro hends
    obtain ⟨c, hreach, hnone⟩ := hends
    cases hreach.cases_head with
    | inl heq =>
      rw [← heq, h] at hnone
      cases hnone
    | inr hnext =>
      obtain ⟨b', hb', hreach'⟩ := hnext
      rw [Option.mem_unique hb' h] at hreach'
      exact ⟨c, hreach', hnone⟩
  · intro hends
    obtain ⟨c, hreach, hnone⟩ := hends
    exact ⟨c, .head h hreach, hnone⟩

/-- A point on a cycle leads back to itself after any number of steps. -/
theorem reaches_back {a b : α} (hcycle : Reaches₁ step a a) (h : Reaches step a b) :
    Reaches step b a := by
  induction h with
  | refl => exact .refl
  | tail _ hstep ih =>
    cases ih.cases_head with
    | inl heq =>
      subst heq
      exact reaches₁_fwd hcycle hstep
    | inr hnext =>
      obtain ⟨c, hc, hreach⟩ := hnext
      rw [Option.mem_unique hc hstep] at hreach
      exact hreach

theorem Ends.not_cycles {a : α} (h : Ends step a) : ¬ Cycles step a := by
  intro hcycles
  obtain ⟨b, hb, hcycle⟩ := hcycles
  obtain ⟨c, hc, hnone⟩ := h
  have hlast : ∀ {d}, Reaches step c d → d = c := by
    intro d hd
    cases hd.cases_head with
    | inl heq => exact heq.symm
    | inr hnext =>
      obtain ⟨e, he, _⟩ := hnext
      rw [hnone] at he
      cases he
  have hcb : b = c := by
    cases reaches_total hb hc with
    | inl hbc => exact hlast (reaches_back hcycle hbc)
    | inr hcb => exact hlast hcb
  obtain ⟨e, he, _⟩ := TransGen.head'_iff.mp hcycle
  rw [hcb, hnone] at he
  cases he

/-- The point after `n` steps. -/
def after (step : α → Option α) (a : α) : ℕ → Option α
  | 0 => some a
  | n + 1 => (after step a n).bind step

theorem reaches_of_after {a b : α} {n : ℕ} (h : after step a n = some b) : Reaches step a b := by
  induction n generalizing b with
  | zero =>
    cases h
    exact .refl
  | succ n ih =>
    obtain ⟨c, hc, hstep⟩ := Option.bind_eq_some_iff.mp h
    exact (ih hc).tail hstep

theorem reaches₁_of_after {a b c : α} {n m : ℕ} (hnm : n < m) (hb : after step a n = some b)
    (hc : after step a m = some c) : Reaches₁ step b c := by
  obtain ⟨k, rfl⟩ := Nat.exists_eq_add_of_lt hnm
  clear hnm
  induction k generalizing c with
  | zero =>
    obtain ⟨d, hd, hstep⟩ := Option.bind_eq_some_iff.mp hc
    rw [hb, Option.some.injEq] at hd
    subst hd
    exact .single hstep
  | succ k ih =>
    obtain ⟨d, hd, hstep⟩ := Option.bind_eq_some_iff.mp hc
    exact (ih hd).tail hstep

theorem after_of_not_ends {a : α} (h : ¬ Ends step a) (n : ℕ) : ∃ b, after step a n = some b := by
  induction n with
  | zero => exact ⟨a, rfl⟩
  | succ n ih =>
    obtain ⟨b, hb⟩ := ih
    cases hstep : step b with
    | none => exact absurd ⟨b, reaches_of_after hb, hstep⟩ h
    | some c => exact ⟨c, Option.bind_eq_some_iff.mpr ⟨b, hb, hstep⟩⟩

/-- A walk that does not end visits some point twice. -/
theorem ends_iff [Finite α] {a : α} : Ends step a ↔ ¬ Cycles step a := by
  constructor
  · intro h
    exact h.not_cycles
  · intro hacyclic
    by_contra hends
    choose visit hvisit using after_of_not_ends hends
    obtain ⟨n, m, hne, heq⟩ := Finite.exists_ne_map_eq_of_infinite visit
    apply hacyclic
    cases Nat.lt_or_gt_of_ne hne with
    | inl hlt =>
      have hcycle := reaches₁_of_after hlt (hvisit n) (hvisit m)
      rw [← heq] at hcycle
      exact ⟨visit n, reaches_of_after (hvisit n), hcycle⟩
    | inr hgt =>
      have hcycle := reaches₁_of_after hgt (hvisit m) (hvisit n)
      rw [heq] at hcycle
      exact ⟨visit m, reaches_of_after (hvisit m), hcycle⟩

/-! ## Loops that walk -/

section Loops

open ScalaRs.WhileLoops

variable {σ ρ : Type} {body : σ → Option (Step ρ σ)} {point : σ → α}

/-- A loop whose states lie on a walk, and which stops at its last point, ends if
the walk does. -/
theorem run_ends_iff (hfail : ∀ s, body s ≠ none)
    (hnext : ∀ s s', body s = some (.next s') → step (point s) = some (point s'))
    (hdone : ∀ s r, body s = some (.done r) → step (point s) = none) (s : σ) :
    (∃ n r, run body n s = some r) ↔ Ends step (point s) := by
  constructor
  · intro h
    obtain ⟨n, r, hrun⟩ := h
    induction n generalizing s with
    | zero => cases hrun
    | succ n ih =>
      cases hbody : body s with
      | none => exact absurd hbody (hfail s)
      | some next =>
        cases next with
        | done r' => exact ends_of_none (hdone s r' hbody)
        | next s' =>
          rw [run_next hbody] at hrun
          exact (ends_of_some (hnext s s' hbody)).mpr (ih s' hrun)
  · intro h
    obtain ⟨b, hreach, hnone⟩ := h
    generalize ha : point s = a at hreach
    induction hreach using ReflTransGen.head_induction_on generalizing s with
    | refl =>
      cases hbody : body s with
      | none => exact absurd hbody (hfail s)
      | some next =>
        cases next with
        | done r => exact ⟨1, r, run_done hbody 0⟩
        | next s' =>
          have hsome := hnext s s' hbody
          rw [ha, hnone] at hsome
          cases hsome
    | head hstep _ ih =>
      cases hbody : body s with
      | none => exact absurd hbody (hfail s)
      | some next =>
        cases next with
        | done r => exact ⟨1, r, run_done hbody 0⟩
        | next s' =>
          have hsome := hnext s s' hbody
          rw [ha] at hsome
          obtain ⟨n, r, hrun⟩ := ih s' (Option.mem_unique hsome hstep)
          refine ⟨n + 1, r, ?_⟩
          rw [run_next hbody]
          exact hrun

end Loops

end FiniteWalks
