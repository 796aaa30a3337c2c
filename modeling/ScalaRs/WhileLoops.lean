import Mathlib.Order.Basic

/-! # Fuelled while loops

A loop body either finishes with a result, moves to the next state, or fails
(`none`: an `unwrap` of nothing, an index out of range). A run answers `none`
when the body fails and when the fuel is spent; the termination rule below
excludes both at once. -/
namespace ScalaRs.WhileLoops

universe u v

inductive Step (ρ : Type u) (σ : Type v) where
  | done (result : ρ)
  | next (state : σ)

variable {ρ : Type u} {σ : Type v}

def run (body : σ → Option (Step ρ σ)) : ℕ → σ → Option ρ
  | 0, _ => none
  | fuel + 1, s => match body s with
    | none => none
    | some (.done r) => some r
    | some (.next s') => run body fuel s'

variable {body : σ → Option (Step ρ σ)}

section
attribute [local simp] run
end

theorem run_done {s : σ} {r : ρ} (h : body s = some (.done r)) (n : ℕ) :
    run body (n + 1) s = some r := by simp [run, h]

theorem run_next {s s' : σ} (h : body s = some (.next s')) (n : ℕ) :
    run body (n + 1) s = run body n s' := by simp [run, h]

/-- More fuel never changes a result. -/
theorem run_mono {n m : ℕ} (hnm : n ≤ m) {s : σ} {r : ρ} (h : run body n s = some r) :
    run body m s = some r := by
  induction n generalizing s m with
  | zero => simp [run] at h
  | succ n ih =>
    obtain ⟨k, rfl⟩ : ∃ k, m = k + 1 := ⟨m - 1, by omega⟩
    cases hb : body s with
    | none => simp [run, hb] at h
    | some o =>
      cases o with
      | done r' => simpa [run, hb] using h
      | next s' =>
        rw [run_next hb] at h ⊢
        exact ih (by omega) h

/-- What every step keeps, and every exit turns into `Q`, holds of the result. -/
theorem invariant_of_run {I : σ → Prop} {Q : ρ → Prop}
    (hnext : ∀ s s', I s → body s = some (.next s') → I s')
    (hdone : ∀ s r, I s → body s = some (.done r) → Q r)
    {n : ℕ} {s : σ} {r : ρ} (hs : I s) (h : run body n s = some r) : Q r := by
  induction n generalizing s with
  | zero => simp [run] at h
  | succ n ih =>
    cases hb : body s with
    | none => simp [run, hb] at h
    | some o =>
      cases o with
      | done r' =>
        rw [run_done hb, Option.some.injEq] at h
        exact h ▸ hdone s r' hs hb
      | next s' =>
        rw [run_next hb] at h
        exact ih (hnext s s' hs hb) h

/-- A body that never fails under `I` and lowers `μ` at every step finishes
within `μ s + 1` steps. -/
theorem run_terminates {I : σ → Prop} (μ : σ → ℕ)
    (hstep : ∀ s, I s → ∃ o, body s = some o ∧ ∀ s', o = .next s' → I s' ∧ μ s' < μ s)
    {n : ℕ} {s : σ} (hs : I s) (hn : μ s < n) : ∃ r, run body n s = some r := by
  induction n generalizing s with
  | zero => omega
  | succ n ih =>
    obtain ⟨o, hb, ho⟩ := hstep s hs
    cases o with
    | done r => exact ⟨r, run_done hb n⟩
    | next s' =>
      obtain ⟨hi, hlt⟩ := ho s' rfl
      rw [run_next hb]
      exact ih hi (by omega)

end ScalaRs.WhileLoops
