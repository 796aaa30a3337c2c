import ScalaRs.LinearizationQueries
import Mathlib.Data.Fintype.Prod

/-! # Where the truncation counter wraps around

A ladder of `32` doublings below a class, closed into a cycle, truncates the
walk of that class `2 ^ 32` times: the counter stands where it started, and the
class is published although it lies on the cycle. -/
namespace ScalaRs.Linearization.SymbolTable

/-- `(k, false)` is the `k`th rung, `(k, true)` the second way up from it. -/
abbrev Rung := Fin 33 × Bool

def ladderParents (c : Rung) : List Rung :=
  if h : c.1.val < 32 then
    let next : Rung := (⟨c.1 + 1, by omega⟩, false)
    if c.2 then [next] else [(c.1, true), next]
  else [(0, false)]

def ladder : SymbolTable Rung := ofParents ladderParents

theorem below_concat {path : List Rung} {k next : Fin 33} (h : ∀ x ∈ path, x.1 < next)
    (hk : k < next) (b : Bool) : ∀ x ∈ path ++ [(k, b)], x.1 < next := by
  intro x hx
  rcases List.mem_append.mp hx with hx | hx
  · exact h x hx
  · rw [List.mem_singleton.mp hx]
    exact hk

theorem truncationCount_ladder (n : ℕ) : ∀ (k : Fin 33) (path : List Rung), k.val + n = 32 →
    (0, false) ∈ path → (∀ x ∈ path, x.1 < k) →
    ladder.truncationCount (k, false) path = 2 ^ n := by
  induction n with
  | zero =>
    intro k path hk h0 hpath
    have hmem : (k, false) ∉ path := fun h => lt_irrefl k (hpath _ h)
    rw [truncationCount_notMem hmem, ladder, parentsOf_ofParents, ladderParents,
      dif_neg (by simp; omega)]
    simp [truncationCount_mem, h0]
  | succ n ih =>
    intro k path hk h0 hpath
    have hlt : k.val < 32 := by omega
    have hmem : (k, false) ∉ path := fun h => lt_irrefl k (hpath _ h)
    have hmem' : (k, true) ∉ path ++ [(k, false)] := by
      simpa using fun h => lt_irrefl k (hpath _ h)
    let next : Fin 33 := ⟨k + 1, by omega⟩
    have hnext : k < next := Fin.mk_lt_mk.mpr (by omega)
    have hbelow : ∀ x ∈ path, x.1 < next := fun x hx => (hpath x hx).trans hnext
    have hup : ∀ path', (∀ x ∈ path', x.1 < next) → (0, false) ∈ path' →
        ladder.truncationCount (next, false) path' = 2 ^ n :=
      fun path' hp h => ih next path' (by simp only [next]; omega) h hp
    have hdirect : ladder.truncationCount (next, false) (path ++ [(k, false)]) = 2 ^ n := by
      apply hup _ (below_concat hbelow hnext false) (by simp [h0])
    have hsecond : ladder.truncationCount (k, true) (path ++ [(k, false)]) = 2 ^ n := by
      rw [truncationCount_notMem hmem']
      have hparents : ladder.parentsOf (k, true) = [(next, false)] := by
        simp [ladder, parentsOf_ofParents, ladderParents, hlt, next]
      rw [hparents, List.map_singleton, List.sum_singleton]
      apply hup _ (below_concat (below_concat hbelow hnext false) hnext true) (by simp [h0])
    rw [truncationCount_notMem hmem]
    have hparents : ladder.parentsOf (k, false) = [(k, true), (next, false)] := by
      simp [ladder, parentsOf_ofParents, ladderParents, hlt, next]
    rw [hparents]
    simp only [List.map_cons, List.map_nil, List.sum_cons, List.sum_nil, hdirect, hsecond]
    omega

theorem parentsOf_ladder_zero : ladder.parentsOf (0, false) = [(0, true), (1, false)] := by
  rw [ladder, parentsOf_ofParents]
  rfl

theorem parentsOf_ladder_second : ladder.parentsOf (0, true) = [(1, false)] := by
  rw [ladder, parentsOf_ofParents]
  rfl

theorem truncationCount_ladder_parents :
    ladder.truncationCount (0, true) [(0, false)] = 2 ^ 31 ∧
      ladder.truncationCount (1, false) [(0, false)] = 2 ^ 31 := by
  constructor
  · rw [truncationCount_notMem (by decide), parentsOf_ladder_second, List.map_singleton,
      List.sum_singleton]
    exact truncationCount_ladder 31 1 _ rfl (by decide) (by decide)
  · exact truncationCount_ladder 31 1 _ rfl (by decide) (by decide)

theorem not_acyclicFrom_ladder : ¬ ladder.AcyclicFrom (0, false) := by
  intro hacyclic
  have hzero : ladder.truncationCount (1, false) [(0, false)] = 0 := by
    have hparent : (1, false) ∈ ladder.parentsOf (0, false) := by
      rw [parentsOf_ladder_zero]
      simp
    apply Chain.truncationCount_eq_zero _ (hacyclic.parent hparent)
    intro x hx
    rw [List.mem_singleton.mp hx]
    exact .single hparent
  rw [truncationCount_ladder_parents.2] at hzero
  exact absurd hzero (by decide)

/-- One query on a fresh table publishes a class that lies on a cycle. -/
theorem linearize_publishes_cycle :
    let after := (ladder.linearize ⟨0, fun _ => none⟩ (0, false)).2
    (ladder.cachedLinearization after (0, false)).isSome ∧ ¬ ladder.AcyclicFrom (0, false) := by
  refine ⟨?_, not_acyclicFrom_ladder⟩
  have hempty : ladder.Settled (ladder.cachedLinearization ⟨0, fun _ => none⟩) := by
    simp [Settled, cachedLinearization]
  have hchain : ∀ p ∈ ladder.parentsOf (0, false), ladder.Chain [(0, false)] p := by
    intro p hp x hx
    rw [List.mem_singleton.mp hx]
    exact .single hp
  rw [parentsOf_ladder_zero] at hchain
  have hresolved : ∀ c, ladder.hasUnresolvedParent c = false :=
    hasUnresolvedParent_ofParents ladderParents
  -- the two parents truncate `2 ^ 31` times each
  have hsecond := lin_spec hempty _ rfl (0, true) ⟨fun _ => none, 0, 0⟩ (by simp [Settled])
    (hchain _ (by simp)) (by rw [truncationCount_ladder_parents.1]; decide)
  have hnext := lin_spec hempty _ rfl (1, false) _ hsecond.settled
    (hchain _ (by simp)) (by rw [truncationCount_ladder_parents.2]; decide)
  have htrunc := hnext.truncations
  have hunres := hnext.unresolved hresolved
  rw [hsecond.truncations, truncationCount_ladder_parents.1, truncationCount_ladder_parents.2]
    at htrunc
  rw [hsecond.unresolved hresolved] at hunres
  have hlin : ((ladder.lin ⟨0, fun _ => none⟩ (0, false) [] ⟨fun _ => none, 0, 0⟩).2.memo
      (0, false)).isSome := by
    have hnone : ladder.cachedLinearization ⟨0, fun _ => none⟩ (0, false) = none := by
      simp [cachedLinearization]
    rw [lin, parentsOf_ladder_zero]
    simp only [hnone, hresolved, linAll, List.not_mem_nil, dite_false, Bool.false_eq_true,
      if_false, List.nil_append]
    rw [if_pos (Prod.ext (htrunc.trans (by decide)) hunres)]
    simp [Linearizations.insert]
  have hnone : ∀ c, ladder.cachedLinearization ⟨0, fun _ => none⟩ c = none := by
    simp [cachedLinearization]
  simp only [linearize, linearizeSettled, hnone, publishLinearizations]
  rw [if_neg fun hall => by simp [hall] at hlin]
  simpa [cachedLinearization, ladder, ofParents] using hlin

end ScalaRs.Linearization.SymbolTable
