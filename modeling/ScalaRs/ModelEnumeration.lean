import ScalaRs.PropositionSolvables
import ScalaRs.TseitinSolverCorrectness

/-! # Enumeration of the models of a solvable formula

Each round blocks the relevant part of the model it found, so the solutions
cover the assignments of the formula and no two of them overlap. -/
namespace ScalaRs.Patmat
open ClauseSemantics ScalaSets WhileLoops

/-- The relevant symbols' truth values in assignment order, and the symbols left
unassigned. -/
structure Solution where
  model : List (SymId × Bool)
  unassigned : List SymId
  deriving DecidableEq, Repr

/-- A later binding of the same key keeps its place. -/
def bind (dedup : List (SymId × Bool)) (p : SymId × Bool) : List (SymId × Bool) :=
  if dedup.any (·.1 = p.1) then dedup.map fun q => if q.1 = p.1 then (q.1, p.2) else q
  else dedup ++ [p]

def solutionModel (m : SymbolMapping) (model : List Lit) : List (SymId × Bool) :=
  (model.filterMap fun l => (m.symForVar.lookup l.var).map (·, l.positive)).foldl bind []

/-- The negated model, relevant variables only. -/
def blockingClause (m : SymbolMapping) (model : List Lit) : Clause :=
  ScalaSet.listFrom ((model.filter fun l => l.var ∈ m.relevant).map Lit.neg)

/-- The loop of `find_all_models`, with `depth` rounds left. -/
def enumerate (fuel : ℕ) (m : SymbolMapping) :
    ℕ → List Clause → List Solution → Option (List Solution × Bool)
  | 0, _, models => some (models, true)
  | depth + 1, clauses, models => do
    match ← findTseitinModel fuel clauses with
    | none => return (models, false)
    | some model =>
      let unassigned := m.relevant.filter fun x => !model.any (·.var = x)
      let solution : Solution :=
        { model := solutionModel m model
          unassigned := ← unassigned.mapM fun v : ℕ => m.symForVar.lookup (v : ℤ) }
      enumerate fuel m depth (clauses ++ [blockingClause m model]) (solution :: models)

/-- The flag tells whether the recursion budget ran out. `none` is a solver run
out of fuel, or an unmapped variable's index. -/
def findAllModels (fuel : ℕ) (s : Solvable) : Option (List Solution × Bool) :=
  enumerate fuel s.mapping Proposition.maxDpllDepth s.cnf []

/-- The solution's pairs hold under an assignment of the numbered variables. -/
def Solution.Agrees (m : SymbolMapping) (σ : ℕ → Bool) (solution : Solution) : Prop :=
  ∀ p ∈ solution.model, ∃ l, m.lit p.1 = some l ∧ (Holds σ l ↔ p.2 = true)

/-- The solution's pairs hold under a total valuation of the symbols. -/
def Solution.Admits (solution : Solution) (v : SymId → Bool) : Prop :=
  ∀ p ∈ solution.model, v p.1 = p.2

section ListMaps

variable {v : SymId → Bool}

/-- Bindings that follow one valuation never change a bound value. -/
theorem bind_of_values {dedup : List (SymId × Bool)} {q : SymId × Bool}
    (h : ∀ p ∈ dedup, v p.1 = p.2) (hq : v q.1 = q.2) :
    (∀ p, p ∈ bind dedup q ↔ p ∈ dedup ∨ p = q) := by
  intro p
  unfold bind
  split
  case isFalse => simp
  case isTrue hany =>
    obtain ⟨r, hr, hrq⟩ := List.any_eq_true.mp hany
    have hkey : ∀ x ∈ dedup, x.1 = q.1 → x = q := fun x hx hxq =>
      Prod.ext hxq (by rw [← h x hx, hxq, hq])
    obtain rfl := hkey r hr (by simpa using hrq)
    have hmap : (dedup.map fun x => if x.1 = r.1 then (x.1, r.2) else x) = dedup := by
      refine (List.map_congr_left fun x hx => ?_).trans (List.map_id dedup)
      split
      case isTrue hx' => rw [hkey x hx hx', id]
      case isFalse => rfl
    rw [hmap]
    exact ⟨.inl, fun hp => hp.elim id fun e => e ▸ hr⟩

theorem mem_foldl_bind {ps dedup : List (SymId × Bool)} (h : ∀ p ∈ dedup, v p.1 = p.2)
    (hps : ∀ p ∈ ps, v p.1 = p.2) (p : SymId × Bool) :
    p ∈ ps.foldl bind dedup ↔ p ∈ dedup ∨ p ∈ ps := by
  induction ps generalizing dedup with
  | nil => simp
  | cons q ps ih =>
    have hmem := bind_of_values h (hps q (by simp))
    rw [List.foldl_cons, ih (fun x hx => ?_) fun x hx => hps x (by simp [hx]), hmem,
      List.mem_cons, or_assoc]
    rcases (hmem x).mp hx with hx | rfl
    · exact h x hx
    · exact hps x (by simp)

end ListMaps

section Models

variable {symbols : List SymId} (hnd : symbols.Nodup)

include hnd

/-- The pairs of a solution are those of the model's relevant literals. -/
theorem mem_solutionModel {σ : ℕ → Bool} {model : List Lit} (hσ : Extends σ model)
    (p : SymId × Bool) :
    p ∈ solutionModel (SymbolMapping.new symbols) model ↔
      ∃ l ∈ model, ∃ i : ℕ, symbols[i]? = some p.1 ∧ l.var = i + 1 ∧ l.positive = p.2 := by
  have hvalue : ∀ p : SymId × Bool, (∃ l ∈ model, ∃ i : ℕ, symbols[i]? = some p.1 ∧ l.var = i + 1 ∧
      l.positive = p.2) → valuation symbols σ p.1 = p.2 := by
    rintro ⟨y, b⟩ ⟨l, hl, i, hi, hvar, rfl⟩
    have hlit := (SymbolMapping.lit_new hnd).mpr ⟨i, hi, rfl⟩
    simp only [valuation, hlit, Lit.var_succ, ← hvar]
    exact hσ l hl
  have hmem : ∀ p : SymId × Bool, p ∈ (model.filterMap fun l =>
      ((SymbolMapping.new symbols).symForVar.lookup l.var).map (·, l.positive)) ↔
      ∃ l ∈ model, ∃ i : ℕ, symbols[i]? = some p.1 ∧ l.var = i + 1 ∧ l.positive = p.2 := by
    rintro ⟨y, b⟩
    simp only [List.mem_filterMap, Option.map_eq_some_iff, Prod.mk.injEq,
      SymbolMapping.symForVar_new hnd]
    refine exists_congr fun l => and_congr_right fun _ => ?_
    constructor
    · rintro ⟨y, ⟨i, hi, hvar⟩, rfl, rfl⟩
      exact ⟨i, hi, by omega, rfl⟩
    · rintro ⟨i, hi, hvar, rfl⟩
      exact ⟨y, ⟨i, hi, by omega⟩, rfl, rfl⟩
  rw [solutionModel, mem_foldl_bind (v := valuation symbols σ) (by simp)
    fun p hp => hvalue p ((hmem p).mp hp), hmem]
  simp

/-- A solution agrees with an assignment that makes its relevant literals true. -/
theorem agrees_iff {solution : Solution} {model : List Lit} (hcons : Consistent model)
    (hsol : solution.model = solutionModel (SymbolMapping.new symbols) model) (τ : ℕ → Bool) :
    solution.Agrees (SymbolMapping.new symbols) τ ↔
      ∀ l ∈ model, l.var ∈ (SymbolMapping.new symbols).relevant → Holds τ l := by
  obtain ⟨σ, hσ⟩ := hcons.exists_extends
  simp only [Solution.Agrees, hsol]
  constructor
  · intro h l hl hrel
    obtain ⟨hpos, hle⟩ := (SymbolMapping.mem_relevant_new hnd).mp hrel
    have hi : symbols[l.var - 1]? = some symbols[l.var - 1] := List.getElem?_eq_getElem (by omega)
    obtain ⟨l', hl', hholds⟩ := h (_, l.positive)
      ((mem_solutionModel hnd hσ _).mpr ⟨l, hl, l.var - 1, hi, by omega, rfl⟩)
    obtain rfl := Option.some_inj.mp (hl'.symm.trans ((SymbolMapping.lit_new hnd).mpr ⟨_, hi, rfl⟩))
    simp only [Holds, literal_var, literal_pos, Lit.var_succ, Lit.positive_succ,
      Nat.sub_add_cancel hpos] at hholds ⊢
    exact Bool.eq_iff_iff.mpr hholds
  · intro h p hp
    obtain ⟨l, hl, i, hi, hvar, hpos⟩ := (mem_solutionModel hnd hσ p).mp hp
    refine ⟨⟨i + 1⟩, (SymbolMapping.lit_new hnd).mpr ⟨i, hi, rfl⟩, ?_⟩
    have hτ := h l hl ((SymbolMapping.mem_relevant_new hnd).mpr
      ⟨by omega, hvar ▸ (List.getElem?_eq_some_iff.mp hi).1⟩)
    simp only [Holds, literal_var, literal_pos, hvar, hpos, Lit.var_succ, Lit.positive_succ] at hτ ⊢
    rw [hτ]

/-- The blocking clause of a model excludes the assignments its solution agrees with. -/
theorem satClause_blockingClause {solution : Solution} {model : List Lit}
    (hcons : Consistent model) (hnz : ∀ l ∈ model, l.v ≠ 0)
    (hsol : solution.model = solutionModel (SymbolMapping.new symbols) model) (τ : ℕ → Bool) :
    SatClause (L := Lit) τ (blockingClause (SymbolMapping.new symbols) model) ↔
      ¬ solution.Agrees (SymbolMapping.new symbols) τ := by
  rw [agrees_iff hnd hcons hsol]
  simp only [SatClause, blockingClause, ScalaSet.mem_listFrom, List.mem_map, List.mem_filter,
    decide_eq_true_eq]
  constructor
  · rintro ⟨_, ⟨l, ⟨hl, hrel⟩, rfl⟩, hτ⟩ hall
    exact (holds_neg (hnz l hl) τ).mp hτ (hall l hl hrel)
  · intro h
    push Not at h
    obtain ⟨l, hl, hrel, hτ⟩ := h
    exact ⟨l.neg, ⟨l, ⟨hl, hrel⟩, rfl⟩, (holds_neg (hnz l hl) τ).mpr hτ⟩

theorem agrees_iff_admits {solution : Solution} {model : List Lit} (hcons : Consistent model)
    (hsol : solution.model = solutionModel (SymbolMapping.new symbols) model) (τ : ℕ → Bool) :
    solution.Agrees (SymbolMapping.new symbols) τ ↔ solution.Admits (valuation symbols τ) := by
  obtain ⟨σ, hσ⟩ := hcons.exists_extends
  refine forall₂_congr fun p hp => ?_
  rw [hsol] at hp
  obtain ⟨l, hl, i, hi, hvar, hpos⟩ := (mem_solutionModel hnd hσ p).mp hp
  have hlit := (SymbolMapping.lit_new hnd).mpr ⟨i, hi, rfl⟩
  have hvalue : valuation symbols τ p.1 = τ (i + 1) := by simp [valuation, hlit]
  rw [hvalue, Bool.eq_iff_iff]
  simp [hlit, Holds]

/-- The solutions found so far: they cover the assignments that the blocking
clauses exclude, and no others. -/
structure Enumerated (symbols : List SymId) (cnf clauses : List Clause)
    (models : List Solution) : Prop where
  nonZero : NonZero clauses
  clauses_iff : ∀ σ, Satisfies (L := Lit) σ clauses ↔ Satisfies (L := Lit) σ cnf ∧
    ∀ solution ∈ models, ¬ solution.Agrees (SymbolMapping.new symbols) σ
  sound : ∀ solution ∈ models, ∃ σ, Satisfies (L := Lit) σ cnf ∧
    solution.Agrees (SymbolMapping.new symbols) σ
  admits : ∀ solution ∈ models, ∀ σ,
    solution.Agrees (SymbolMapping.new symbols) σ ↔ solution.Admits (valuation symbols σ)
  mapped : ∀ solution ∈ models, ∀ p ∈ solution.model, p.1 ∈ symbols
  disjoint : models.Pairwise fun a b => ¬ ∃ v, a.Admits v ∧ b.Admits v

/-- An assignment with the values of `v` for the numbered symbols, and those of
`σ` elsewhere. -/
def mixed (symbols : List SymId) (v : SymId → Bool) (σ : ℕ → Bool) (x : ℕ) : Bool :=
  if x ∈ (SymbolMapping.new symbols).relevant then assignmentOf symbols v x else σ x

theorem valuation_mixed (v : SymId → Bool) (σ : ℕ → Bool) {y : SymId} (hy : y ∈ symbols) :
    valuation symbols (mixed symbols v σ) y = v y := by
  obtain ⟨i, hi⟩ := List.mem_iff_getElem?.mp hy
  have hlit := (SymbolMapping.lit_new hnd).mpr ⟨i, hi, rfl⟩
  have hrel : i + 1 ∈ (SymbolMapping.new symbols).relevant :=
    (SymbolMapping.mem_relevant_new hnd).mpr ⟨by omega, (List.getElem?_eq_some_iff.mp hi).1⟩
  simp [valuation, hlit, mixed, hrel, assignmentOf, hi]

theorem Enumerated.add {cnf clauses : List Clause} {models : List Solution}
    (h : Enumerated symbols cnf clauses models) {solution : Solution} {model : List Lit}
    (hmodel : ModelSpec clauses (some model))
    (hsol : solution.model = solutionModel (SymbolMapping.new symbols) model) :
    Enumerated symbols cnf (clauses ++ [blockingClause (SymbolMapping.new symbols) model])
      (solution :: models) := by
  have hcons := hmodel.consistent model rfl
  have hnz := hmodel.nonzero model rfl
  have hsound := hmodel.sound model rfl
  have hadmits := agrees_iff_admits hnd hcons hsol
  obtain ⟨σ₀, hσ₀⟩ := hcons.exists_extends
  have hmapped : ∀ p ∈ solution.model, p.1 ∈ symbols := by
    intro p hp
    obtain ⟨l, hl, i, hi, -⟩ := (mem_solutionModel hnd hσ₀ p).mp (hsol ▸ hp)
    exact List.mem_of_getElem? hi
  refine ⟨?_, fun σ => ?_, ?_, List.forall_mem_cons.mpr ⟨hadmits, h.admits⟩,
    List.forall_mem_cons.mpr ⟨hmapped, h.mapped⟩, ?_⟩
  · intro c hc
    rcases List.mem_append.mp hc with hc | hc
    · exact h.nonZero c hc
    · rw [List.mem_singleton.mp hc]
      intro l hl
      simp only [blockingClause, ScalaSet.mem_listFrom, List.mem_map, List.mem_filter] at hl
      obtain ⟨x, ⟨hx, -⟩, rfl⟩ := hl
      simpa using hnz x hx
  · rw [satisfies_append, h.clauses_iff, satisfies_cons, satClause_blockingClause hnd hcons hnz hsol,
      List.forall_mem_cons]
    simp only [satisfies_nil, and_true]
    tauto
  · refine List.forall_mem_cons.mpr ⟨⟨σ₀, ((h.clauses_iff σ₀).mp (hsound σ₀ hσ₀)).1, ?_⟩, h.sound⟩
    exact (agrees_iff hnd hcons hsol σ₀).mpr fun l hl _ => hσ₀ l hl
  · refine List.pairwise_cons.mpr ⟨?_, h.disjoint⟩
    rintro b hb ⟨v, hv, hbv⟩
    -- the common valuation, with the auxiliary variables of the new model
    let τ := mixed symbols v σ₀
    have htransfer : ∀ s : Solution, (∀ p ∈ s.model, p.1 ∈ symbols) → s.Admits v →
        s.Admits (valuation symbols τ) := fun s hs hv p hp => by
      rw [valuation_mixed hnd v σ₀ (hs p hp), hv p hp]
    have hrelevant := (agrees_iff hnd hcons hsol τ).mp ((hadmits τ).mpr (htransfer _ hmapped hv))
    have hτ : Extends τ model := by
      intro l hl
      by_cases hrel : l.var ∈ (SymbolMapping.new symbols).relevant
      · exact hrelevant l hl hrel
      · simpa [Holds, τ, mixed, hrel] using hσ₀ l hl
    exact ((h.clauses_iff τ).mp (hsound τ hτ)).2 b hb
      ((h.admits b hb τ).mpr (htransfer b (h.mapped b hb) hbv))

/-- Every unassigned relevant variable has a symbol. -/
theorem exists_unassigned {xs : List ℕ} (hxs : ∀ x ∈ xs, x ∈ (SymbolMapping.new symbols).relevant) :
    ∃ unassigned, (xs.mapM fun x : ℕ => (SymbolMapping.new symbols).symForVar.lookup (x : ℤ)) =
      some unassigned := by
  induction xs with
  | nil => exact ⟨[], rfl⟩
  | cons x xs ih =>
    obtain ⟨ss, hss⟩ := ih fun y hy => hxs y (by simp [hy])
    obtain ⟨hpos, hle⟩ := (SymbolMapping.mem_relevant_new hnd).mp (hxs x (by simp))
    have hx := (SymbolMapping.symForVar_new hnd (x := (x : ℤ))).mpr
      ⟨x - 1, List.getElem?_eq_getElem (by omega), by omega⟩
    exact ⟨symbols[x - 1] :: ss, by simp [List.mapM_cons, hx, hss]⟩

theorem enumerate_spec {cnf : List Clause} (depth : ℕ) :
    ∀ {clauses : List Clause} {models : List Solution}, Enumerated symbols cnf clauses models →
      ∃ fuel r, (∀ n ≥ fuel, enumerate n (SymbolMapping.new symbols) depth clauses models = some r) ∧
        ∃ clauses', Enumerated symbols cnf clauses' r.1 ∧
          (r.2 = false → ¬ Satisfiable (L := Lit) clauses') := by
  induction depth with
  | zero =>
    intro clauses models h
    exact ⟨0, (models, true), fun _ _ => rfl, clauses, h, by simp⟩
  | succ depth ih =>
    intro clauses models h
    obtain ⟨fuel, r, hr⟩ := findTseitinModel_terminates h.nonZero
    have hspec := findTseitinModel_spec h.nonZero hr
    have hrun : ∀ n ≥ fuel, findTseitinModel n clauses = some r := fun n hn => run_mono hn hr
    cases r with
    | none =>
      refine ⟨fuel, (models, false), fun n hn => ?_, clauses, h, fun _ => hspec.unsat.mp rfl⟩
      simp [enumerate, hrun n hn]
    | some model =>
      have hrel : ∀ x ∈ (SymbolMapping.new symbols).relevant.filter fun x => !model.any (·.var = x),
          x ∈ (SymbolMapping.new symbols).relevant := fun x hx => (List.mem_filter.mp hx).1
      obtain ⟨unassigned, hun⟩ := exists_unassigned hnd hrel
      let solution : Solution := ⟨solutionModel (SymbolMapping.new symbols) model, unassigned⟩
      have hadd : Enumerated symbols cnf _ (solution :: models) := h.add hnd hspec rfl
      obtain ⟨fuel', r', hr', hres⟩ := ih hadd
      refine ⟨max fuel fuel', r', fun n hn => ?_, hres⟩
      rw [enumerate, hrun n (le_of_max_le_left hn)]
      simp only [Option.bind_eq_bind, Option.bind_some, hun]
      exact hr' n (le_of_max_le_right hn)

/-- The enumeration terminates. Unless its budget ran out, every assignment of the
formula agrees with a solution; every solution agrees with such an assignment,
and no total valuation of the symbols is common to two of them. -/
theorem findAllModels_correct (s : Solvable) (hmapping : s.mapping = SymbolMapping.new symbols)
    (hcnf : NonZero s.cnf) :
    ∃ fuel models exceeded, (∀ n ≥ fuel, findAllModels n s = some (models, exceeded)) ∧
      (exceeded = false →
        (∀ σ : ℕ → Bool, Satisfies (L := Lit) σ s.cnf →
          ∃ solution ∈ models, Solution.Agrees s.mapping σ solution) ∧
        (∀ solution ∈ models, ∃ σ : ℕ → Bool, Satisfies (L := Lit) σ s.cnf ∧
          Solution.Agrees s.mapping σ solution) ∧
        models.Pairwise fun a b => ¬ ∃ v : SymId → Bool, a.Admits v ∧ b.Admits v) := by
  have hstart : Enumerated symbols s.cnf s.cnf [] :=
    ⟨hcnf, by simp, by simp, by simp, by simp, .nil⟩
  obtain ⟨fuel, ⟨models, exceeded⟩, hrun, clauses, henum, hexit⟩ :=
    enumerate_spec hnd Proposition.maxDpllDepth hstart
  refine ⟨fuel, models, exceeded, fun n hn => ?_, fun he => ⟨fun σ hσ => ?_, ?_, henum.disjoint⟩⟩
  · rw [findAllModels, hmapping]
    exact hrun n hn
  · by_contra hnone
    push Not at hnone
    exact hexit he ⟨σ, (henum.clauses_iff σ).mpr ⟨hσ, hmapping ▸ hnone⟩⟩
  · exact hmapping ▸ henum.sound

end Models

theorem findAllModels_correct_example :
    ∃ fuel models exceeded, (∀ n ≥ fuel, findAllModels n
        ⟨[clause2 ⟨1⟩ ⟨3⟩, clause2 ⟨2⟩ ⟨-3⟩], SymbolMapping.new [40, 41]⟩ =
          some (models, exceeded)) ∧
      (exceeded = false →
        (∀ σ : ℕ → Bool, Satisfies (L := Lit) σ [clause2 ⟨1⟩ ⟨3⟩, clause2 ⟨2⟩ ⟨-3⟩] →
          ∃ solution ∈ models, Solution.Agrees (SymbolMapping.new [40, 41]) σ solution) ∧
        (∀ solution ∈ models, ∃ σ : ℕ → Bool,
          Satisfies (L := Lit) σ [clause2 ⟨1⟩ ⟨3⟩, clause2 ⟨2⟩ ⟨-3⟩] ∧
          Solution.Agrees (SymbolMapping.new [40, 41]) σ solution) ∧
        models.Pairwise fun a b => ¬ ∃ v : SymId → Bool, a.Admits v ∧ b.Admits v) :=
  findAllModels_correct (by decide : [40, 41].Nodup) _ rfl fun c hc l hl => by
    simp only [List.mem_cons, List.not_mem_nil, or_false] at hc
    rcases hc with rfl | rfl <;> simp at hl <;> rcases hl with rfl | rfl <;> decide

/-- The solutions come most recent first. -/
example : findAllModels 9 ⟨[clause2 ⟨1⟩ ⟨2⟩], SymbolMapping.new [40, 41]⟩ =
    some ([⟨[(41, true), (40, false)], []⟩, ⟨[(40, true)], [41]⟩], false) := by decide +kernel

end ScalaRs.Patmat
