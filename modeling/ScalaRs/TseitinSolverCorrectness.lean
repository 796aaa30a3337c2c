import ScalaRs.TseitinSolverSteps
import Mathlib.Algebra.BigOperators.Group.List.Basic
import Mathlib.Algebra.Order.BigOperators.Group.List
import Mathlib.Algebra.GroupWithZero.Nat

/-! # The solver terminates, and its answer is right

Each state on the stack stands for the models of the input that extend its
assignments: that is the soundness part of the invariant. Completeness is a
property of the whole stack, since a split divides the models between two states. -/
namespace ScalaRs.Patmat
open ClauseSemantics ScalaSets WhileLoops

/-- The clauses a state still has to satisfy. -/
def State.live (s : State) : List Clause := s.clauses.reduceOption

def State.lits (s : State) : List Lit := s.live.flatMap ScalaSet.unordered

theorem mem_lits {cs : List Clause} {l : Lit} :
    l ∈ cs.flatMap ScalaSet.unordered ↔ ∃ c ∈ cs, l ∈ c := by
  simp [List.mem_flatMap, ScalaSet.mem_def]

structure StateInvariant (input : List Clause) (s : State) : Prop where
  compact : ∃ n, s.clauses = compacted s.live n
  scanned : ∀ scan, s.scanned = some scan → ScanSpec s.live scan
  nonzero : NonZero s.live
  nonzero_assignments : ∀ a ∈ s.assignments, a.v ≠ 0
  consistent : Consistent s.assignments
  fresh : ∀ a ∈ s.assignments, ∀ l ∈ s.lits, l.var ≠ a.var
  sound : ∀ σ, Extends σ s.assignments → Satisfies (L := Lit) σ s.live →
    Satisfies (L := Lit) σ input

structure StackInvariant (input : List Clause) (stack : List State) : Prop where
  states : ∀ s ∈ stack, StateInvariant input s
  complete : Satisfiable (L := Lit) input → ∃ s ∈ stack, Satisfiable (L := Lit) s.live

variable {input : List Clause}

theorem stateInvariant_initial (h : NonZero input) :
    StateInvariant input ⟨input.map some, [], none⟩ := by
  have hl : State.live ⟨input.map some, [], none⟩ = input := by
    simp [State.live, List.reduceOption]
  refine ⟨⟨0, by rw [hl, compacted_zero]⟩, by simp, by rwa [hl], by simp, ?_, by simp, ?_⟩
  · exact fun a ha => absurd ha List.not_mem_nil
  · intro σ _ hσ
    rwa [hl] at hσ

/-- A state whose live clauses come from `s` by making `l` true. -/
theorem StateInvariant.assign {s : State} (h : StateInvariant input s) {l : Lit} {cs : List Clause}
    {n : ℕ} {scanned : Option Scan} (hscan : ∀ scan, scanned = some scan → ScanSpec cs scan)
    (hl : l ∈ s.lits)
    (hsub : ∀ c ∈ cs, ∀ x ∈ c, x ∈ s.lits ∧ x.var ≠ l.var)
    (hsound : ∀ σ, Holds σ l → Satisfies (L := Lit) σ cs → Satisfies (L := Lit) σ s.live) :
    StateInvariant input ⟨compacted cs n, l :: s.assignments, scanned⟩ := by
  have hlive : State.live ⟨compacted cs n, l :: s.assignments, scanned⟩ = cs :=
    reduceOption_compacted cs n
  have hl0 : l.v ≠ 0 := by
    obtain ⟨c, hc, hlc⟩ := mem_lits.mp hl
    exact h.nonzero c hc l hlc
  constructor
  · exact ⟨n, by rw [hlive]⟩
  · rw [hlive]
    exact hscan
  · intro c hc x hx
    rw [hlive] at hc
    obtain ⟨d, hd, hxd⟩ := mem_lits.mp (hsub c hc x hx).1
    exact h.nonzero d hd x hxd
  · intro a ha
    rcases List.mem_cons.mp ha with rfl | ha
    · exact hl0
    · exact h.nonzero_assignments a ha
  · exact h.consistent.cons fun a ha => (h.fresh a ha l hl).symm
  · intro a ha x hx
    rw [State.lits, hlive] at hx
    obtain ⟨c, hc, hxc⟩ := mem_lits.mp hx
    obtain ⟨hxs, hxl⟩ := hsub c hc x hxc
    rcases List.mem_cons.mp ha with rfl | ha
    · exact hxl
    · exact h.fresh a ha x hxs
  · intro σ hσ hcs
    rw [hlive] at hcs
    have hext : Extends σ s.assignments := fun a ha => hσ a (List.mem_cons_of_mem _ ha)
    exact h.sound σ hext (hsound σ (hσ l List.mem_cons_self) hcs)

/-- A state with one more unit clause, on a literal that occurs. -/
theorem StateInvariant.split {s : State} (h : StateInvariant input s) {l : Lit}
    (hl0 : l.v ≠ 0) (hvar : ∃ x ∈ s.lits, x.var = l.var) :
    StateInvariant input ⟨s.live.map some ++ [some (clause1 l)], s.assignments, none⟩ := by
  have hlive : State.live ⟨s.live.map some ++ [some (clause1 l)], s.assignments, none⟩ =
      s.live ++ [clause1 l] := by
    simp [State.live, List.reduceOption]
  constructor
  · exact ⟨0, by rw [hlive, compacted_zero]; simp⟩
  · simp
  · intro c hc x hx
    rw [hlive, List.mem_append, List.mem_singleton] at hc
    rcases hc with hc | rfl
    · exact h.nonzero c hc x hx
    · rw [mem_clause1] at hx
      exact hx ▸ hl0
  · exact h.nonzero_assignments
  · exact h.consistent
  · intro a ha x hx
    rw [State.lits, hlive] at hx
    obtain ⟨c, hc, hxc⟩ := mem_lits.mp hx
    rw [List.mem_append, List.mem_singleton] at hc
    rcases hc with hc | rfl
    · exact h.fresh a ha x (mem_lits.mpr ⟨c, hc, hxc⟩)
    · rw [mem_clause1] at hxc
      obtain ⟨y, hy, hyl⟩ := hvar
      rw [hxc, ← hyl]
      exact h.fresh a ha y hy
  · intro σ hσ hcs
    rw [hlive] at hcs
    exact h.sound σ hσ (satisfies_append.mp hcs).1

/-! ## The four kinds of step -/

theorem mem_propagated {unit : Lit} {cs : List Clause} {c : Clause} :
    c ∈ propagated unit cs ↔ ∃ d ∈ cs, unit ∉ d ∧ keptClause unit d = c := by
  simp [propagated, and_assoc]

theorem propagated_lits {unit : Lit} {cs : List Clause} {c : Clause} (hc : c ∈ propagated unit cs)
    {x : Lit} (hx : x ∈ c) : (∃ d ∈ cs, x ∈ d) ∧ x.var ≠ unit.var := by
  obtain ⟨d, hd, hud, rfl⟩ := mem_propagated.mp hc
  obtain ⟨hxd, hxn⟩ := (mem_keptClause unit x d).mp hx
  refine ⟨⟨d, hd, hxd⟩, fun hv => ?_⟩
  rcases eq_or_opposite (L := Lit) hv.symm with rfl | ho
  · exact hud hxd
  · by_cases hu : unit.v = 0
    · have hx0 : x.v = 0 := by
        simp only [Lit.var] at hv
        omega
      exact hxn (by obtain ⟨a⟩ := x; obtain ⟨b⟩ := unit; simp_all [Lit.neg])
    · exact hxn ((opposite_iff hu x).mp ho)

theorem satisfies_propagated {unit : Lit} (hu : unit.v ≠ 0) (cs : List Clause) {σ : ℕ → Bool}
    (hσ : Holds σ unit) :
    Satisfies (L := Lit) σ (propagated unit cs) ↔ Satisfies (L := Lit) σ cs := by
  refine satisfies_propagate hσ _ _ cs (fun c _ h => ?_) (fun c _ x => ?_)
  · simpa using h
  · rw [mem_keptClause, opposite_iff hu]

/-- What one turn of the loop does to a stack that keeps the invariant. -/
inductive StepCases (s : State) (rest : List State) : Step (Option (List Lit)) (List State) → Prop
  | solved (h : s.live = []) : StepCases s rest (.done (some s.assignments))
  | refuted (c : Clause) (hc : c ∈ s.live) (h : c.len = 0) : StepCases s rest (.next rest)
  | unit (l : Lit) (c : Clause) (hc : c ∈ s.live) (hl : ∀ x, x ∈ c ↔ x = l) (n : ℕ) (scan : Scan)
      (hscan : ScanSpec (propagated l s.live) scan) :
      StepCases s rest
        (.next (⟨compacted (propagated l s.live) n, l :: s.assignments, some scan⟩ :: rest))
  | pure (l : Lit) (hl : l ∈ s.lits) (hpure : ∀ x ∈ s.lits, x.var = l.var → x = l) (n : ℕ) :
      StepCases s rest
        (.next (⟨compacted (s.live.filter fun c => l ∉ c) n, l :: s.assignments, none⟩ :: rest))
  | split (l : Lit) (hl : l ∈ s.lits) (hunit : ∀ c ∈ s.live, c.len ≠ 1) :
      StepCases s rest
        (.next (⟨s.live.map some ++ [some (clause1 l)], s.assignments, none⟩ ::
          ⟨s.live.map some ++ [some (clause1 l.neg)], s.assignments, none⟩ :: rest))

theorem step_cases {s : State} (h : StateInvariant input s) (rest : List State) :
    ∃ o, step (s :: rest) = some o ∧ StepCases s rest o := by
  obtain ⟨n, hn⟩ := h.compact
  by_cases hnil : s.live = []
  · have hhead := compacted_head?_isNone (n := n).mpr hnil
    exact ⟨_, by simp [step, hn, hhead], .solved hnil⟩
  have hhead : (compacted s.live n).head?.join.isNone = false := by
    rw [← Bool.not_eq_true]
    exact mt compacted_head?_isNone.mp hnil
  have hspec : ScanSpec s.live (s.scanned.getD (scanClauses (compacted s.live n))) := by
    cases hs : s.scanned with
    | none => exact scanClauses_spec s.live n
    | some scan => exact h.scanned scan hs
  generalize hscan : s.scanned.getD (scanClauses (compacted s.live n)) = scan at hspec
  cases hempty : scan.empty with
  | true =>
    obtain ⟨c, hc, hlen⟩ := hspec.empty.mp hempty
    exact ⟨_, by simp [step, hn, hhead, hscan, hempty], .refuted c hc hlen⟩
  | false =>
    have hne : ∀ c ∈ s.live, c.len ≠ 0 := fun c hc h0 => by
      simp [hspec.empty.mpr ⟨c, hc, h0⟩] at hempty
    have hunit := hspec.unit hempty
    cases hu : scan.unit with
    | some ui =>
      rw [hu] at hunit
      obtain ⟨hlt, hlen, -⟩ := List.findIdx?_eq_some_iff_getElem.mp hunit.symm
      have hlen : s.live[ui].len = 1 := by simpa using hlen
      have hmem : s.live[ui] ∈ s.live := List.getElem_mem hlt
      obtain ⟨l, hl⟩ := ScalaSet.head_isSome (hne _ hmem)
      have hget : (compacted s.live n)[ui]? = some (some s.live[ui]) := by
        rw [compacted_getElem? hlt, List.getElem?_eq_getElem hlt]
      obtain ⟨n', next, hdrop, hnext⟩ := dropUnit_spec l s.live n
      refine ⟨_, by simp [step, hn, hhead, hscan, hempty, hu, hget, hl, hdrop],
        .unit l _ hmem (fun x => ?_) n' next hnext⟩
      have hlc := ScalaSet.mem_of_head hl
      exact ⟨fun hx => ScalaSet.eq_of_len_one hlen hx hlc, fun hx => hx ▸ hlc⟩
    | none =>
      cases hp : pureLit (compacted s.live n) with
      | some l =>
        obtain ⟨hl, hpure⟩ := pureLit_spec hp
        rw [reduceOption_compacted] at hl hpure
        refine ⟨_, ?_, .pure l hl hpure n⟩
        simp [step, hn, hhead, hscan, hempty, hu, hp, filter_compacted]
      | none =>
        obtain ⟨c, hfirst⟩ : ∃ c, s.live.head? = some c := ⟨_, List.head?_eq_some_head hnil⟩
        have hc : c ∈ s.live := List.mem_of_mem_head? hfirst
        obtain ⟨l, hl⟩ := ScalaSet.head_isSome (hne c hc)
        refine ⟨_, ?_, .split l (mem_lits.mpr ⟨c, hc, ScalaSet.mem_of_head hl⟩) ?_⟩
        · simp [step, hn, hhead, hscan, hempty, hu, hp, takeWhile_compacted, hfirst, hl]
        · rw [hu] at hunit
          simpa using List.findIdx?_eq_none_iff.mp hunit.symm

theorem StepCases.stackInvariant {s : State} {rest stack : List State}
    (h : StackInvariant input (s :: rest)) (hstep : StepCases s rest (.next stack)) :
    StackInvariant input stack := by
  have hs := h.states s List.mem_cons_self
  have hrest : ∀ t ∈ rest, StateInvariant input t :=
    fun t ht => h.states t (List.mem_cons_of_mem _ ht)
  cases hstep with
  | refuted c hc hlen =>
    refine ⟨hrest, fun hsat => ?_⟩
    obtain ⟨t, ht, σ, hσ⟩ := h.complete hsat
    rcases List.mem_cons.mp ht with rfl | ht
    · obtain ⟨x, hx, -⟩ := hσ c hc
      exact absurd hx (ScalaSet.len_eq_zero.mp hlen x)
    · exact ⟨t, ht, σ, hσ⟩
  | unit l c hc hl n scan hscan =>
    have hlc : l ∈ c := (hl l).mpr rfl
    have hl0 := hs.nonzero c hc l hlc
    refine ⟨fun t ht => ?_, fun hsat => ?_⟩
    · rcases List.mem_cons.mp ht with rfl | ht
      · refine hs.assign (fun _ hsome => Option.some.inj hsome ▸ hscan) (mem_lits.mpr ⟨c, hc, hlc⟩)
          (fun d hd x hx => ?_) (fun σ hσ => (satisfies_propagated hl0 _ hσ).mp)
        obtain ⟨hmem, hne⟩ := propagated_lits hd hx
        exact ⟨mem_lits.mpr hmem, hne⟩
      · exact hrest t ht
    · obtain ⟨t, ht, σ, hσ⟩ := h.complete hsat
      rcases List.mem_cons.mp ht with rfl | ht
      · refine ⟨_, List.mem_cons_self, σ, ?_⟩
        have hlσ : Holds σ l := (satClause_singleton hl).mp (hσ c hc)
        simpa [State.live] using (satisfies_propagated hl0 _ hlσ).mpr hσ
      · exact ⟨t, List.mem_cons_of_mem _ ht, σ, hσ⟩
  | pure l hl hpure n =>
    refine ⟨fun t ht => ?_, fun hsat => ?_⟩
    · rcases List.mem_cons.mp ht with rfl | ht
      · refine hs.assign (by simp) hl (fun d hd x hx => ?_)
          (fun σ hσ => (satisfies_filter hσ _ _ fun d _ hd => by simpa using hd).mp)
        obtain ⟨hd, hld⟩ := List.mem_filter.mp hd
        have hxs := mem_lits.mpr ⟨d, hd, hx⟩
        refine ⟨hxs, fun hv => ?_⟩
        rw [hpure x hxs hv] at hx
        simp [hx] at hld
      · exact hrest t ht
    · obtain ⟨t, ht, σ, hσ⟩ := h.complete hsat
      rcases List.mem_cons.mp ht with rfl | ht
      · refine ⟨_, List.mem_cons_self, σ, ?_⟩
        simpa [State.live] using hσ.sublist fun c hc => (List.mem_filter.mp hc).1
      · exact ⟨t, List.mem_cons_of_mem _ ht, σ, hσ⟩
  | split l hl hunit =>
    obtain ⟨c, hc, hlc⟩ := mem_lits.mp hl
    have hl0 := hs.nonzero c hc l hlc
    refine ⟨fun t ht => ?_, fun hsat => ?_⟩
    · rcases List.mem_cons.mp ht with rfl | ht
      · exact hs.split hl0 ⟨l, hl, rfl⟩
      rcases List.mem_cons.mp ht with rfl | ht
      · exact hs.split (by simpa using hl0) ⟨l, hl, by simp⟩
      · exact hrest t ht
    · obtain ⟨t, ht, hlive⟩ := h.complete hsat
      rcases List.mem_cons.mp ht with rfl | ht
      · rcases satisfiable_split (opposite_neg hl0) (mem_clause1 l) (mem_clause1 l.neg) hlive
          with hpos | hneg
        · exact ⟨_, List.mem_cons_self, by simpa [State.live, List.reduceOption] using hpos⟩
        · exact ⟨_, List.mem_cons_of_mem _ List.mem_cons_self,
            by simpa [State.live, List.reduceOption] using hneg⟩
      · exact ⟨t, List.mem_cons_of_mem _ (List.mem_cons_of_mem _ ht), hlive⟩

/-! ## Termination -/

/-- Twice the undecided variables, and one more when no unit clause is at hand:
a split trades that one for its unit clause. -/
def State.weight (s : State) : ℕ :=
  2 * (varsOf s.lits).card + if ∃ c ∈ s.live, c.len = 1 then 0 else 1

def stackWeight (stack : List State) : ℕ := (stack.map fun s => 3 ^ s.weight).sum

theorem weight_lt_of_card {s t : State} (h : (varsOf t.lits).card < (varsOf s.lits).card) :
    t.weight < s.weight := by
  unfold State.weight
  split_ifs <;> omega

theorem StepCases.stackWeight_lt {s : State} {rest stack : List State}
    (hstep : StepCases s rest (.next stack)) : stackWeight stack < stackWeight (s :: rest) := by
  have hpos : 0 < 3 ^ s.weight := Nat.pow_pos (by decide)
  cases hstep with
  | refuted c hc hlen => simpa [stackWeight] using hpos
  | unit l c hc hl n scan hscan =>
    have hlt : State.weight ⟨compacted (propagated l s.live) n, l :: s.assignments, some scan⟩ <
        s.weight := by
      refine weight_lt_of_card (card_varsOf_lt (l := l)
        (mem_lits.mpr ⟨c, hc, (hl l).mpr rfl⟩) fun x hx => ?_)
      simp only [State.lits, State.live, reduceOption_compacted] at hx
      obtain ⟨d, hd, hxd⟩ := mem_lits.mp hx
      obtain ⟨hmem, hne⟩ := propagated_lits hd hxd
      exact ⟨mem_lits.mpr hmem, hne⟩
    simpa [stackWeight] using Nat.pow_lt_pow_right (by decide) hlt
  | pure l hl hpure n =>
    have hlt : State.weight ⟨compacted (s.live.filter fun c => l ∉ c) n, l :: s.assignments, none⟩ <
        s.weight := by
      refine weight_lt_of_card (card_varsOf_lt hl fun x hx => ?_)
      simp only [State.lits, State.live, reduceOption_compacted] at hx
      obtain ⟨d, hd, hxd⟩ := mem_lits.mp hx
      obtain ⟨hd, hld⟩ := List.mem_filter.mp hd
      have hxs := mem_lits.mpr ⟨d, hd, hxd⟩
      refine ⟨hxs, fun hv => ?_⟩
      rw [hpure x hxs hv] at hxd
      simp [hxd] at hld
    simpa [stackWeight] using Nat.pow_lt_pow_right (by decide) hlt
  | split l hl hunit =>
    have hweight : s.weight = 2 * (varsOf s.lits).card + 1 := by
      rw [State.weight, if_neg]
      rintro ⟨c, hc, hlen⟩
      exact hunit c hc hlen
    have hbranch : ∀ m : Lit, m.var = l.var →
        State.weight ⟨s.live.map some ++ [some (clause1 m)], s.assignments, none⟩ ≤
          2 * (varsOf s.lits).card := by
      intro m hm
      have hlive : State.live ⟨s.live.map some ++ [some (clause1 m)], s.assignments, none⟩ =
          s.live ++ [clause1 m] := by simp [State.live, List.reduceOption]
      rw [State.weight, if_pos ⟨clause1 m, by rw [hlive]; simp, clause1_len m⟩, Nat.add_zero]
      refine Nat.mul_le_mul_left 2 (Finset.card_le_card fun v hv => ?_)
      obtain ⟨x, hx, rfl⟩ := mem_varsOf.mp hv
      rw [State.lits, hlive] at hx
      obtain ⟨c, hc, hxc⟩ := mem_lits.mp hx
      rcases List.mem_append.mp hc with hc | hc
      · exact mem_varsOf.mpr ⟨x, mem_lits.mpr ⟨c, hc, hxc⟩, rfl⟩
      · rw [List.mem_singleton] at hc
        rw [hc, mem_clause1] at hxc
        exact mem_varsOf.mpr ⟨l, hl, by simp [hxc, hm]⟩
    have h₁ := Nat.pow_le_pow_right (n := 3) (by decide) (hbranch l rfl)
    have h₂ := Nat.pow_le_pow_right (n := 3) (by decide) (hbranch l.neg l.var_neg)
    have hthree : 3 ^ s.weight = 3 * 3 ^ (2 * (varsOf s.lits).card) := by
      rw [hweight, Nat.pow_succ, Nat.mul_comm]
    have hone : 0 < 3 ^ (2 * (varsOf s.lits).card) := Nat.pow_pos (by decide)
    simp only [stackWeight, List.map_cons, List.sum_cons]
    omega

/-! ## The solver -/

theorem stackInvariant_initial (h : NonZero input) :
    StackInvariant input [⟨input.map some, [], none⟩] := by
  refine ⟨fun s hs => ?_, fun hsat => ⟨_, List.mem_singleton_self _, ?_⟩⟩
  · rw [List.mem_singleton.mp hs]
    exact stateInvariant_initial h
  · simpa [State.live, List.reduceOption] using hsat

/-- What the solver's answer means for the input. -/
structure ModelSpec (input : List Clause) (r : Option (List Lit)) : Prop where
  unsat : r = none ↔ ¬ Satisfiable (L := Lit) input
  nonzero : ∀ lits, r = some lits → ∀ l ∈ lits, l.v ≠ 0
  consistent : ∀ lits, r = some lits → Consistent lits
  sound : ∀ lits, r = some lits → ∀ σ, Extends σ lits → Satisfies (L := Lit) σ input

theorem StackInvariant.modelSpec {stack : List State} (h : StackInvariant input stack)
    {r : Option (List Lit)} (hstep : step stack = some (.done r)) : ModelSpec input r := by
  cases stack with
  | nil =>
    obtain rfl : none = r := by simpa [step] using hstep
    refine ⟨⟨fun _ hsat => ?_, fun _ => rfl⟩, by simp, by simp, by simp⟩
    obtain ⟨s, hs, -⟩ := h.complete hsat
    exact absurd hs List.not_mem_nil
  | cons s rest =>
    have hs := h.states s List.mem_cons_self
    obtain ⟨o, ho, hcases⟩ := step_cases hs rest
    obtain rfl : o = .done r := Option.some.inj (ho.symm.trans hstep)
    cases hcases with
    | solved hlive =>
      have hsound : ∀ σ, Extends σ s.assignments → Satisfies (L := Lit) σ input :=
        fun σ hσ => hs.sound σ hσ (hlive ▸ satisfies_nil σ)
      obtain ⟨σ, hσ⟩ := hs.consistent.exists_extends
      refine ⟨⟨by simp, fun hun => absurd ⟨σ, hsound σ hσ⟩ hun⟩, ?_, ?_, ?_⟩
      · rintro lits ⟨⟩
        exact hs.nonzero_assignments
      · rintro lits ⟨⟩
        exact hs.consistent
      · rintro lits ⟨⟩
        exact hsound

theorem findTseitinModel_spec (h : NonZero input) {fuel : ℕ} {r : Option (List Lit)}
    (hr : findTseitinModel fuel input = some r) : ModelSpec input r := by
  refine invariant_of_run (I := StackInvariant input) (fun stack stack' hs hstep => ?_)
    (fun stack r hs hstep => hs.modelSpec hstep) (stackInvariant_initial h) hr
  cases stack with
  | nil => simp [step] at hstep
  | cons s rest =>
    obtain ⟨o, ho, hcases⟩ := step_cases (hs.states s List.mem_cons_self) rest
    obtain rfl : o = .next stack' := Option.some.inj (ho.symm.trans hstep)
    exact hcases.stackInvariant hs

theorem findTseitinModel_terminates (h : NonZero input) :
    ∃ fuel r, findTseitinModel fuel input = some r := by
  refine ⟨_, run_terminates (I := StackInvariant input) stackWeight (fun stack hs => ?_)
    (stackInvariant_initial h) (Nat.lt_succ_self _)⟩
  cases stack with
  | nil => exact ⟨.done none, by simp [step], by simp⟩
  | cons s rest =>
    obtain ⟨o, ho, hcases⟩ := step_cases (hs.states s List.mem_cons_self) rest
    refine ⟨o, ho, fun stack' hnext => ?_⟩
    subst hnext
    exact ⟨hcases.stackInvariant hs, hcases.stackWeight_lt⟩

/-- DPLL decides satisfiability: from some fuel on there is one answer, it is
`none` exactly when nothing satisfies the clauses, and every total assignment
that extends a returned model satisfies them. -/
theorem findTseitinModel_correct (clauses : List Clause) (h : NonZero clauses) :
    ∃ fuel r, (∀ n ≥ fuel, findTseitinModel n clauses = some r) ∧
      (r = none ↔ ¬ ∃ σ : ℕ → Bool, Satisfies (L := Lit) σ clauses) ∧
      ∀ lits, r = some lits → (∀ l ∈ lits, l.neg ∉ lits) ∧
        ∀ σ : ℕ → Bool, Extends σ lits → Satisfies (L := Lit) σ clauses := by
  obtain ⟨fuel, r, hr⟩ := findTseitinModel_terminates h
  have hspec := findTseitinModel_spec h hr
  refine ⟨fuel, r, fun n hn => run_mono hn hr, hspec.unsat, fun lits hlits => ⟨?_, ?_⟩⟩
  · intro l hl hneg
    have hl0 := hspec.nonzero lits hlits l hl
    exact Lit.neg_ne hl0 (hspec.consistent lits hlits _ hneg l hl (by simp))
  · exact hspec.sound lits hlits

theorem findTseitinModel_correct_example :
    ∃ fuel r, (∀ n ≥ fuel, findTseitinModel n [clause2 ⟨1⟩ ⟨-2⟩, clause1 ⟨2⟩] = some r) ∧
      (r = none ↔ ¬ ∃ σ : ℕ → Bool,
        Satisfies (L := Lit) σ [clause2 ⟨1⟩ ⟨-2⟩, clause1 ⟨2⟩]) ∧
      ∀ lits, r = some lits → (∀ l ∈ lits, l.neg ∉ lits) ∧
        ∀ σ : ℕ → Bool, Extends σ lits →
          Satisfies (L := Lit) σ [clause2 ⟨1⟩ ⟨-2⟩, clause1 ⟨2⟩] :=
  findTseitinModel_correct _ fun c hc l hl => by
    simp only [List.mem_cons, List.not_mem_nil, or_false] at hc
    rcases hc with rfl | rfl <;> simp at hl <;> aesop

end ScalaRs.Patmat
