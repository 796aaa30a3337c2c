import ScalaRs.PropositionShapes

/-! # The normal form of a simplified proposition

Negations stand in front of atoms, constants stand alone, and no connective is
directly under one of its kind. -/
namespace ScalaRs.Patmat.Proposition

def isAtom : Proposition → Bool
  | eq _ _ | atMostOne _ | sym _ => Bool.true
  | _ => Bool.false

def isConstant : Proposition → Bool
  | true | false => Bool.true
  | _ => Bool.false

def isAnd : Proposition → Bool
  | and _ => Bool.true
  | _ => Bool.false

def isOr : Proposition → Bool
  | or _ => Bool.true
  | _ => Bool.false

/-- Every negation is next to an atom. -/
inductive NegationNormal : Proposition → Prop
  | atom {p} : p.isAtom → NegationNormal p
  | constant {p} : p.isConstant → NegationNormal p
  | not a : a.isAtom → NegationNormal (not a)
  | and {ops} : (∀ o ∈ ops, NegationNormal o) → NegationNormal (and ops)
  | or {ops} : (∀ o ∈ ops, NegationNormal o) → NegationNormal (or ops)

/-- A negation normal form whose connectives have neither constants nor connectives
of their own kind for operands. -/
inductive Folded : Proposition → Prop
  | atom {p} : p.isAtom → Folded p
  | constant {p} : p.isConstant → Folded p
  | not a : a.isAtom → Folded (not a)
  | and {ops} : (∀ o ∈ ops, Folded o) → (∀ o ∈ ops, ¬ o.isConstant ∧ ¬ o.isAnd) →
      Folded (and ops)
  | or {ops} : (∀ o ∈ ops, Folded o) → (∀ o ∈ ops, ¬ o.isConstant ∧ ¬ o.isOr) →
      Folded (or ops)

variable (fx : List UInt64 → UInt64)

theorem negationNormal_nnf (p : Proposition) :
    (nnf fx p).NegationNormal ∧ (nnfNot fx p).NegationNormal := by
  have operands : ∀ {ops : List Proposition} {f : Proposition → Proposition},
      (∀ o ∈ ops, (f o).NegationNormal) → ∀ o ∈ unique fx (ops.map f), o.NegationNormal := by
    intro ops f hf o ho
    obtain ⟨q, hq, rfl⟩ := List.mem_map.mp (mem_of_mem_unique fx ho)
    exact hf q hq
  induction p with
  | and ops ih =>
    rw [nnf, nnfNot]
    exact ⟨.and (operands fun o ho => (ih o ho).1), .or (operands fun o ho => (ih o ho).2)⟩
  | or ops ih =>
    rw [nnf, nnfNot]
    exact ⟨.or (operands fun o ho => (ih o ho).1), .and (operands fun o ho => (ih o ho).2)⟩
  | not a ih =>
    rw [nnf, nnfNot]
    exact ih.symm
  | eq v c => simpa only [nnf, nnfNot] using ⟨.atom rfl, .not (eq v c) rfl⟩
  | atMostOne ops => simpa only [nnf, nnfNot] using ⟨.atom rfl, .not (atMostOne ops) rfl⟩
  | sym s => simpa only [nnf, nnfNot] using ⟨.atom rfl, .not (sym s) rfl⟩
  | true => simpa only [nnf, nnfNot] using ⟨.constant rfl, .constant rfl⟩
  | false => simpa only [nnf, nnfNot] using ⟨.constant rfl, .constant rfl⟩

theorem nnf_atom {p : Proposition} (h : p.isAtom) : nnf fx p = p ∧ simplifyProp fx p = p := by
  cases p <;> simp_all [isAtom, nnf, simplifyProp]

/-- The conjuncts of a folded proposition may stand under an `And`, but for `False`. -/
theorem Folded.conjuncts {p o : Proposition} (h : p.Folded) (ho : o ∈ p.conjuncts) :
    o.Folded ∧ ¬ o.isAnd ∧ (o ≠ false → ¬ o.isConstant) := by
  cases h with
  | and hops hkinds => exact ⟨hops o ho, (hkinds o ho).2, fun _ => (hkinds o ho).1⟩
  | or hops hkinds =>
    obtain rfl := List.mem_singleton.mp ho
    exact ⟨.or hops hkinds, by simp [isAnd], fun _ => by simp [isConstant]⟩
  | not a ha =>
    obtain rfl := List.mem_singleton.mp ho
    exact ⟨.not a ha, by simp [isAnd], fun _ => by simp [isConstant]⟩
  | atom hp =>
    cases p <;> simp_all [isAtom, Proposition.conjuncts, isAnd, isConstant]
    all_goals exact .atom rfl
  | constant hp =>
    cases p with
    | false =>
      obtain rfl := List.mem_singleton.mp ho
      exact ⟨.constant rfl, by simp [isAnd], fun h => absurd rfl h⟩
    | true => cases ho
    | _ => cases hp

/-- The disjuncts of a folded proposition may stand under an `Or`, but for `True`. -/
theorem Folded.disjuncts {p o : Proposition} (h : p.Folded) (ho : o ∈ p.disjuncts) :
    o.Folded ∧ ¬ o.isOr ∧ (o ≠ true → ¬ o.isConstant) := by
  cases h with
  | or hops hkinds => exact ⟨hops o ho, (hkinds o ho).2, fun _ => (hkinds o ho).1⟩
  | and hops hkinds =>
    obtain rfl := List.mem_singleton.mp ho
    exact ⟨.and hops hkinds, by simp [isOr], fun _ => by simp [isConstant]⟩
  | not a ha =>
    obtain rfl := List.mem_singleton.mp ho
    exact ⟨.not a ha, by simp [isOr], fun _ => by simp [isConstant]⟩
  | atom hp =>
    cases p <;> simp_all [isAtom, Proposition.disjuncts, isOr, isConstant]
    all_goals exact .atom rfl
  | constant hp =>
    cases p with
    | true =>
      obtain rfl := List.mem_singleton.mp ho
      exact ⟨.constant rfl, by simp [isOr], fun h => absurd rfl h⟩
    | false => cases ho
    | _ => cases hp

theorem NegationNormal.folded_simplifyProp {p : Proposition} (h : p.NegationNormal) :
    (simplifyProp fx p).Folded := by
  induction h with
  | atom hp =>
    rw [(nnf_atom fx hp).2]
    exact .atom hp
  | @constant p hp =>
    have hconst : simplifyProp fx p = p := by
      cases p <;> simp_all [isConstant, simplifyProp]
    rw [hconst]
    exact .constant hp
  | not a ha =>
    have hnot : simplifyProp fx (Proposition.not a) = Proposition.not a := by
      cases a <;> simp_all [isAtom, simplifyProp, simplify, nnf]
    rw [hnot]
    exact .not a ha
  | @and ops h ih =>
    rw [simplifyProp]
    have hops : ∀ o ∈ (ops.map (simplifyProp fx)).flatMap Proposition.conjuncts,
        o.Folded ∧ ¬ o.isAnd ∧ (o ≠ false → ¬ o.isConstant) := by
      simpa using fun o q hq ho => (ih q hq).conjuncts ho
    rcases simplifyAnd_cases fx (ops.map (simplifyProp fx)) with
      e | e | ⟨o, ho, e⟩ | ⟨v, hv, e⟩ <;> rw [e]
    · exact .constant rfl
    · exact .constant rfl
    · exact (hops o ho).1
    · apply Folded.and
      · exact fun o ho => (hops o (hv o ho).1).1
      · intro o ho
        obtain ⟨-, hand, hconst⟩ := hops o (hv o ho).1
        exact ⟨hconst (hv o ho).2, hand⟩
  | @or ops h ih =>
    rw [simplifyProp]
    have hops : ∀ o ∈ (ops.map (simplifyProp fx)).flatMap Proposition.disjuncts,
        o.Folded ∧ ¬ o.isOr ∧ (o ≠ true → ¬ o.isConstant) := by
      simpa using fun o q hq ho => (ih q hq).disjuncts ho
    rcases simplifyOr_cases fx (ops.map (simplifyProp fx)) with
      e | e | ⟨o, ho, e⟩ | ⟨v, hv, e⟩ <;> rw [e]
    · exact .constant rfl
    · exact .constant rfl
    · exact (hops o ho).1
    · apply Folded.or
      · exact fun o ho => (hops o (hv o ho).1).1
      · intro o ho
        obtain ⟨-, hor, hconst⟩ := hops o (hv o ho).1
        exact ⟨hconst (hv o ho).2, hor⟩

/-- Simplification keeps the truth value and folds. -/
theorem simplify_correct (p : Proposition) :
    (∀ v e, (simplify fx p).eval v e = p.eval v e) ∧ (simplify fx p).Folded :=
  ⟨fun _ _ => eval_simplify fx p, (negationNormal_nnf fx p).1.folded_simplifyProp fx⟩

end ScalaRs.Patmat.Proposition
