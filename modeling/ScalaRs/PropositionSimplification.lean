import ScalaRs.PropositionEquality

/-! # Simplification keeps the meaning of a proposition

A valuation gives every symbol, and every `variable = constant` atom, a truth
value. Negation normal form and folding keep the value of every proposition,
and leave operand lists that are sets. -/
namespace ScalaRs.Patmat.Proposition

section Meaning

variable (v : SymId → Bool) (e : VarId → ConstId → Bool)

def eval : Proposition → Bool
  | eq x c => e x c
  | and ops => (ops.map eval).all id
  | or ops => (ops.map eval).any id
  | not a => !eval a
  | atMostOne ops => ops.countP v ≤ 1
  | true => Bool.true
  | false => Bool.false
  | sym s => v s

theorem eval_and (ops : List Proposition) : (and ops).eval v e = ops.all (eval v e) := by
  simp [eval]

theorem eval_or (ops : List Proposition) : (or ops).eval v e = ops.any (eval v e) := by
  simp [eval]

theorem eval_eq_of_code_eq (p : Proposition) : ∀ q : Proposition, p.code = q.code →
    p.eval v e = q.eval v e := by
  induction p with
  | and a ih =>
    rintro (_ | b | _ | _ | _ | _ | _ | _) h
    case and =>
      rw [eval, eval]
      exact (perm_map_of_perm_map (code_and.mp h) ih).all_eq
    all_goals simp [code, Nat.pair_eq_pair] at h
  | or a ih =>
    rintro (_ | _ | b | _ | _ | _ | _ | _) h
    case or =>
      rw [eval, eval]
      exact (perm_map_of_perm_map (code_or.mp h) ih).any_eq
    all_goals simp [code, Nat.pair_eq_pair] at h
  | not a ih =>
    rintro (_ | _ | _ | b | _ | _ | _ | _) h
    case not => simp only [eval, ih b (by simpa [code, Nat.pair_eq_pair] using h)]
    all_goals simp [code, Nat.pair_eq_pair] at h
  | _ =>
    rintro (_ | _ | _ | _ | _ | _ | _ | _) h <;> simp_all [code, eval, Nat.pair_eq_pair]

end Meaning

variable (fx : List UInt64 → UInt64) {v : SymId → Bool} {e : VarId → ConstId → Bool}

private theorem unique_iff {ps : List Proposition} (hps : ∀ p ∈ ps, p.SetLike)
    (holds : Proposition → Prop) (h : ∀ p q : Proposition, p.code = q.code → (holds p ↔ holds q)) :
    (∃ p ∈ unique fx ps, holds p) ↔ ∃ p ∈ ps, holds p := by
  have transfer : ∀ {as bs : List Proposition}, (∀ n, n ∈ as.map code → n ∈ bs.map code) →
      (∃ p ∈ as, holds p) → ∃ p ∈ bs, holds p := by
    rintro as bs hsub ⟨p, hp, hh⟩
    obtain ⟨q, hq, hpq⟩ := List.mem_map.mp (hsub _ (List.mem_map_of_mem hp))
    exact ⟨q, hq, (h q p hpq).mpr hh⟩
  exact ⟨transfer fun n => (mem_code_unique fx hps n).mp,
    transfer fun n => (mem_code_unique fx hps n).mpr⟩

theorem all_unique {ps : List Proposition} (hps : ∀ p ∈ ps, p.SetLike) :
    (unique fx ps).all (eval v e) = ps.all (eval v e) := by
  have h := unique_iff fx hps (fun p => p.eval v e = Bool.false)
    fun p q hpq => by rw [eval_eq_of_code_eq v e p q hpq]
  rw [Bool.eq_iff_iff, ← not_iff_not]
  simpa using h

theorem any_unique {ps : List Proposition} (hps : ∀ p ∈ ps, p.SetLike) :
    (unique fx ps).any (eval v e) = ps.any (eval v e) := by
  have h := unique_iff fx hps (fun p => p.eval v e = Bool.true)
    fun p q hpq => by rw [eval_eq_of_code_eq v e p q hpq]
  rw [Bool.eq_iff_iff]
  simpa using h

theorem setLike_nnf (p : Proposition) : (nnf fx p).SetLike ∧ (nnfNot fx p).SetLike := by
  induction p with
  | and ops ih =>
    simp only [nnf, nnfNot]
    exact ⟨(operandSet_unique fx (by simpa using fun o ho => (ih o ho).1)).and,
      (operandSet_unique fx (by simpa using fun o ho => (ih o ho).2)).or⟩
  | or ops ih =>
    simp only [nnf, nnfNot]
    exact ⟨(operandSet_unique fx (by simpa using fun o ho => (ih o ho).1)).or,
      (operandSet_unique fx (by simpa using fun o ho => (ih o ho).2)).and⟩
  | not a ih => simpa only [nnf, nnfNot] using ih.symm
  | _ => simp only [nnf, nnfNot]; constructor <;> repeat constructor

private theorem all_eq_all {f g : Proposition → Bool} {ops : List Proposition}
    (h : ∀ o ∈ ops, f o = g o) : ops.all f = ops.all g := by
  simpa [List.all_map] using congrArg (List.all · id) (List.map_congr_left h)

private theorem any_eq_any {f g : Proposition → Bool} {ops : List Proposition}
    (h : ∀ o ∈ ops, f o = g o) : ops.any f = ops.any g := by
  simpa [List.any_map] using congrArg (List.any · id) (List.map_congr_left h)

theorem eval_nnf (p : Proposition) :
    (nnf fx p).eval v e = p.eval v e ∧ (nnfNot fx p).eval v e = !p.eval v e := by
  induction p with
  | and ops ih =>
    have hnnf : ∀ o ∈ ops.map (nnf fx), o.SetLike := by simpa using fun o _ => (setLike_nnf fx o).1
    have hnot : ∀ o ∈ ops.map (nnfNot fx), o.SetLike := by
      simpa using fun o _ => (setLike_nnf fx o).2
    simp only [nnf, nnfNot, eval_and, eval_or, all_unique fx hnnf, any_unique fx hnot]
    rw [List.all_map, List.any_map, List.not_all_eq_any_not]
    exact ⟨all_eq_all fun o ho => (ih o ho).1, any_eq_any fun o ho => (ih o ho).2⟩
  | or ops ih =>
    have hnnf : ∀ o ∈ ops.map (nnf fx), o.SetLike := by simpa using fun o _ => (setLike_nnf fx o).1
    have hnot : ∀ o ∈ ops.map (nnfNot fx), o.SetLike := by
      simpa using fun o _ => (setLike_nnf fx o).2
    simp only [nnf, nnfNot, eval_and, eval_or, any_unique fx hnnf, all_unique fx hnot]
    rw [List.all_map, List.any_map, List.not_any_eq_all_not]
    exact ⟨any_eq_any fun o ho => (ih o ho).1, all_eq_all fun o ho => (ih o ho).2⟩
  | not a ih => simp [nnf, nnfNot, eval, ih]
  | _ => simp [nnf, nnfNot, eval]

theorem eval_opposed {a b : Proposition} (ha : a.SetLike) (hb : b.SetLike)
    (h : opposed fx a b = Bool.true) : a.eval v e = !b.eval v e := by
  have key : ∀ p q : Proposition, p.SetLike → q.SetLike → p.beq fx q = Bool.true →
      p.eval v e = q.eval v e := fun p q hp hq hpq =>
    eval_eq_of_code_eq v e p q ((beq_iff_code_eq hp hq).1.mp hpq)
  unfold opposed at h
  split at h
  case h_1 bb =>
    cases hb with
    | not hbb =>
      rcases Bool.or_eq_true_iff.mp h with h | h
      · simp [eval, key _ _ hbb ha h]
      · split at h
        · cases ha with
          | not haa => simp [eval, key _ _ haa (.not hbb) h]
        · exact absurd h Bool.false_ne_true
  case h_2 =>
    cases ha with
    | not haa => simp [eval, key _ _ haa hb h]
  case h_3 => exact absurd h Bool.false_ne_true

theorem exists_of_anyPair {check : Proposition → Proposition → Bool} :
    ∀ {ops : List Proposition}, anyPair check ops = Bool.true →
      ∃ a ∈ ops, ∃ b ∈ ops, check a b = Bool.true
  | a :: ops, h => by
    rcases Bool.or_eq_true_iff.mp h with h | h
    · obtain ⟨b, hb, hab⟩ := List.any_eq_true.mp h
      exact ⟨a, by simp, b, by simp [hb], hab⟩
    · obtain ⟨a, ha, b, hb, hab⟩ := exists_of_anyPair h
      exact ⟨a, by simp [ha], b, by simp [hb], hab⟩

theorem hasImpureAtom_spec {ops : List Proposition} (hops : ∀ o ∈ ops, o.SetLike)
    (h : hasImpureAtom fx ops = Bool.true) :
    ∃ a ∈ ops, ∃ b ∈ ops, ∀ v e, a.eval v e = !b.eval v e := by
  unfold hasImpureAtom at h
  split at h
  · exact absurd h Bool.false_ne_true
  · obtain ⟨a, ha, b, hb, hab⟩ := exists_of_anyPair h
    exact ⟨a, ha, b, hb, fun v e => eval_opposed fx (hops a ha) (hops b hb) hab⟩

theorem bigAnd_spec {ps : List Proposition} (hps : ∀ p ∈ ps, p.SetLike) :
    (bigAnd fx ps).SetLike ∧ ∀ v e, (bigAnd fx ps).eval v e = ps.all (eval v e) := by
  have hu := operandSet_unique fx hps
  simp only [← all_unique fx hps, bigAnd]
  split
  case h_1 hn => simp [hn, eval, SetLike.true]
  case h_2 p hn => simpa [hn] using hu.setLike p (by simp [hn])
  case h_3 => exact ⟨hu.and, fun v e => eval_and v e _⟩

theorem bigOr_spec {ps : List Proposition} (hps : ∀ p ∈ ps, p.SetLike) :
    (bigOr fx ps).SetLike ∧ ∀ v e, (bigOr fx ps).eval v e = ps.any (eval v e) := by
  have hu := operandSet_unique fx hps
  simp only [← any_unique fx hps, bigOr]
  split
  case h_1 hn => simp [hn, eval, SetLike.false]
  case h_2 p hn => simpa [hn] using hu.setLike p (by simp [hn])
  case h_3 => exact ⟨hu.or, fun v e => eval_or v e _⟩

/-- What a simplified operand contributes to the enclosing `And`. -/
def conjuncts : Proposition → List Proposition
  | true => []
  | and fv => fv
  | f => [f]

def disjuncts : Proposition → List Proposition
  | false => []
  | or fv => fv
  | f => [f]

theorem foldl_addConjunct (ps : List Proposition) :
    ps.foldl (addConjunct fx) [] = unique fx (ps.flatMap conjuncts) := by
  rw [unique, List.foldl_flatMap]
  congr
  funext props p
  cases p <;> rfl

theorem foldl_addDisjunct (ps : List Proposition) :
    ps.foldl (addDisjunct fx) [] = unique fx (ps.flatMap disjuncts) := by
  rw [unique, List.foldl_flatMap]
  congr
  funext props p
  cases p <;> rfl

theorem SetLike.conjuncts {p : Proposition} (hp : p.SetLike) :
    (∀ o ∈ p.conjuncts, o.SetLike) ∧ ∀ v e, p.conjuncts.all (eval v e) = p.eval v e := by
  cases hp with
  | and hops => exact ⟨hops, fun v e => (eval_and v e _).symm⟩
  | true => simp [Proposition.conjuncts, eval]
  | _ => simp [Proposition.conjuncts]; constructor <;> assumption

theorem SetLike.disjuncts {p : Proposition} (hp : p.SetLike) :
    (∀ o ∈ p.disjuncts, o.SetLike) ∧ ∀ v e, p.disjuncts.any (eval v e) = p.eval v e := by
  cases hp with
  | or hops => exact ⟨hops, fun v e => (eval_or v e _).symm⟩
  | false => simp [Proposition.disjuncts, eval]
  | _ => simp [Proposition.disjuncts]; constructor <;> assumption

private theorem contains_eval {ps : List Proposition} (hps : ∀ p ∈ ps, p.SetLike)
    {q : Proposition} (hq : q.SetLike) (h : contains fx ps q = Bool.true) :
    ∃ p ∈ ps, ∀ v e, p.eval v e = q.eval v e := by
  obtain ⟨p, hp, hpq⟩ := List.mem_map.mp ((contains_iff hps hq).mp h)
  exact ⟨p, hp, fun v e => eval_eq_of_code_eq v e p q hpq⟩

theorem simplifyAnd_spec {ps : List Proposition} (hps : ∀ p ∈ ps, p.SetLike) :
    (simplifyAnd fx ps).SetLike ∧ ∀ v e, (simplifyAnd fx ps).eval v e = ps.all (eval v e) := by
  have hcs : ∀ o ∈ ps.flatMap conjuncts, o.SetLike := by
    simpa using fun o p hp ho => (hps p hp).conjuncts.1 o ho
  have hu := operandSet_unique fx hcs
  have hall : ∀ v e, (unique fx (ps.flatMap conjuncts)).all (eval v e) = ps.all (eval v e) := by
    intro v e
    rw [all_unique fx hcs, List.all_flatMap]
    exact all_eq_all fun p hp => (hps p hp).conjuncts.2 v e
  simp only [← hall, simplifyAnd, foldl_addConjunct]
  split
  case isFalse => exact bigAnd_spec fx hu.setLike
  case isTrue h =>
    refine ⟨.false, fun v e => ?_⟩
    rw [eval, eq_comm, List.all_eq_false]
    rcases Bool.or_eq_true_iff.mp h with h | h
    · obtain ⟨p, hp, heval⟩ := contains_eval fx hu.setLike .false h
      exact ⟨p, hp, by simp [heval, eval]⟩
    · obtain ⟨a, ha, b, hb, hab⟩ := hasImpureAtom_spec fx hu.setLike h
      cases hbv : b.eval v e
      · exact ⟨b, hb, by simp [hbv]⟩
      · exact ⟨a, ha, by simp [hab, hbv]⟩

theorem simplifyOr_spec {ps : List Proposition} (hps : ∀ p ∈ ps, p.SetLike) :
    (simplifyOr fx ps).SetLike ∧ ∀ v e, (simplifyOr fx ps).eval v e = ps.any (eval v e) := by
  have hds : ∀ o ∈ ps.flatMap disjuncts, o.SetLike := by
    simpa using fun o p hp ho => (hps p hp).disjuncts.1 o ho
  have hu := operandSet_unique fx hds
  have hany : ∀ v e, (unique fx (ps.flatMap disjuncts)).any (eval v e) = ps.any (eval v e) := by
    intro v e
    rw [any_unique fx hds, List.any_flatMap]
    exact any_eq_any fun p hp => (hps p hp).disjuncts.2 v e
  simp only [← hany, simplifyOr, foldl_addDisjunct]
  split
  case isFalse => exact bigOr_spec fx hu.setLike
  case isTrue h =>
    refine ⟨.true, fun v e => ?_⟩
    rw [eval, eq_comm, List.any_eq_true]
    rcases Bool.or_eq_true_iff.mp h with h | h
    · obtain ⟨p, hp, heval⟩ := contains_eval fx hu.setLike .true h
      exact ⟨p, hp, by simp [heval, eval]⟩
    · obtain ⟨a, ha, b, hb, hab⟩ := hasImpureAtom_spec fx hu.setLike h
      cases hbv : b.eval v e
      · exact ⟨a, ha, by simp [hab, hbv]⟩
      · exact ⟨b, hb, hbv⟩

theorem simplifyProp_spec (p : Proposition) :
    (simplifyProp fx p).SetLike ∧ ∀ v e, (simplifyProp fx p).eval v e = p.eval v e := by
  induction p using simplifyProp.induct fx with
  | case1 ps ih =>
    rw [simplifyProp]
    have hps : ∀ q ∈ ps.map (simplifyProp fx), q.SetLike := by simpa using fun q hq => (ih q hq).1
    refine ⟨(simplifyAnd_spec fx hps).1, fun v e => ?_⟩
    rw [(simplifyAnd_spec fx hps).2, eval_and, List.all_map]
    exact all_eq_all fun q hq => (ih q hq).2 v e
  | case2 ps ih =>
    rw [simplifyProp]
    have hps : ∀ q ∈ ps.map (simplifyProp fx), q.SetLike := by simpa using fun q hq => (ih q hq).1
    refine ⟨(simplifyOr_spec fx hps).1, fun v e => ?_⟩
    rw [(simplifyOr_spec fx hps).2, eval_or, List.any_map]
    exact any_eq_any fun q hq => (ih q hq).2 v e
  | case3 a ih =>
    rw [simplifyProp]
    exact ⟨ih.1, fun v e => by simp [ih.2, (eval_nnf fx a).1, eval]⟩
  | case4 other h ih =>
    rw [simplifyProp.eq_4 fx other h]
    exact ⟨ih.1.not, fun v e => by simp [ih.2, (eval_nnf fx other).1, eval]⟩
  | case5 other h₁ h₂ h₃ h₄ =>
    rw [simplifyProp.eq_5 fx other h₁ h₂ h₃ h₄]
    refine ⟨?_, fun v e => rfl⟩
    cases other with
    | and ops => exact absurd rfl (h₁ ops)
    | or ops => exact absurd rfl (h₂ ops)
    | not a => exact absurd rfl (h₄ a)
    | _ => constructor

theorem eval_simplify (p : Proposition) : (simplify fx p).eval v e = p.eval v e := by
  rw [simplify, (simplifyProp_spec fx _).2, (eval_nnf fx p).1]

end ScalaRs.Patmat.Proposition
