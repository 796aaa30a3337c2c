import ScalaRs.PropositionSimplification

/-! # The shape simplification leaves for the CNF conversion

A proposition whose top-level conjuncts are `AtMostOne`s and formulas over
symbols becomes one such conjunct, or an `And` of them, with every negation
next to a symbol. -/
namespace ScalaRs.Patmat.Proposition

/-- A formula over symbols: no `variable = constant` atom, no `AtMostOne`. -/
inductive Plain (S : SymId → Prop) : Proposition → Prop
  | and {ops} : (∀ o ∈ ops, Plain S o) → Plain S (and ops)
  | or {ops} : (∀ o ∈ ops, Plain S o) → Plain S (or ops)
  | not {a} : Plain S a → Plain S (not a)
  | true : Plain S true
  | false : Plain S false
  | sym {s} : S s → Plain S (sym s)

/-- A formula over symbols in negation normal form. -/
inductive Reduced (S : SymId → Prop) : Proposition → Prop
  | and {ops} : (∀ o ∈ ops, Reduced S o) → Reduced S (and ops)
  | or {ops} : (∀ o ∈ ops, Reduced S o) → Reduced S (or ops)
  | not {s} : S s → Reduced S (not (sym s))
  | true : Reduced S true
  | false : Reduced S false
  | sym {s} : S s → Reduced S (sym s)

/-- Conjunctions of `AtMostOne`s over symbols and of other propositions. -/
inductive Conjunctive (S : SymId → Prop) (Other : Proposition → Prop) : Proposition → Prop
  | other {p} : Other p → Conjunctive S Other p
  | atMostOne {ops} : (∀ s ∈ ops, S s) → Conjunctive S Other (atMostOne ops)
  | and {ops} : (∀ o ∈ ops, Conjunctive S Other o) → Conjunctive S Other (and ops)

variable {S : SymId → Prop} (fx : List UInt64 → UInt64)

theorem mem_of_mem_unique {ps : List Proposition} {p : Proposition} (h : p ∈ unique fx ps) :
    p ∈ ps := (unique_sublist fx ps).subset h

theorem Plain.nnf {p : Proposition} (h : p.Plain S) :
    Reduced S (nnf fx p) ∧ Reduced S (nnfNot fx p) := by
  have operands : ∀ {ops : List Proposition} {f : Proposition → Proposition},
      (∀ o ∈ ops, Reduced S (f o)) → ∀ o ∈ unique fx (ops.map f), Reduced S o := by
    intro ops f hf o ho
    obtain ⟨q, hq, rfl⟩ := List.mem_map.mp (mem_of_mem_unique fx ho)
    exact hf q hq
  induction h with
  | and h ih =>
    rw [Proposition.nnf, nnfNot]
    exact ⟨.and (operands fun o ho => (ih o ho).1), .or (operands fun o ho => (ih o ho).2)⟩
  | or h ih =>
    rw [Proposition.nnf, nnfNot]
    exact ⟨.or (operands fun o ho => (ih o ho).1), .and (operands fun o ho => (ih o ho).2)⟩
  | not h ih =>
    rw [Proposition.nnf, nnfNot]
    exact ih.symm
  | true => simp [Proposition.nnf, nnfNot, Reduced.true, Reduced.false]
  | false => simp [Proposition.nnf, nnfNot, Reduced.true, Reduced.false]
  | sym h => simp [Proposition.nnf, nnfNot, Reduced.sym h, Reduced.not h]

theorem Conjunctive.nnf {p : Proposition} (h : Conjunctive S (Plain S) p) :
    Conjunctive S (Reduced S) (nnf fx p) := by
  induction h with
  | other h => exact .other (h.nnf fx).1
  | atMostOne h =>
    rw [Proposition.nnf]
    · exact .atMostOne h
    all_goals simp
  | and h ih =>
    rw [Proposition.nnf]
    refine .and fun o ho => ?_
    obtain ⟨q, hq, rfl⟩ := List.mem_map.mp (mem_of_mem_unique fx ho)
    exact ih q hq

/-- An operand equal to itself is found. -/
theorem contains_of_mem {items : List Proposition} {p : Proposition} (hp : p.beq fx p = Bool.true)
    (h : p ∈ items) : contains fx items p = Bool.true := by
  apply List.any_eq_true.mpr ⟨p, h, ?_⟩
  simp [hp]

/-- A conjunction either folds to a constant, or is made of its operands' conjuncts. -/
theorem simplifyAnd_cases (ps : List Proposition) :
    simplifyAnd fx ps = false ∨ simplifyAnd fx ps = true ∨
      (∃ o ∈ ps.flatMap conjuncts, simplifyAnd fx ps = o) ∨
      ∃ v, (∀ o ∈ v, o ∈ ps.flatMap conjuncts ∧ o ≠ false) ∧ simplifyAnd fx ps = and v := by
  rw [simplifyAnd, foldl_addConjunct]
  split
  · exact .inl rfl
  · next hfold =>
    have hsub : ∀ o ∈ unique fx (unique fx (ps.flatMap conjuncts)),
        o ∈ ps.flatMap conjuncts ∧ o ≠ false := by
      intro o ho
      have ho := mem_of_mem_unique fx ho
      refine ⟨mem_of_mem_unique fx ho, ?_⟩
      rintro rfl
      exact hfold (Bool.or_eq_true_iff.mpr (.inl (contains_of_mem fx (by simp [beq]) ho)))
    unfold bigAnd
    split
    case h_1 => exact .inr (.inl rfl)
    case h_2 p hn => exact .inr (.inr (.inl ⟨p, (hsub p (by simp [hn])).1, rfl⟩))
    case h_3 => exact .inr (.inr (.inr ⟨_, hsub, rfl⟩))

theorem simplifyOr_cases (ps : List Proposition) :
    simplifyOr fx ps = false ∨ simplifyOr fx ps = true ∨
      (∃ o ∈ ps.flatMap disjuncts, simplifyOr fx ps = o) ∨
      ∃ v, (∀ o ∈ v, o ∈ ps.flatMap disjuncts ∧ o ≠ true) ∧ simplifyOr fx ps = or v := by
  rw [simplifyOr, foldl_addDisjunct]
  split
  · exact .inr (.inl rfl)
  · next hfold =>
    have hsub : ∀ o ∈ unique fx (unique fx (ps.flatMap disjuncts)),
        o ∈ ps.flatMap disjuncts ∧ o ≠ true := by
      intro o ho
      have ho := mem_of_mem_unique fx ho
      refine ⟨mem_of_mem_unique fx ho, ?_⟩
      rintro rfl
      exact hfold (Bool.or_eq_true_iff.mpr (.inl (contains_of_mem fx (by simp [beq]) ho)))
    unfold bigOr
    split
    case h_1 => exact .inl rfl
    case h_2 p hn => exact .inr (.inr (.inl ⟨p, (hsub p (by simp [hn])).1, rfl⟩))
    case h_3 => exact .inr (.inr (.inr ⟨_, hsub, rfl⟩))

theorem Reduced.conjuncts {p o : Proposition} (h : p.Reduced S) (ho : o ∈ p.conjuncts) :
    o.Reduced S := by
  cases h with
  | and h => exact h o ho
  | true => exact absurd ho List.not_mem_nil
  | or h => exact List.mem_singleton.mp ho ▸ .or h
  | not h => exact List.mem_singleton.mp ho ▸ .not h
  | false => exact List.mem_singleton.mp ho ▸ .false
  | sym h => exact List.mem_singleton.mp ho ▸ .sym h

theorem Reduced.disjuncts {p o : Proposition} (h : p.Reduced S) (ho : o ∈ p.disjuncts) :
    o.Reduced S := by
  cases h with
  | or h => exact h o ho
  | false => exact absurd ho List.not_mem_nil
  | and h => exact List.mem_singleton.mp ho ▸ .and h
  | not h => exact List.mem_singleton.mp ho ▸ .not h
  | true => exact List.mem_singleton.mp ho ▸ .true
  | sym h => exact List.mem_singleton.mp ho ▸ .sym h

theorem Reduced.simplifyProp {p : Proposition} (h : p.Reduced S) : (simplifyProp fx p).Reduced S := by
  induction h with
  | @and ops h ih =>
    rw [Proposition.simplifyProp]
    have hops : ∀ o ∈ (ops.map (Proposition.simplifyProp fx)).flatMap Proposition.conjuncts,
        o.Reduced S := by
      simpa using fun o q hq ho => (ih q hq).conjuncts ho
    rcases simplifyAnd_cases fx (ops.map (Proposition.simplifyProp fx)) with
      e | e | ⟨o, ho, e⟩ | ⟨v, hv, e⟩ <;> rw [e]
    · exact .false
    · exact .true
    · exact hops o ho
    · exact .and fun o ho => hops o (hv o ho).1
  | @or ops h ih =>
    rw [Proposition.simplifyProp]
    have hops : ∀ o ∈ (ops.map (Proposition.simplifyProp fx)).flatMap Proposition.disjuncts,
        o.Reduced S := by
      simpa using fun o q hq ho => (ih q hq).disjuncts ho
    rcases simplifyOr_cases fx (ops.map (Proposition.simplifyProp fx)) with
      e | e | ⟨o, ho, e⟩ | ⟨v, hv, e⟩ <;> rw [e]
    · exact .false
    · exact .true
    · exact hops o ho
    · exact .or fun o ho => hops o (hv o ho).1
  | not h => simpa [Proposition.simplifyProp, Proposition.nnf] using .not h
  | true => simpa [Proposition.simplifyProp] using .true
  | false => simpa [Proposition.simplifyProp] using .false
  | sym h => simpa [Proposition.simplifyProp] using .sym h

/-- A conjunct of a simplified proposition. -/
inductive Conjunct (S : SymId → Prop) : Proposition → Prop
  | reduced {p} : Reduced S p → Conjunct S p
  | atMostOne {ops} : (∀ s ∈ ops, S s) → Conjunct S (atMostOne ops)

/-- A conjunct, or an `And` of conjuncts. -/
inductive Simplified (S : SymId → Prop) : Proposition → Prop
  | conjunct {p} : Conjunct S p → Simplified S p
  | and {ops} : (∀ o ∈ ops, Conjunct S o) → Simplified S (and ops)

theorem Simplified.conjuncts {p o : Proposition} (h : p.Simplified S) (ho : o ∈ p.conjuncts) :
    o.Conjunct S := by
  cases h with
  | conjunct h =>
    cases h with
    | reduced h => exact .reduced (h.conjuncts ho)
    | atMostOne h => exact List.mem_singleton.mp ho ▸ .atMostOne h
  | and h => exact h o ho

theorem Conjunctive.simplifyProp {p : Proposition} (h : Conjunctive S (Reduced S) p) :
    (simplifyProp fx p).Simplified S := by
  induction h with
  | other h => exact .conjunct (.reduced (h.simplifyProp fx))
  | atMostOne h => simpa [Proposition.simplifyProp] using .conjunct (.atMostOne h)
  | @and ops h ih =>
    rw [Proposition.simplifyProp]
    have hops : ∀ o ∈ (ops.map (Proposition.simplifyProp fx)).flatMap Proposition.conjuncts,
        o.Conjunct S := by
      simpa using fun o q hq ho => (ih q hq).conjuncts ho
    rcases simplifyAnd_cases fx (ops.map (Proposition.simplifyProp fx)) with
      e | e | ⟨o, ho, e⟩ | ⟨v, hv, e⟩ <;> rw [e]
    · exact .conjunct (.reduced .false)
    · exact .conjunct (.reduced .true)
    · exact .conjunct (hops o ho)
    · exact .and fun o ho => hops o (hv o ho).1

theorem Conjunctive.simplify {p : Proposition} (h : Conjunctive S (Plain S) p) :
    (simplify fx p).Simplified S := (h.nnf fx).simplifyProp fx

section Symbols

/-- The symbols in traversal order, repetitions included. -/
def occurrences : Proposition → List SymId
  | and ops => (ops.map occurrences).flatten
  | or ops => (ops.map occurrences).flatten
  | not a => occurrences a
  | sym s => [s]
  | atMostOne ops => ops
  | _ => []

theorem gatherSymbols_eq (p : Proposition) (out : List SymId) :
    gatherSymbols p out = p.occurrences.foldl addSymbol out := by
  have operands : ∀ ops : List Proposition, (∀ o ∈ ops, ∀ out, gatherSymbols o out =
      o.occurrences.foldl addSymbol out) → ∀ out, ops.foldl (fun out o => gatherSymbols o out) out =
        (ops.map occurrences).flatten.foldl addSymbol out := by
    intro ops
    induction ops with
    | nil => simp
    | cons o ops ih =>
      intro h out
      rw [List.foldl_cons, h o (by simp), ih (fun q hq => h q (by simp [hq])), List.map_cons,
        List.flatten_cons, List.foldl_append]
  induction p generalizing out with
  | and ops ih => rw [gatherSymbols, occurrences, operands ops ih]
  | or ops ih => rw [gatherSymbols, occurrences, operands ops ih]
  | not a ih => rw [gatherSymbols, occurrences, ih]
  | _ => simp [gatherSymbols, occurrences]

theorem mem_addSymbols {ss out : List SymId} {s : SymId} :
    s ∈ ss.foldl addSymbol out ↔ s ∈ out ∨ s ∈ ss := by
  induction ss generalizing out with
  | nil => simp
  | cons t ss ih =>
    rw [List.foldl_cons, ih, List.mem_cons, addSymbol]
    split <;> grind

theorem nodup_addSymbols {ss out : List SymId} (h : out.Nodup) : (ss.foldl addSymbol out).Nodup := by
  induction ss generalizing out with
  | nil => exact h
  | cons t ss ih =>
    refine ih ?_
    unfold addSymbol
    split
    · exact h
    · exact List.Nodup.append h (by simp) (by simpa)

theorem mem_symbols {p : Proposition} {s : SymId} : s ∈ p.symbols ↔ s ∈ p.occurrences := by
  rw [symbols, gatherSymbols_eq, mem_addSymbols]
  simp

theorem symbols_nodup (p : Proposition) : p.symbols.Nodup := by
  rw [symbols, gatherSymbols_eq]
  exact nodup_addSymbols List.nodup_nil

variable {T : SymId → Prop}

theorem Plain.of_occurrences {p : Proposition} (h : p.Plain S) (hT : ∀ s ∈ p.occurrences, T s) :
    p.Plain T := by
  have operand : ∀ {ops : List Proposition} {o : Proposition}, o ∈ ops →
      (∀ s ∈ (ops.map occurrences).flatten, T s) → ∀ s ∈ o.occurrences, T s :=
    fun ho hT s hs => hT s (List.mem_flatten.mpr ⟨_, List.mem_map_of_mem ho, hs⟩)
  induction h with
  | and h ih => exact .and fun o ho => ih o ho (operand ho (by simpa only [occurrences] using hT))
  | or h ih => exact .or fun o ho => ih o ho (operand ho (by simpa only [occurrences] using hT))
  | not h ih => exact .not (ih (by simpa only [occurrences] using hT))
  | true => exact .true
  | false => exact .false
  | @sym s h => exact .sym (hT s (by simp [occurrences]))

theorem Conjunctive.of_occurrences {p : Proposition} (h : Conjunctive S (Plain S) p)
    (hT : ∀ s ∈ p.occurrences, T s) : Conjunctive T (Plain T) p := by
  induction h with
  | other h => exact .other (h.of_occurrences hT)
  | atMostOne h => exact .atMostOne fun s hs => hT s (by simpa only [occurrences] using hs)
  | @and ops h ih =>
    refine .and fun o ho => ih o ho fun s hs => hT s ?_
    rw [occurrences]
    exact List.mem_flatten.mpr ⟨_, List.mem_map_of_mem ho, hs⟩

end Symbols

end ScalaRs.Patmat.Proposition
