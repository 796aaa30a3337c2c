import ScalaRs.RassocEvaluation

/-! # What the walk leaves as it was

The walk keeps what the tests of the pass look at, so a test has the same answer for an operand
and for what the walk has made of it. -/
namespace ScalaRs.Rassoc
open TypedTrees
open Unification (Ty SymbolId)

def isFunction : Tree → Bool
  | .function _ _ _ => true
  | _ => false

/-- An infix application runs its operand first, unless that is a by-name argument. -/
def operandFirst (f a : Tree) : Bool := isInfixRassoc f && !a.info.bynameThunk

def isValDef : Tree → Bool
  | .valDef _ _ _ => true
  | _ => false

/-- The parts of a node that are always expressions. -/
def expressions : Tree → List Tree
  | .select _ q _ => [q]
  | .typed _ e => [e]
  | .typeApply _ f => [f]
  | .apply _ _ args => args
  | _ => []

/-- What the typer leaves: a by-name argument is a function, an operator is a method, type
arguments go to a name or a selection, as do assignments, definitions stand in blocks, and an
operand has a type. -/
structure WellTyped (st : SymbolTable) (t : Tree) : Prop where
  thunk : t.info.bynameThunk = true → isFunction t = true
  operator : isOperatorSelect t = true → namesMethod st t.info = true
  func : ∀ i f, t = .typeApply i f → isApply f = false
  target : ∀ i l r, t = .assign i l r → isApply l = false
  expression : ∀ u ∈ expressions t, isValDef u = false
  operand : ∀ f a rest, Chain f (a :: rest) t → operandFirst f a = true →
    isNoTypeOrError a.ty = false

section
variable {n : ℕ} {st₁ st₂ : SymbolTable}

section
attribute [local simp] descend descendAll computes receiverComputes isOperatorSelect isInfixRassoc funSym rewrite
end

theorem computes_congr (hst : st₁.AgreeBelow n st₂) (t : Tree) (ht : Known n t) :
    computes st₁ t = computes st₂ t := by
  cases t with
  | ident i name =>
      have hi : i.sym < n := ht.here.1
      simp only [computes, namesMethod_congr hst hi, namesByName_congr hst hi]
  | select i q name =>
      have hi : i.sym < n := ht.here.1
      simp only [computes, namesMethod_congr hst hi, namesByName_congr hst hi,
        computes_congr hst q ht.2]
  | typed i e => simpa only [computes] using computes_congr hst e ht.2
  | typeApply i f => simpa only [computes] using computes_congr hst f ht.2
  | _ => simp only [computes]

theorem receiverComputes_congr (hst : st₁.AgreeBelow n st₂) (t : Tree) (ht : Known n t) :
    receiverComputes st₁ t = receiverComputes st₂ t := by
  cases t with
  | select i q name => simpa only [receiverComputes] using computes_congr hst q ht.2
  | typeApply i f => simpa only [receiverComputes] using receiverComputes_congr hst f ht.2
  | _ => simp only [receiverComputes]

theorem funSym_lt {f : Tree} (hf : Known n f) : funSym f < n := by
  cases f with
  | typeApply i g => exact hf.2.here.1
  | _ => exact hf.here.1

theorem onlyOperand_congr (hst : st₁.AgreeBelow n st₂) {f : Tree} (hf : Known n f)
    (rest : List Tree) : onlyOperand st₁ f rest = onlyOperand st₂ f rest := by
  simp only [onlyOperand, hst _ (funSym_lt hf)]

theorem hoists_congr (hst : st₁.AgreeBelow n st₂) {f a : Tree} (hf : Known n f) (ha : Known n a)
    (rest : List Tree) : hoists st₁ f a rest = hoists st₂ f a rest := by
  simp only [hoists, onlyOperand_congr hst hf, computes_congr hst a ha,
    receiverComputes_congr hst f hf]

end

/-! ## Rewriting -/

theorem rewrite_eq_self (owner : SymbolId) {r : Tree × Pass}
    (h : ∀ f a rest, operatorApply r.1 = some (f, a :: rest) → hoists r.2.st f a rest = false) :
    rewrite owner r = r := by
  unfold rewrite
  split
  · rename_i f a rest heq
    simp only [h f a rest heq, Bool.false_eq_true, if_false]
  · rfl

theorem rewrite_of_not_isApply (owner : SymbolId) {r : Tree × Pass} (h : isApply r.1 = false) :
    rewrite owner r = r := by
  apply rewrite_eq_self
  intro f a rest heq
  simp [operatorApply_eq_none h] at heq

theorem rewrite_of_hoists (owner : SymbolId) {r : Tree × Pass} {f a : Tree} {rest : List Tree}
    (h : operatorApply r.1 = some (f, a :: rest)) (hhoists : hoists r.2.st f a rest = true) :
    rewrite owner r =
      (.block { Info.dummy with id := r.1.info.id, span := r.1.span, ty := r.1.ty }
          [.valDef (operandInfo r.2 a) (operandSymbol owner r.2 a.ty).name a]
          (setOperand (.ident (operandInfo r.2 a) (operandSymbol owner r.2 a.ty).name) r.1),
        ⟨r.2.st ++ [operandSymbol owner r.2 a.ty], r.2.gensym + 1⟩) := by
  simp only [rewrite, h, hhoists, if_true]

theorem known_setOperand {n : ℕ} {x t : Tree} (hx : Known n x) (ht : Known n t) :
    Known n (setOperand x t) := by
  fun_induction setOperand x t with
  | case1 i j f as args ih => exact ⟨ht.1, ih ht.2.1, ht.2.2⟩
  | case2 i f a rest hf => exact ⟨ht.1, ht.2.1, hx, ht.2.2.2⟩
  | case3 t _ _ => exact ht

theorem rewrite_extends : Keeps rewrite := by
  intro owner r
  by_cases h : ∃ f a rest, operatorApply r.1 = some (f, a :: rest) ∧ hoists r.2.st f a rest = true
  · obtain ⟨f, a, rest, hop, hhoists⟩ := h
    rw [rewrite_of_hoists owner hop hhoists]
    refine ⟨List.prefix_append _ _, fun ht => ?_⟩
    simp only [List.length_append, List.length_singleton]
    have hlt : r.2.st.length < r.2.st.length + 1 := Nat.lt_succ_self _
    have ha : Known r.2.st.length a := ((chain_of_operatorApply hop).all ht).2.1
    have hident : Known (r.2.st.length + 1)
        (.ident (operandInfo r.2 a) (operandSymbol owner r.2 a.ty).name) :=
      ⟨hlt, fun x hx => absurd hx (by simp [Tree.binders])⟩
    refine ⟨⟨Nat.succ_pos _, fun x hx => absurd hx (by simp [Tree.binders])⟩, ?_, ?_⟩
    · exact ⟨⟨⟨hlt, fun x hx => absurd hx (by simp [Tree.binders])⟩, ha.mono hlt.le⟩, trivial⟩
    · exact known_setOperand hident (ht.mono hlt.le)
  · rw [rewrite_eq_self owner fun f a rest hop =>
      Bool.eq_false_iff.2 fun hhoists => h ⟨f, a, rest, hop, hhoists⟩]
    exact ⟨List.prefix_refl _, id⟩

/-- Only applications change, and turn into blocks. -/
theorem rewrite_cases (owner : SymbolId) (r : Tree × Pass) :
    rewrite owner r = r ∨ isApply r.1 = true ∧ ∃ i stats e, (rewrite owner r).1 =
      .block i stats e ∧ i.span = r.1.span ∧ i.ty = r.1.ty ∧ i.bynameThunk = false := by
  by_cases hr : isApply r.1 = true
  · unfold rewrite
    split
    · split
      · exact .inr ⟨hr, _, _, _, rfl, rfl, rfl, rfl⟩
      · exact .inl rfl
    · exact .inl rfl
  · exact .inl (rewrite_of_not_isApply owner (by simpa using hr))

theorem rewrite_span_ty (owner : SymbolId) (r : Tree × Pass) :
    (rewrite owner r).1.span = r.1.span ∧ (rewrite owner r).1.ty = r.1.ty := by
  rcases rewrite_cases owner r with h | ⟨_, i, stats, e, h, hspan, hty, _⟩
  · rw [h]
    exact ⟨rfl, rfl⟩
  · rw [h]
    exact ⟨hspan, hty⟩

theorem computes_rewrite (st : SymbolTable) (owner : SymbolId) (r : Tree × Pass) :
    computes st (rewrite owner r).1 = computes st r.1 := by
  rcases rewrite_cases owner r with h | ⟨hr, i, stats, e, h, _⟩
  · rw [h]
  · obtain ⟨t, p⟩ := r
    cases t with
    | apply j f args => simp only [h, computes]
    | _ => simp [isApply] at hr

/-! ## The walk -/

section
variable (owner : SymbolId) (p : Pass)

theorem descend_info (t : Tree) : (descend rewrite owner t p).1.info = t.info := by
  cases t <;> simp only [descend, Tree.info]

theorem isApply_descend (t : Tree) : isApply (descend rewrite owner t p).1 = isApply t := by
  cases t <;> simp only [descend, isApply]

theorem walk_span (t : Tree) : (walk rewrite owner t p).1.span = t.span :=
  (rewrite_span_ty owner _).1.trans (congrArg Info.span (descend_info owner p t))

theorem walk_ty (t : Tree) : (walk rewrite owner t p).1.ty = t.ty :=
  (rewrite_span_ty owner _).2.trans (congrArg Info.ty (descend_info owner p t))

theorem walk_eq_descend {t : Tree} (h : isApply t = false) :
    walk rewrite owner t p = descend rewrite owner t p := by
  apply rewrite_of_not_isApply
  rw [isApply_descend, h]

theorem walk_bynameThunk {st : SymbolTable} {t : Tree} (h : WellTyped st t) :
    (walk rewrite owner t p).1.info.bynameThunk = t.info.bynameThunk := by
  cases ht : isApply t with
  | false => rw [walk_eq_descend owner p ht, descend_info]
  | true =>
      have hfun : isFunction t = false := by cases t <;> simp_all [isApply, isFunction]
      have hthunk : t.info.bynameThunk = false := by
        rw [← Bool.not_eq_true]
        intro hb
        simp [h.thunk hb] at hfun
      rw [hthunk, walk]
      rcases rewrite_cases owner (descend rewrite owner t p) with
        hr | ⟨_, i, stats, e, hr, _, _, hi⟩
      · rw [hr, descend_info, hthunk]
      · rw [hr, Tree.info, hi]

theorem computes_descend (st : SymbolTable) (t : Tree) (p : Pass) (owner : SymbolId) :
    computes st (descend rewrite owner t p).1 = computes st t := by
  cases t with
  | select i q name =>
      simp only [descend, computes, computes_rewrite, computes_descend st q p owner]
  | typed i e => simp only [descend, computes, computes_rewrite, computes_descend st e p owner]
  | typeApply i f => simp only [descend, computes, computes_descend st f p owner]
  | _ => simp only [descend, computes]

theorem computes_walk (st : SymbolTable) (t : Tree) :
    computes st (walk rewrite owner t p).1 = computes st t :=
  (computes_rewrite st owner _).trans (computes_descend st t p owner)

theorem receiverComputes_descend (st : SymbolTable) (t : Tree) (p : Pass) (owner : SymbolId) :
    receiverComputes st (descend rewrite owner t p).1 = receiverComputes st t := by
  cases t with
  | select i q name =>
      simp only [descend, receiverComputes, computes_rewrite, computes_descend]
  | typeApply i f =>
      simp only [descend, receiverComputes, receiverComputes_descend st f p owner]
  | _ => simp only [descend, receiverComputes]

theorem isOperatorSelect_descend (t : Tree) :
    isOperatorSelect (descend rewrite owner t p).1 = isOperatorSelect t := by
  cases t with
  | select i q name =>
      have hspan : (rewrite owner (descend rewrite owner q p)).1.span = q.span :=
        walk_span owner p q
      simp only [descend, isOperatorSelect, hspan]
  | _ => simp only [descend, isOperatorSelect]

theorem isInfixRassoc_descend (t : Tree) :
    isInfixRassoc (descend rewrite owner t p).1 = isInfixRassoc t := by
  cases t with
  | typeApply i f => simp only [descend, isInfixRassoc, isOperatorSelect_descend]
  | select i q name =>
      have h := isOperatorSelect_descend owner p (.select i q name)
      simp only [descend] at h
      simp only [descend, isInfixRassoc, h]
  | _ => simp only [descend, isInfixRassoc, isOperatorSelect]

theorem funSym_descend (t : Tree) : funSym (descend rewrite owner t p).1 = funSym t := by
  cases t with
  | typeApply i f =>
      simp only [descend, funSym, Tree.sym]
      exact congrArg Info.sym (descend_info owner p f)
  | _ => simp only [descend, funSym, Tree.sym, Tree.info]

theorem isEmpty_descendAll (ts : List Tree) :
    (descendAll rewrite owner ts p).1.isEmpty = ts.isEmpty := by
  cases ts <;> simp only [descendAll, List.isEmpty]

theorem hoists_descend {st : SymbolTable} {f a : Tree} (ha : WellTyped st a) (rest : List Tree)
    (q₁ q₂ : Pass) :
    hoists st (descend rewrite owner f p).1 (walk rewrite owner a q₁).1
      (descendAll rewrite owner rest q₂).1 = hoists st f a rest := by
  simp only [hoists, onlyOperand, isEmpty_descendAll, funSym_descend, isInfixRassoc_descend,
    walk_bynameThunk owner q₁ ha, computes_walk, receiverComputes_descend, walk_ty]

/-- The operator of an application is walked first. -/
theorem Chain.descend {f t : Tree} {args : List Tree} (h : Chain f args t) :
    Chain (descend rewrite owner f p).1
      (descendAll rewrite owner args (descend rewrite owner f p).2).1
      (descend rewrite owner t p).1 := by
  induction h with
  | operator i hf => exact .operator i (by rw [isApply_descend, hf])
  | clause i more h ih => exact .clause i _ ih

theorem Chain.descend_cons {f a t : Tree} {rest : List Tree} (h : Chain f (a :: rest) t) :
    Chain (TypedTrees.descend rewrite owner f p).1
      ((walk rewrite owner a (TypedTrees.descend rewrite owner f p).2).1 ::
        (descendAll rewrite owner rest
          (walk rewrite owner a (TypedTrees.descend rewrite owner f p).2).2).1)
      (TypedTrees.descend rewrite owner t p).1 := by
  have hdescend := h.descend owner p
  simp only [descendAll] at hdescend
  exact hdescend

end
end ScalaRs.Rassoc
