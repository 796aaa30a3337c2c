import ScalaRs.RassocWalk

/-! # The order of the operands

The operands of a right-associative application run left to right in the tree that the pass
leaves, exactly where an operand that it does not bind may as well run second. -/
namespace ScalaRs.Rassoc
open TypedTrees Effects
open Unification (Ty SymbolId)

/-- After the pass every application runs its function first. -/
def functionFirst (_ _ : Tree) : Bool := false

theorem functionFirst_of_isApply : ∀ g b, isApply g = true → functionFirst g b = false :=
  fun _ _ _ => rfl

theorem operandFirst_of_isApply : ∀ g b, isApply g = true → operandFirst g b = false := by
  intro g b hg
  cases g <;> first | rfl | simp [isApply] at hg

section
variable {V S : Type} (m : Meaning V S)

/-- The value of the operand and what its function has come to, once both have run, for a tree
that the pass leaves for an application. -/
def entering (st : SymbolTable) : Tree → Env V → Run S (V × Pending V)
  | .block _ stats call, ρ => do
      let ρ' ← runStats m st functionFirst stats ρ
      operands m st functionFirst call ρ'
  | t, ρ => operands m st functionFirst t ρ

/-- Wherever the pass comes to the infix application `t`, the tree that it leaves runs the
operand before the function, and passes the value that the operand had then. -/
def EntersInOrder (st : SymbolTable) (t : Tree) : Prop :=
  ∀ f a rest, Chain f (a :: rest) t → operandFirst f a = true →
    ∀ owner (p : Pass), st <+: p.st → ∀ ρ s,
      entering m (walk rewrite owner t p).2.st (walk rewrite owner t p).1 ρ s =
        Run.leftFirst (eval m st operandFirst a ρ) (head m st operandFirst f ρ) s

/-- An operand that the pass does not bind, or the receiver, reads the same before and after the
other one runs; and where both compute something, the order does not show. -/
def Harmless (st : SymbolTable) (t : Tree) : Prop :=
  ∀ f a rest, Chain f (a :: rest) t → operandFirst f a = true → ∀ ρ s,
    let left := eval m st operandFirst a ρ
    let right := head m st operandFirst f ρ
    (computes st a = false → Run.UndisturbedAt (fun s => (left s).1) right s) ∧
    (computes st a = true → receiverComputes st f = false →
      Run.UndisturbedAt (fun s => (right s).1) left s) ∧
    (computes st a = true → receiverComputes st f = true → onlyOperand st f rest = false →
      Run.rightFirst left right s = Run.leftFirst left right s)

end

section
variable {V S : Type} {m : Meaning V S} {st : SymbolTable}

/-! ## What does not compute -/

theorem isRead_reference {i : Info} (h : namesByName st i = false) (o : S → Option V) :
    (reference m st i o >>= finish m).IsRead := by
  have hforces : forces st i = false := by
    cases hi : i.sym != noSymbol <;> simp_all [forces, namesByName]
  simp only [reference, hforces, Bool.false_eq_true, if_false, Run.bind_assoc]
  exact (Run.isRead_reads o).bind fun v => Run.isRead_pure _

/-- What computes nothing reads the state only. -/
theorem isRead_eval (first : Tree → Tree → Bool) (t : Tree) (ht : All (WellTyped st) t)
    (hdef : isValDef t = false) (h : computes st t = false) (ρ : Env V) :
    (eval m st first t ρ).IsRead := by
  simp only [eval]
  cases t with
  | empty i | literal i c | this i | function i ps b =>
      simp only [head, Run.pure_bind, finish_ready]
      exact Run.isRead_pure _
  | ident i name =>
      simp only [computes, Bool.or_eq_false_iff] at h
      simp only [head, h.1, Bool.false_eq_true, if_false]
      exact isRead_reference h.2 _
  | select i q name =>
      simp only [computes, Bool.or_eq_false_iff] at h
      have hq := isRead_eval first q ht.2 (ht.here.expression q (by simp [expressions])) h.2 ρ
      simp only [head, h.1.1, Bool.false_eq_true, if_false, Run.bind_assoc]
      rw [← Run.bind_assoc]
      exact hq.bind fun v => isRead_reference h.1.2 _
  | typed i e =>
      have he := isRead_eval first e ht.2 (ht.here.expression e (by simp [expressions])) h ρ
      simp only [head, Run.bind_assoc, Run.pure_bind, finish_ready]
      rw [← Run.bind_assoc]
      exact he.bind fun v => Run.isRead_pure _
  | typeApply i f =>
      simp only [head]
      exact isRead_eval first f ht.2 (ht.here.expression f (by simp [expressions])) h ρ
  | valDef i name r => simp [isValDef] at hdef
  | _ => simp [computes] at h

theorem isOperatorSelect_eq_select {f : Tree} (h : isOperatorSelect f = true) :
    ∃ i q name, f = .select i q name := by
  cases f <;> simp [isOperatorSelect] at h
  exact ⟨_, _, _, rfl⟩

theorem isRead_select (first : Tree → Tree → Bool) {f : Tree} (hf : All (WellTyped st) f)
    (hop : isOperatorSelect f = true) (h : receiverComputes st f = false) (ρ : Env V) :
    (head m st first f ρ).IsRead := by
  have hmethod := hf.here.operator hop
  obtain ⟨i, q, name, rfl⟩ := isOperatorSelect_eq_select hop
  have hq := isRead_eval first q hf.2 (hf.here.expression q (by simp [expressions])) h ρ (m := m)
  simp only [head, show namesMethod st i = true from hmethod, if_true]
  rw [← Run.bind_assoc]
  exact hq.bind fun v => Run.isRead_pure _

/-- A receiver that computes nothing reads the state only. -/
theorem isRead_receiver (first : Tree → Tree → Bool) {f : Tree} (hf : All (WellTyped st) f)
    (hassoc : isInfixRassoc f = true) (h : receiverComputes st f = false) (ρ : Env V) :
    (head m st first f ρ).IsRead := by
  cases f with
  | typeApply i g =>
      simp only [head]
      exact isRead_select first hf.2 hassoc h ρ
  | _ => exact isRead_select first hf hassoc h ρ

/-! ## Where the order does not show -/

theorem Chain.isValDef_eq {f t : Tree} {args : List Tree} (h : Chain f args t)
    (ht : All (WellTyped st) t) : ∀ a ∈ args, isValDef a = false := by
  induction h with
  | operator i hf => exact ht.here.expression
  | clause i more h ih => exact ih ht.2.1

/-- What is asked where the pass leaves an operand in its place is that the order does not show. -/
theorem swap_iff {f a t : Tree} {rest : List Tree} (hchain : Chain f (a :: rest) t)
    (ht : All (WellTyped st) t) (hfirst : operandFirst f a = true)
    (hhoists : hoists st f a rest = false) (ρ : Env V) (s : S) :
    Run.rightFirst (eval m st operandFirst a ρ) (head m st operandFirst f ρ) s =
      Run.leftFirst (eval m st operandFirst a ρ) (head m st operandFirst f ρ) s ↔
    (computes st a = false → Run.UndisturbedAt (fun s => (eval m st operandFirst a ρ s).1)
      (head m st operandFirst f ρ) s) ∧
    (computes st a = true → receiverComputes st f = false →
      Run.UndisturbedAt (fun s => (head m st operandFirst f ρ s).1)
        (eval m st operandFirst a ρ) s) ∧
    (computes st a = true → receiverComputes st f = true → onlyOperand st f rest = false →
      Run.rightFirst (eval m st operandFirst a ρ) (head m st operandFirst f ρ) s =
        Run.leftFirst (eval m st operandFirst a ρ) (head m st operandFirst f ρ) s) := by
  have hall := hchain.all ht
  have hassoc : isInfixRassoc f = true ∧ a.info.bynameThunk = false := by
    simpa [operandFirst] using hfirst
  cases ha : computes st a with
  | false =>
      have hread := isRead_eval (m := m) operandFirst a hall.2.1
        (hchain.isValDef_eq ht a List.mem_cons_self) ha ρ
      simp [hread.rightFirst_iff]
  | true =>
      cases hf : receiverComputes st f with
      | false =>
          have hread := isRead_receiver (m := m) operandFirst hall.1 hassoc.1 hf ρ
          simp [Run.IsRead.rightFirst_iff_right _ hread]
      | true =>
          have honly : onlyOperand st f rest = false := by
            simpa [hoists, ha, hf, hassoc, ht.here.operand f a rest hchain hfirst] using hhoists
          simp [honly]

/-! ## The local for an operand -/

section
variable {owner : SymbolId} {p : Pass} {f a t : Tree} {rest : List Tree}

theorem get_operandSymbol (hst : p.st ++ [operandSymbol owner p a.ty] <+: st) :
    st.get p.st.length = operandSymbol owner p a.ty := by
  obtain ⟨more, rfl⟩ := hst
  simp [SymbolTable.get]

/-- The local has the value that the operand had. -/
theorem eval_operandIdent (hst : p.st ++ [operandSymbol owner p a.ty] <+: st)
    (first : Tree → Tree → Bool) (name : String) (ρ : Env V) (v : V) :
    eval m st first (.ident (operandInfo p a) name) (ρ.set p.st.length v) = pure v := by
  have hget := get_operandSymbol hst
  have hmethod : namesMethod st (operandInfo p a) = false := by
    simp [namesMethod, operandInfo, hget, operandSymbol]
  have hmutable : isMutable st (operandInfo p a).sym = false := by
    simp [isMutable, operandInfo, hget, operandSymbol]
  have hforces : forces st (operandInfo p a) = false := by
    simp [forces, operandInfo, hget, operandSymbol]
  have hread : (Run.reads fun _ => (ρ.set p.st.length v) (operandInfo p a).sym : Run S V) =
      pure v := by
    funext s
    simp [operandInfo]
  simp only [eval, head, hmethod, hmutable, reference, hforces, Bool.false_eq_true, if_false,
    hread, Run.pure_bind, finish_ready]

section
variable (hst : p.st ++ [operandSymbol owner p a.ty] <+: st) (hchain : Chain f (a :: rest) t)
  (ht : Known p.st.length t) (name : String) (ρ : Env V)
include hst hchain ht

/-- The call that is left runs its function, with the local for the operand. -/
theorem operands_setOperand (v : V) :
    operands m st functionFirst (setOperand (.ident (operandInfo p a) name) t)
      (ρ.set p.st.length v) = (do
        let q ← head m st functionFirst f ρ
        pure (v, q)) := by
  have hagree : st.AgreeBelow p.st.length st := fun _ _ => rfl
  have hf : head m st functionFirst f (ρ.set p.st.length v) = head m st functionFirst f ρ :=
    head_congr m functionFirst hagree f (hchain.all ht).1 (ρ.agreeBelow_set v le_rfl)
  rw [(hchain.withOperand _).operands_eq]
  simp only [functionFirst, Bool.false_eq_true, if_false, Run.rightFirst]
  simp only [eval_operandIdent hst, Run.pure_bind]
  exact congrArg (· >>= fun q => pure (v, q)) hf

/-- The block that is left runs the operand, its function, and then what follows them. -/
theorem entering_block (i : Info) :
    entering m st (.block i [.valDef (operandInfo p a) name a]
      (setOperand (.ident (operandInfo p a) name) t)) ρ =
      Run.leftFirst (eval m st functionFirst a ρ) (head m st functionFirst f ρ) := by
  have hmutable : isMutable st (operandInfo p a).sym = false := by
    simp [isMutable, operandInfo, get_operandSymbol hst, operandSymbol]
  simp only [entering, runStats, head, hmutable, Bool.false_eq_true, if_false, Run.bind_assoc,
    Run.pure_bind, finish_ready, Env.after, Run.leftFirst, eval]
  apply Run.bind_congr
  intro q
  apply Run.bind_congr
  intro v
  exact operands_setOperand hst hchain ht name ρ v

theorem eval_block (i : Info) :
    eval m st functionFirst (.block i [.valDef (operandInfo p a) name a]
      (setOperand (.ident (operandInfo p a) name) t)) ρ = (do
        let x ← Run.leftFirst (eval m st functionFirst a ρ) (head m st functionFirst f ρ)
        let q ← afterOperands m st functionFirst t ρ x
        finish m q) := by
  have hmutable : isMutable st (operandInfo p a).sym = false := by
    simp [isMutable, operandInfo, get_operandSymbol hst, operandSymbol]
  have hagree (v : V) : (ρ.set p.st.length v).AgreeBelow p.st.length ρ :=
    ρ.agreeBelow_set v le_rfl
  simp only [eval, head, runStats, hmutable, Bool.false_eq_true, if_false, Run.bind_assoc,
    Run.pure_bind, finish_ready, Run.bind_pure, Env.after, Run.leftFirst]
  apply Run.bind_congr
  intro q
  apply Run.bind_congr
  intro v
  have hcall : head m st functionFirst (setOperand (.ident (operandInfo p a) name) t)
      (ρ.set p.st.length v) = _ := 
    (hchain.withOperand _).head_eq functionFirst_of_isApply _
  have hafter (x : V × Pending V) : afterOperands m st functionFirst
      (setOperand (.ident (operandInfo p a) name) t) (ρ.set p.st.length v) x =
        afterOperands m st functionFirst t ρ x :=
    (hchain.afterOperands_setOperand _ _ x).trans (hchain.afterOperands_congr ht (hagree v) x)
  rw [show (operandInfo p a).sym = p.st.length from rfl, hcall,
    operands_setOperand hst hchain ht name ρ v]
  simp only [Run.bind_assoc, Run.pure_bind, hafter]

end
end

/-! ## The walk -/

theorem chain_cases (t : Tree) : isApply t = false ∨ ∃ f args, Chain f args t := by
  cases t with
  | apply i f args =>
      right
      rcases chain_cases f with hf | ⟨g, as, hg⟩
      · exact ⟨f, args, .operator i hf⟩
      · exact ⟨g, as, .clause i args hg⟩
  | _ => exact Or.inl rfl

theorem Chain.unique {f g t : Tree} {args as : List Tree} (h : Chain f args t)
    (h' : Chain g as t) : f = g ∧ args = as := by
  have heq := h.operatorApply_eq.symm.trans h'.operatorApply_eq
  simpa using heq

theorem Chain.not_hoists {f a t : Tree} {rest : List Tree} (h : Chain f (a :: rest) t)
    (hhoists : hoists st f a rest = false) :
    ∀ g b bs, Chain g (b :: bs) t → hoists st g b bs = false := by
  intro g b bs h'
  obtain ⟨rfl, hargs⟩ := h.unique h'
  simp only [List.cons.injEq] at hargs
  obtain ⟨rfl, rfl⟩ := hargs
  exact hhoists

theorem Chain.operands_functionFirst {f a t : Tree} {rest : List Tree}
    (h : Chain f (a :: rest) t) (ρ : Env V) : operands m st functionFirst t ρ =
      Run.rightFirst (eval m st functionFirst a ρ) (head m st functionFirst f ρ) :=
  h.operands_eq ρ

variable (m st) in
/-- The parts of `t` do after the walk what they did before it. -/
structure Walked (owner : SymbolId) (p : Pass) (t : Tree) : Prop where
  plain : (∀ f a rest, ¬ Chain f (a :: rest) t) → ∀ ρ,
    head m st functionFirst (descend rewrite owner t p).1 ρ = head m st operandFirst t ρ
  function : ∀ {f a rest}, Chain f (a :: rest) t → ∀ ρ,
    head m st functionFirst (descend rewrite owner f p).1 ρ = head m st operandFirst f ρ
  operand : ∀ {f a rest}, Chain f (a :: rest) t → ∀ ρ,
    eval m st functionFirst (walk rewrite owner a (descend rewrite owner f p).2).1 ρ =
      eval m st operandFirst a ρ
  after : ∀ {f a rest}, Chain f (a :: rest) t → ∀ ρ x,
    afterOperands m st functionFirst (descend rewrite owner t p).1 ρ x =
      afterOperands m st operandFirst t ρ x

section
variable {owner : SymbolId} {p : Pass} {f a t : Tree} {rest : List Tree}

/-- The test of the pass has the answer that it has for the tree before the walk. -/
theorem hoists_walked (hst : (descend rewrite owner t p).2.st <+: st)
    (hknown : Known p.st.length t) (ht : All (WellTyped st) t) (hchain : Chain f (a :: rest) t) :
    hoists (descend rewrite owner t p).2.st (descend rewrite owner f p).1
      (walk rewrite owner a (descend rewrite owner f p).2).1
      (descendAll rewrite owner rest
        (walk rewrite owner a (descend rewrite owner f p).2).2).1 = hoists st f a rest := by
  have hwalked := (descend_extends rewrite_extends owner t p).known hknown
  have hall := (hchain.descend_cons owner p).all hwalked
  rw [hoists_congr (SymbolTable.agreeBelow_of_isPrefix hst) hall.1 hall.2.1]
  exact hoists_descend owner p (hchain.all ht).2.1.here rest _ _

section
variable (hwalked : Walked m st owner p t) (hst : (walk rewrite owner t p).2.st <+: st)
  (hknown : Known p.st.length t) (ht : All (WellTyped st) t)

include hst hknown ht in
/-- Where the test of the pass fails, the walk leaves the application itself. -/
theorem walk_of_not_hoists (h : ∀ f a rest, Chain f (a :: rest) t → hoists st f a rest = false) :
    walk rewrite owner t p = descend rewrite owner t p := by
  apply rewrite_eq_self
  intro f' a' rest' hop
  rcases chain_cases t with htf | ⟨f, args, hchain⟩
  · have hnone : operatorApply (descend rewrite owner t p).1 = none :=
      operatorApply_eq_none (by rw [isApply_descend, htf])
    simp [hnone] at hop
  · cases args with
    | nil =>
        have hnil := (hchain.descend owner p).operatorApply_eq
        simp [hnil, descendAll] at hop
    | cons a rest =>
        have hcons := (hchain.descend_cons owner p).operatorApply_eq
        rw [hcons] at hop
        simp only [Option.some.injEq, Prod.mk.injEq, List.cons.injEq] at hop
        obtain ⟨rfl, rfl, rfl⟩ := hop
        have hprefix := (rewrite_extends owner (descend rewrite owner t p)).table.trans hst
        rw [hoists_walked hprefix hknown ht hchain, h f a rest hchain]

include hst hknown ht in
/-- Where it holds, the walk leaves a block. -/
theorem walk_of_hoists (hchain : Chain f (a :: rest) t) (h : hoists st f a rest = true) :
    let r := descend rewrite owner t p
    let a' := (walk rewrite owner a (descend rewrite owner f p).2).1
    ∃ i name, (walk rewrite owner t p).1 = .block i [.valDef (operandInfo r.2 a') name a']
        (setOperand (.ident (operandInfo r.2 a') name) r.1) ∧
      (walk rewrite owner t p).2.st = r.2.st ++ [operandSymbol owner r.2 a'.ty] := by
  have hprefix := (rewrite_extends owner (descend rewrite owner t p)).table.trans hst
  have hcons := (hchain.descend_cons owner p).operatorApply_eq
  have hrewrite := rewrite_of_hoists owner hcons
    ((hoists_walked hprefix hknown ht hchain).trans h)
  exact ⟨_, _, congrArg Prod.fst hrewrite, congrArg (fun r => r.2.st) hrewrite⟩

include hwalked hst hknown ht in
theorem entering_walk (hchain : Chain f (a :: rest) t) (ρ : Env V) :
    entering m st (walk rewrite owner t p).1 ρ =
      if hoists st f a rest then
        Run.leftFirst (eval m st operandFirst a ρ) (head m st operandFirst f ρ)
      else Run.rightFirst (eval m st operandFirst a ρ) (head m st operandFirst f ρ) := by
  cases h : hoists st f a rest with
  | true =>
      obtain ⟨i, name, htree, htable⟩ := walk_of_hoists hst hknown ht hchain h
      have hknown' := (descend_extends rewrite_extends owner t p).known hknown
      rw [htable] at hst
      rw [htree, entering_block hst (hchain.descend_cons owner p) hknown',
        hwalked.operand hchain, hwalked.function hchain, if_pos rfl]
  | false =>
      have hself := walk_of_not_hoists hst hknown ht (hchain.not_hoists h)
      have hchain' := hchain.descend_cons owner p
      have hentering : entering m st (descend rewrite owner t p).1 ρ =
          operands m st functionFirst (descend rewrite owner t p).1 ρ := by
        have happly := hchain'.isApply_eq
        cases hr : (descend rewrite owner t p).1 with
        | block i stats e => simp [hr, isApply] at happly
        | _ => simp only [entering]
      rw [hself, hentering, hchain'.operands_functionFirst, hwalked.operand hchain,
        hwalked.function hchain]
      rfl

include hwalked hst hknown ht in
/-- The tree that the walk leaves has the value of the one it was given. -/
theorem eval_walk (hharmless : Harmless m st t) (ρ : Env V) :
    eval m st functionFirst (walk rewrite owner t p).1 ρ = eval m st operandFirst t ρ := by
  by_cases hplain : ∀ f a rest, ¬ Chain f (a :: rest) t
  · rw [walk_of_not_hoists hst hknown ht fun f a rest h => absurd h (hplain f a rest)]
    simp only [eval, hwalked.plain hplain]
  · push Not at hplain
    obtain ⟨f, a, rest, hchain⟩ := hplain
    have hafter := fun x => hwalked.after hchain ρ x
    have hsource : eval m st operandFirst t ρ = (do
        let x ← operands m st operandFirst t ρ
        let q ← afterOperands m st operandFirst t ρ x
        finish m q) := by
      rw [eval, hchain.head_eq operandFirst_of_isApply, Run.bind_assoc]
    rw [hsource, hchain.operands_eq]
    cases h : hoists st f a rest with
    | true =>
        have hfirst : operandFirst f a = true := by
          simp only [hoists, Bool.and_eq_true] at h
          simp only [operandFirst, Bool.and_eq_true]
          exact ⟨h.1.1.1.1.2, h.1.1.1.2⟩
        obtain ⟨i, name, htree, htable⟩ := walk_of_hoists hst hknown ht hchain h
        have hknown' := (descend_extends rewrite_extends owner t p).known hknown
        rw [htable] at hst
        rw [htree, eval_block hst (hchain.descend_cons owner p) hknown', hwalked.operand hchain,
          hwalked.function hchain, if_pos hfirst]
        simp only [hafter]
    | false =>
        have hself := walk_of_not_hoists hst hknown ht (hchain.not_hoists h)
        have hchain' := hchain.descend_cons owner p
        have horder : Run.rightFirst (eval m st operandFirst a ρ) (head m st operandFirst f ρ) =
            if operandFirst f a then
              Run.leftFirst (eval m st operandFirst a ρ) (head m st operandFirst f ρ)
            else Run.rightFirst (eval m st operandFirst a ρ) (head m st operandFirst f ρ) := by
          split
          · rename_i hfirst
            funext s
            exact (swap_iff hchain ht hfirst h ρ s).2 (hharmless f a rest hchain hfirst ρ s)
          · rfl
        rw [← horder, hself, eval, hchain'.head_eq functionFirst_of_isApply,
          hchain'.operands_functionFirst, hwalked.operand hchain, hwalked.function hchain,
          Run.bind_assoc]
        simp only [hafter]

end
end

/-! ## The walk of a whole tree -/

variable (m st) in
structure Good (n : ℕ) (t : Tree) : Prop where
  known : KnownAt n t
  typed : WellTyped st t
  harmless : Harmless m st t

theorem bind_finish_congr {first₁ first₂ : Tree → Tree → Bool} {t u : Tree} {ρ : Env V}
    (h : eval m st first₁ t ρ = eval m st first₂ u ρ) {β : Type} (k : V → Run S β) :
    (do
      let p ← head m st first₁ t ρ
      let v ← finish m p
      k v) = (do
      let p ← head m st first₂ u ρ
      let v ← finish m p
      k v) := by
  simp only [← Run.bind_assoc]
  exact congrArg (· >>= k) h

section
variable {owner : SymbolId} {n : ℕ}

theorem Walked.of_head {p : Pass} {t : Tree} (ht : isApply t = false)
    (h : ∀ ρ, head m st functionFirst (descend rewrite owner t p).1 ρ =
      head m st operandFirst t ρ) : Walked m st owner p t where
  plain _ := h
  function hchain := by simp [hchain.isApply_eq] at ht
  operand hchain := by simp [hchain.isApply_eq] at ht
  after hchain := by simp [hchain.isApply_eq] at ht

theorem Walked.eval_eq {p : Pass} {t : Tree}
    (ih : (descend rewrite owner t p).2.st <+: st → Walked m st owner p t)
    (hgood : All (Good m st n) t) (hn : n ≤ p.st.length)
    (hst : (walk rewrite owner t p).2.st <+: st) (ρ : Env V) :
    eval m st functionFirst (walk rewrite owner t p).1 ρ = eval m st operandFirst t ρ :=
  eval_walk (ih ((rewrite_extends owner _).table.trans hst)) hst
    (hgood.imp fun _ h => h.known.mono hn) (hgood.imp fun _ h => h.typed) hgood.here.harmless ρ

theorem after_walk {p : Pass} (ρ : Env V) (t : Tree) (v : V) :
    ρ.after st (walk rewrite owner t p).1 v = ρ.after st t v := by
  cases t with
  | apply i f args =>
      rw [walk]
      rcases rewrite_cases owner (descend rewrite owner (.apply i f args) p) with
        h | ⟨_, j, stats, e, h, _⟩
      · rw [h]
        rfl
      · rw [h]
        rfl
  | _ => rw [walk_eq_descend owner p rfl]; simp only [descend, Env.after]

theorem isEmptyTree_walk {p : Pass} (t : Tree) :
    isEmptyTree (walk rewrite owner t p).1 = isEmptyTree t := by
  cases t with
  | apply i f args =>
      rw [walk]
      rcases rewrite_cases owner (descend rewrite owner (.apply i f args) p) with
        h | ⟨_, j, stats, e, h, _⟩
      · rw [h]
        rfl
      · rw [h]
        rfl
  | _ => rw [walk_eq_descend owner p rfl]; simp only [descend, isEmptyTree]

theorem place_walk {p : Pass} {l : Tree} (hl : isApply l = false)
    (hq : ∀ j q name, l = .select j q name → ∀ ρ,
      eval m st functionFirst (walk rewrite owner q p).1 ρ = eval m st operandFirst q ρ)
    (ρ : Env V) :
    place m st functionFirst (walk rewrite owner l p).1 ρ = place m st operandFirst l ρ := by
  rw [walk_eq_descend owner p hl]
  cases l with
  | select j q name =>
      simp only [descend, place]
      exact bind_finish_congr (hq j q name rfl ρ) _
  | apply i f args => simp [isApply] at hl
  | _ => simp only [descend, place]

/-- The walk of an application, from the walks of its function and of its arguments. -/
theorem walked_apply {p : Pass} (i : Info) {f : Tree} {args : List Tree}
    (hf : Walked m st owner p f)
    (hargs : ∀ ρ, values m st functionFirst
      (descendAll rewrite owner args (descend rewrite owner f p).2).1 ρ =
        values m st operandFirst args ρ)
    (hfirst : ∀ a rest, args = a :: rest →
      (∀ ρ, eval m st functionFirst (walk rewrite owner a (descend rewrite owner f p).2).1 ρ =
        eval m st operandFirst a ρ) ∧
      ∀ ρ, values m st functionFirst (descendAll rewrite owner rest
        (walk rewrite owner a (descend rewrite owner f p).2).2).1 ρ =
          values m st operandFirst rest ρ) :
    Walked m st owner p (.apply i f args) := by
  have hdescend : (descend rewrite owner (.apply i f args) p).1 =
      .apply i (descend rewrite owner f p).1
        (descendAll rewrite owner args (descend rewrite owner f p).2).1 := rfl
  rcases chain_cases f with hna | ⟨g, as, hchain⟩
  · have hplain := hf.plain fun g b bs h => by simp [h.isApply_eq] at hna
    cases args with
    | nil =>
        constructor
        · intro _ ρ
          simp only [hdescend, descendAll, head, hplain]
        all_goals
          intro g b bs h
          have heq := h.unique (.operator i hna)
          simp at heq
    | cons a rest =>
        have hoperator : Chain f (a :: rest) (.apply i f (a :: rest)) := .operator i hna
        have hna' : isApply (descend rewrite owner f p).1 = false := by rw [isApply_descend, hna]
        constructor
        · exact fun h => absurd hoperator (h f a rest)
        all_goals
          intro g b bs h
          obtain ⟨rfl, heq⟩ := hoperator.unique h
          simp only [List.cons.injEq] at heq
          obtain ⟨rfl, rfl⟩ := heq
        · exact hplain
        · exact (hfirst a rest rfl).1
        · intro ρ x
          have hrest := (hfirst a rest rfl).2 ρ
          rw [afterOperands_operator i hna, ← hrest]
          simp only [hdescend, descendAll]
          rw [afterOperands_operator i hna']
          rfl
  · constructor
    · intro h ρ
      have hplain := hf.plain (fun g b bs h' => h g b bs (.clause i args h')) ρ
      rw [hdescend, head_apply i args (fun b => operandFirst_of_isApply f b hchain.isApply_eq),
        head_apply i _ (fun _ => rfl), hplain, hargs]
    all_goals
      intro g b bs h
      have hfb : Chain g (b :: bs) f := by
        cases h with
        | operator j hna => simp [hchain.isApply_eq] at hna
        | clause j more h' => exact h'
    · exact hf.function hfb
    · exact hf.operand hfb
    · intro ρ x
      rw [hdescend, afterOperands_clause i _ (hchain.descend owner p).isApply_eq,
        afterOperands_clause i _ hchain.isApply_eq, hf.after hfb, hargs]

mutual

/-- The walk below `t` keeps what its parts do, if every application there is harmless. -/
theorem walked_descend (owner : SymbolId) (t : Tree) (p : Pass) (hbelow : Below (Good m st n) t)
    (htyped : WellTyped st t) (hn : n ≤ p.st.length)
    (hst : (descend rewrite owner t p).2.st <+: st) : Walked m st owner p t := by
  cases t with
  | select i q name =>
      have hq := Walked.eval_eq (walked_descend owner q p hbelow.below hbelow.here.typed hn)
        hbelow hn hst
      apply Walked.of_head rfl
      intro ρ
      simp only [descend, head]
      exact bind_finish_congr (hq ρ) _
  | apply i f args =>
      have hargs := (descendAll_extends rewrite_extends owner args (descend rewrite owner f p).2)
      have hf := walked_descend owner f p hbelow.1.below hbelow.1.here.typed hn
        (hargs.table.trans hst)
      have hn' := hn.trans (descend_extends rewrite_extends owner f p).le
      apply walked_apply i hf (values_descendAll owner args _ hbelow.2 hn' hst)
      intro a rest heq
      cases args with
      | nil => simp at heq
      | cons b bs =>
          simp only [List.cons.injEq] at heq
          obtain ⟨rfl, rfl⟩ := heq
          have ha := walk_extends rewrite_extends owner b (descend rewrite owner f p).2
          have hbs := descendAll_extends rewrite_extends owner bs
            (walk rewrite owner b (descend rewrite owner f p).2).2
          exact ⟨Walked.eval_eq (walked_descend owner b _ hbelow.2.1.below hbelow.2.1.here.typed
            hn') hbelow.2.1 hn' (hbs.table.trans hst),
            values_descendAll owner bs _ hbelow.2.2 (hn'.trans ha.le) hst⟩
  | typeApply i f =>
      have hf := walked_descend owner f p hbelow.below hbelow.here.typed hn hst
      apply Walked.of_head rfl
      intro ρ
      have hna := htyped.func i f rfl
      simp only [descend, head]
      exact hf.plain (fun g b bs h => by simp [h.isApply_eq] at hna) ρ
  | typed i e | throw i e =>
      have he := Walked.eval_eq (walked_descend owner e p hbelow.below hbelow.here.typed hn)
        hbelow hn hst
      apply Walked.of_head rfl
      intro ρ
      simp only [descend, head]
      exact bind_finish_congr (he ρ) _
  | function i ps b =>
      have hb := Walked.eval_eq (walked_descend owner b p hbelow.below hbelow.here.typed hn)
        hbelow hn hst
      apply Walked.of_head rfl
      intro ρ
      simp only [descend, head]
      have hclosure := funext fun vs => hb (ρ.bind ps vs)
      exact congrArg (fun g => pure (Pending.ready (m.closure g))) hclosure
  | block i stats e =>
      have hstats := descendAll_extends rewrite_extends owner stats p
      have hext := walk_extends rewrite_extends owner e (descendAll rewrite owner stats p).2
      have hn' := hn.trans hstats.le
      have hs := runStats_descendAll owner stats p hbelow.1 hn (hext.table.trans hst)
      have he := Walked.eval_eq (walked_descend owner e _ hbelow.2.below hbelow.2.here.typed hn')
        hbelow.2 hn' hst
      apply Walked.of_head rfl
      intro ρ
      simp only [descend, head, hs]
      apply Run.bind_congr
      intro ρ'
      exact bind_finish_congr (he ρ') _
  | ifElse i c u e =>
      have hc := walk_extends rewrite_extends owner c p
      have hu := walk_extends rewrite_extends owner u (walk rewrite owner c p).2
      have he := walk_extends rewrite_extends owner e
        (walk rewrite owner u (walk rewrite owner c p).2).2
      have hcond := Walked.eval_eq (walked_descend owner c p hbelow.1.below
        hbelow.1.here.typed hn) hbelow.1 hn (hu.table.trans (he.table.trans hst))
      have hthen := Walked.eval_eq (walked_descend owner u _ hbelow.2.1.below
        hbelow.2.1.here.typed (hn.trans hc.le)) hbelow.2.1 (hn.trans hc.le) (he.table.trans hst)
      have helse := Walked.eval_eq (walked_descend owner e _ hbelow.2.2.below
        hbelow.2.2.here.typed (hn.trans (hc.le.trans hu.le))) hbelow.2.2
        (hn.trans (hc.le.trans hu.le)) hst
      apply Walked.of_head rfl
      intro ρ
      simp only [descend, head]
      refine (bind_finish_congr (hcond ρ) _).trans ?_
      apply Run.bind_congr
      intro q
      apply Run.bind_congr
      intro v
      split
      · exact bind_finish_congr (hthen ρ) _
      · exact bind_finish_congr (helse ρ) _
  | matchOn i s cs =>
      have hs := walk_extends rewrite_extends owner s p
      have hcs := descendCases_extends rewrite_extends owner cs (walk rewrite owner s p).2
      have hselector := Walked.eval_eq (walked_descend owner s p hbelow.1.below
        hbelow.1.here.typed hn) hbelow.1 hn (hcs.table.trans hst)
      have hcases := runCases_descendCases owner cs _ hbelow.2 (hn.trans hs.le) hst
      apply Walked.of_head rfl
      intro ρ
      simp only [descend, head]
      refine (bind_finish_congr (hselector ρ) _).trans ?_
      apply Run.bind_congr
      intro q
      apply Run.bind_congr
      intro v
      exact congrArg (· >>= fun w => pure (Pending.ready w)) (hcases v ρ)
  | assign i l r =>
      have hl := walk_extends rewrite_extends owner l p
      have hr := walk_extends rewrite_extends owner r (walk rewrite owner l p).2
      have hna := htyped.target i l r rfl
      have hsym : (walk rewrite owner l p).1.sym = l.sym := by
        rw [walk_eq_descend owner p hna]
        exact congrArg Info.sym (descend_info owner p l)
      have hrhs := Walked.eval_eq (walked_descend owner r _ hbelow.2.below
        hbelow.2.here.typed (hn.trans hl.le)) hbelow.2 (hn.trans hl.le) hst
      have hplace : ∀ ρ, place m st functionFirst (walk rewrite owner l p).1 ρ =
          place m st operandFirst l ρ := place_walk hna fun j q name hlq => by
          cases l with
          | select j' q' name' =>
              simp only [Tree.select.injEq] at hlq
              obtain ⟨rfl, rfl, rfl⟩ := hlq
              have htable := (walk_eq_descend owner p hna ▸ hr.table.trans hst : _)
              exact Walked.eval_eq (walked_descend owner q' p hbelow.1.2.below
                hbelow.1.2.here.typed hn) hbelow.1.2 hn htable
          | _ => simp at hlq
      apply Walked.of_head rfl
      intro ρ
      simp only [descend, head]
      refine (congrArg (· >>= _) (hplace ρ)).trans ?_
      apply Run.bind_congr
      intro us
      refine (bind_finish_congr (hrhs ρ) _).trans ?_
      simp only [show (rewrite owner (descend rewrite owner l p)).1.sym = l.sym from hsym]
  | valDef i name r =>
      have hr := Walked.eval_eq (walked_descend (if i.sym = noSymbol then owner else i.sym) r p
        hbelow.below hbelow.here.typed hn) hbelow hn hst
      apply Walked.of_head rfl
      intro ρ
      simp only [descend, head]
      exact bind_finish_congr (hr ρ) _
  | _ =>
      apply Walked.of_head rfl
      intro ρ
      simp only [descend, head]

theorem values_descendAll (owner : SymbolId) (ts : List Tree) (p : Pass)
    (hgood : AllArgs (Good m st n) ts) (hn : n ≤ p.st.length)
    (hst : (descendAll rewrite owner ts p).2.st <+: st) (ρ : Env V) :
    values m st functionFirst (descendAll rewrite owner ts p).1 ρ =
      values m st operandFirst ts ρ := by
  cases ts with
  | nil => simp only [descendAll, values]
  | cons t ts =>
      have ht := walk_extends rewrite_extends owner t p
      have hts := descendAll_extends rewrite_extends owner ts (walk rewrite owner t p).2
      have hhead := Walked.eval_eq (walked_descend owner t p hgood.1.below hgood.1.here.typed hn)
        hgood.1 hn (hts.table.trans hst) ρ
      have htail := values_descendAll owner ts _ hgood.2 (hn.trans ht.le) hst ρ
      simp only [descendAll, values]
      refine (bind_finish_congr hhead _).trans ?_
      apply Run.bind_congr
      intro q
      apply Run.bind_congr
      intro v
      exact congrArg (· >>= fun vs => pure (v :: vs)) htail

theorem runStats_descendAll (owner : SymbolId) (ts : List Tree) (p : Pass)
    (hgood : AllArgs (Good m st n) ts) (hn : n ≤ p.st.length)
    (hst : (descendAll rewrite owner ts p).2.st <+: st) (ρ : Env V) :
    runStats m st functionFirst (descendAll rewrite owner ts p).1 ρ =
      runStats m st operandFirst ts ρ := by
  cases ts with
  | nil => simp only [descendAll, runStats]
  | cons t ts =>
      have ht := walk_extends rewrite_extends owner t p
      have hts := descendAll_extends rewrite_extends owner ts (walk rewrite owner t p).2
      have hhead := Walked.eval_eq (walked_descend owner t p hgood.1.below hgood.1.here.typed hn)
        hgood.1 hn (hts.table.trans hst) ρ
      simp only [descendAll, runStats]
      refine (bind_finish_congr hhead _).trans ?_
      apply Run.bind_congr
      intro q
      apply Run.bind_congr
      intro v
      have hafter : ρ.after st (walk rewrite owner t p).1 v = ρ.after st t v := after_walk ρ t v
      exact (congrArg _ hafter).trans
        (runStats_descendAll owner ts _ hgood.2 (hn.trans ht.le) hst _)

theorem runCases_descendCases (owner : SymbolId) (cs : Cases) (p : Pass)
    (hgood : AllCases (Good m st n) cs) (hn : n ≤ p.st.length)
    (hst : (descendCases rewrite owner cs p).2.st <+: st) (v : V) (ρ : Env V) :
    runCases m st functionFirst (descendCases rewrite owner cs p).1 v ρ =
      runCases m st operandFirst cs v ρ := by
  cases cs with
  | nil => simp only [descendCases, runCases]
  | cons pat g b rest =>
      have hg := walk_extends rewrite_extends owner g p
      have hb := walk_extends rewrite_extends owner b (walk rewrite owner g p).2
      have hrest := descendCases_extends rewrite_extends owner rest
        (walk rewrite owner b (walk rewrite owner g p).2).2
      have hguard := Walked.eval_eq (walked_descend owner g p hgood.1.below hgood.1.here.typed hn)
        hgood.1 hn (hb.table.trans (hrest.table.trans hst))
      have hbody := Walked.eval_eq (walked_descend owner b _ hgood.2.1.below
        hgood.2.1.here.typed (hn.trans hg.le)) hgood.2.1 (hn.trans hg.le) (hrest.table.trans hst)
      have hcases := runCases_descendCases owner rest _ hgood.2.2
        (hn.trans (hg.le.trans hb.le)) hst v ρ
      have hempty : isEmptyTree (walk rewrite owner g p).1 = isEmptyTree g := isEmptyTree_walk g
      simp only [descendCases, runCases]
      apply Run.bind_congr
      intro r
      cases r with
      | none => exact hcases
      | some vs =>
          refine (bind_finish_congr (hguard (ρ.bind pat.binders vs)) _).trans ?_
          apply Run.bind_congr
          intro q
          apply Run.bind_congr
          intro w
          simp only [show isEmptyTree (rewrite owner (descend rewrite owner g p)).1 =
            isEmptyTree g from hempty]
          split
          · exact hbody (ρ.bind pat.binders vs)
          · exact hcases

end

end

/-! ## Longer symbol tables -/

theorem WellTyped.mono {st₁ st₂ : SymbolTable} (h : st₁ <+: st₂) {t : Tree}
    (hknown : KnownAt st₁.length t) (ht : WellTyped st₁ t) : WellTyped st₂ t where
  thunk := ht.thunk
  operator hop := by
    rw [← namesMethod_congr (SymbolTable.agreeBelow_of_isPrefix h) hknown.1]
    exact ht.operator hop
  func := ht.func
  target := ht.target
  expression := ht.expression
  operand := ht.operand

theorem Harmless.congr {n : ℕ} {st₁ st₂ : SymbolTable} (hst : st₁.AgreeBelow n st₂) {t : Tree}
    (hknown : Known n t) (h : Harmless m st₁ t) : Harmless m st₂ t := by
  intro f a rest hchain hfirst ρ s
  have hall := hchain.all hknown
  have hρ : ρ.AgreeBelow n ρ := fun _ _ => rfl
  have hcond := h f a rest hchain hfirst ρ s
  have ha := computes_congr hst a hall.2.1
  have hf := receiverComputes_congr hst f hall.1
  have honly := onlyOperand_congr hst hall.1 rest
  simp only [eval, head_congr m operandFirst hst a hall.2.1 hρ,
    head_congr m operandFirst hst f hall.1 hρ, ha, hf, honly] at hcond
  exact hcond

/-! ## Whole trees -/

/-- The operands that the tree left for `t` enters, if what is below `t` is harmless. -/
theorem entering_restored {t f a : Tree} {rest : List Tree} (hknown : Known st.length t)
    (htyped : All (WellTyped st) t) (hbelow : Below (Harmless m st) t)
    (hchain : Chain f (a :: rest) t) (owner : SymbolId) {p : Pass} (hp : st <+: p.st)
    (ρ : Env V) :
    entering m (walk rewrite owner t p).2.st (walk rewrite owner t p).1 ρ =
      if hoists st f a rest then
        Run.leftFirst (eval m st operandFirst a ρ) (head m st operandFirst f ρ)
      else Run.rightFirst (eval m st operandFirst a ρ) (head m st operandFirst f ρ) := by
  have hwalk := walk_extends rewrite_extends owner t p
  have hprefix := hp.trans hwalk.table
  have hagree := SymbolTable.agreeBelow_of_isPrefix hprefix
  generalize hst : (walk rewrite owner t p).2.st = st' at hprefix hagree ⊢
  have htyped' : All (WellTyped st') t :=
    (hknown.and htyped).imp fun _ h => h.2.mono hprefix h.1
  have hgood : Below (Good m st' st.length) t :=
    ((hknown.all.and htyped).below.and hbelow).imp fun _ h =>
      ⟨h.1.1.here, h.1.2.mono hprefix h.1.1.here, h.2.congr hagree h.1.1⟩
  have hself : (walk rewrite owner t p).2.st <+: st' := hst ▸ List.prefix_refl _
  have hwalked := walked_descend owner t p hgood htyped'.here hp.length_le
    ((rewrite_extends owner _).table.trans hself)
  have hall := hchain.all hknown
  have hρ : ρ.AgreeBelow st.length ρ := fun _ _ => rfl
  rw [entering_walk hwalked hself (hknown.mono hp.length_le) htyped' hchain ρ]
  simp only [eval, head_congr m operandFirst hagree a hall.2.1 hρ,
    head_congr m operandFirst hagree f hall.1 hρ, hoists_congr hagree hall.1 hall.2.1]

/-- The operands of every infix application run left to right after the pass, and are passed on
as they were then, exactly if every operand or receiver that the pass leaves in place may as well
run second. -/
theorem entersInOrder_iff (m : Meaning V S) (st : SymbolTable) (t : Tree)
    (hknown : Known st.length t) (htyped : All (WellTyped st) t) :
    All (EntersInOrder m st) t ↔ All (Harmless m st) t := by
  constructor
  · intro h
    have hall := (hknown.all.and htyped.all).and h
    apply all_of_below _ t hall
    rintro u ⟨⟨hknown, htyped⟩, henters⟩ hbelow f a rest hchain hfirst ρ s
    cases hh : hoists st f a rest with
    | true =>
        simp only [hoists, Bool.and_eq_true] at hh
        simp [hh]
    | false =>
        have horder := henters f a rest hchain hfirst noSymbol ⟨st, 0⟩ (List.prefix_refl _) ρ s
        rw [entering_restored hknown htyped hbelow hchain noSymbol (List.prefix_refl _) ρ, hh,
          if_neg Bool.false_ne_true] at horder
        exact (swap_iff hchain htyped hfirst hh ρ s).1 horder
  · intro h
    have hall := (hknown.all.and htyped.all).and h.all
    apply hall.imp
    rintro u ⟨⟨hknown, htyped⟩, hharmless⟩ f a rest hchain hfirst owner p hp ρ s
    rw [entering_restored hknown htyped hharmless.below hchain owner hp ρ]
    split
    · rfl
    · rename_i hh
      exact (swap_iff hchain htyped hfirst (by simpa using hh) ρ s).2
        (hharmless.here f a rest hchain hfirst ρ s)

/-- If every application is harmless, the tree that the pass leaves has the value of the source,
with the effects in their order. -/
theorem eval_restoreRassocOrder (m : Meaning V S) (st : SymbolTable) (t : Tree)
    (hknown : Known st.length t) (htyped : All (WellTyped st) t)
    (hharmless : All (Harmless m st) t) (ρ : Env V) :
    eval m (restoreRassocOrder t st).2 functionFirst (restoreRassocOrder t st).1 ρ =
      eval m st operandFirst t ρ := by
  have hwalk := walk_extends rewrite_extends noSymbol t ⟨st, 0⟩
  have hagree := SymbolTable.agreeBelow_of_isPrefix hwalk.table
  have htyped' : All (WellTyped (walk rewrite noSymbol t ⟨st, 0⟩).2.st) t :=
    (hknown.and htyped).imp fun _ h => h.2.mono hwalk.table h.1
  have hgood : All (Good m (walk rewrite noSymbol t ⟨st, 0⟩).2.st st.length) t :=
    ((hknown.all.and htyped).and hharmless).imp fun _ h =>
      ⟨h.1.1.here, h.1.2.mono hwalk.table h.1.1.here, h.2.congr hagree h.1.1⟩
  have heval := Walked.eval_eq (walked_descend noSymbol t ⟨st, 0⟩ hgood.below htyped'.here le_rfl)
    hgood le_rfl (List.prefix_refl _) ρ
  have hρ : ρ.AgreeBelow st.length ρ := fun _ _ => rfl
  have hsource : eval m (walk rewrite noSymbol t ⟨st, 0⟩).2.st operandFirst t ρ =
      eval m st operandFirst t ρ := by
    simp only [eval, head_congr m operandFirst hagree t hknown hρ]
  exact heval.trans hsource

end

/-! ## An operand that is assigned to -/

section Assigned

/-- A variable `x`, an operator `::` and an object `Nil`. -/
def assignedTable : SymbolTable :=
  [default, ⟨"x", 0, .term, false, true, .int, []⟩, ⟨"::", 0, .method, false, false, .any, [[3]]⟩,
    ⟨"elem", 2, .term, false, false, .int, []⟩, ⟨"Nil", 0, .module, false, false, .any, []⟩]

def assignedInfo (lo : UInt32) (sym : SymbolId) : Info := ⟨0, ⟨lo, lo + 1⟩, .int, sym, false⟩

/-- `x :: { x = 2; Nil }` -/
def assignedTree : Tree :=
  .apply (assignedInfo 0 0)
    (.select (assignedInfo 2 2)
      (.block (assignedInfo 5 0)
        [.assign (assignedInfo 7 0) (.ident (assignedInfo 7 1) "x")
          (.literal (assignedInfo 11 0) (.int 2))]
        (.ident (assignedInfo 14 4) "Nil")) "::")
    [.ident (assignedInfo 0 1) "x"]

/-- The state is the value of the one variable. -/
def oneVariable : Meaning ℕ ℕ where
  unit := 0
  this := 0
  literal
    | .int i => i.toNat
    | _ => 0
  mutableLocal _ s := some s
  field _ _ _ := none
  assign _ _ v := fun _ => (some 0, v)
  invoke _ _ := pure 0
  applied _ _ := pure 0
  force v := pure v
  closure _ := 0
  new _ := pure 0
  truth v := v != 0
  matching _ _ := pure none
  matchError _ := Run.fail
  throw _ := Run.fail

theorem assignedTree_known : Known assignedTable.length assignedTree := by
  simp [Known, assignedTree, All, AllArgs, KnownAt, Tree.sym, Tree.info, Tree.binders,
    assignedInfo, assignedTable]

theorem assignedTree_typed : All (WellTyped assignedTable) assignedTree := by
  refine ⟨?_, ⟨?_, ⟨?_, ⟨⟨?_, ?_, ?_⟩, trivial⟩, ?_⟩⟩, ?_, trivial⟩
  all_goals
    refine ⟨by decide, by decide, ?_, ?_, by decide, ?_⟩
    · intro i f h
      cases h
    · intro i l r h
      cases h <;> rfl
    · intro f a rest h _
      rcases h with _ | ⟨_, _, _ | _⟩ <;> rfl

/-- The variable is read after it has been assigned to. -/
theorem not_entersInOrder_assigned :
    Known assignedTable.length assignedTree ∧ All (WellTyped assignedTable) assignedTree ∧
      ¬ All (EntersInOrder oneVariable assignedTable) assignedTree := by
  refine ⟨assignedTree_known, assignedTree_typed, fun h => ?_⟩
  have horder := h.here _ _ _ (.operator _ rfl) (by decide) noSymbol ⟨assignedTable, 0⟩
    (List.prefix_refl _) (fun _ => some 0) 1
  have hvalue := congrArg (fun r => r.1.map Prod.fst) horder
  revert hvalue
  decide

theorem entersInOrder_iff_assigned :
    All (EntersInOrder oneVariable assignedTable) assignedTree ↔
      All (Harmless oneVariable assignedTable) assignedTree :=
  entersInOrder_iff oneVariable assignedTable assignedTree assignedTree_known assignedTree_typed

end Assigned
end ScalaRs.Rassoc
