import ScalaRs.RassocOrder
import ScalaRs.TreeEvaluation

/-! # The evaluation of applications with further clauses

The operator of an application and its operand are the first two things that run; what follows
them does not depend on the order in which they ran. -/
namespace ScalaRs.Rassoc
open TypedTrees Effects
open Unification (Ty SymbolId)

def isApply : Tree → Bool
  | .apply _ _ _ => true
  | _ => false

/-- `t` applies `f` to `args` and then, maybe, to further clauses. -/
inductive Chain (f : Tree) (args : List Tree) : Tree → Prop
  | operator (i : Info) (hf : isApply f = false) : Chain f args (.apply i f args)
  | clause (i : Info) {t : Tree} (more : List Tree) (h : Chain f args t) :
      Chain f args (.apply i t more)

section
variable {f t : Tree} {args : List Tree}

theorem Chain.isApply_eq (h : Chain f args t) : isApply t = true := by
  cases h <;> rfl

theorem Chain.func (h : Chain f args t) : isApply f = false := by
  induction h with
  | operator i hf => exact hf
  | clause i more h ih => exact ih

theorem Chain.operatorApply_eq (h : Chain f args t) : operatorApply t = some (f, args) := by
  induction h with
  | operator i hf => cases f <;> first | rfl | simp [isApply] at hf
  | clause i more h ih =>
      cases h with
      | operator j hf => exact ih
      | clause j more' h' => exact ih

theorem chain_of_operatorApply (h : operatorApply t = some (f, args)) : Chain f args t := by
  fun_induction operatorApply t with
  | case1 i j g as more ih => exact .clause i more (ih h)
  | case2 i g as hg =>
      simp only [Option.some.injEq, Prod.mk.injEq] at h
      obtain ⟨rfl, rfl⟩ := h
      apply Chain.operator
      cases g <;> first | rfl | exact absurd rfl (hg _ _ _)
  | case3 t ht => simp at h

theorem operatorApply_eq_none (h : isApply t = false) : operatorApply t = none := by
  cases t <;> first | rfl | simp [isApply] at h

theorem Chain.all {p : Tree → Prop} (h : Chain f args t) (ht : All p t) :
    All p f ∧ AllArgs p args := by
  induction h with
  | operator i hf => exact ht.2
  | clause i more h ih => exact ih ht.2.1

theorem Chain.withOperand {a : Tree} {rest : List Tree} (h : Chain f (a :: rest) t) (x : Tree) :
    Chain f (x :: rest) (setOperand x t) := by
  induction h with
  | operator i hf =>
      have hset : setOperand x (.apply i f (a :: rest)) = .apply i f (x :: rest) := by
        cases f <;> first | rfl | simp [isApply] at hf
      rw [hset]
      exact .operator i hf
  | clause i more h ih =>
      cases h with
      | operator j hf => exact .clause i more ih
      | clause j more' h' => exact .clause i more ih

end

section
variable {V S : Type} (m : Meaning V S) (st : SymbolTable) (first : Tree → Tree → Bool)

/-- What runs once the operator's function and its operand have. -/
def afterOperands : Tree → Env V → V × Pending V → Run S (Pending V)
  | .apply i (.apply j f as) args, ρ, x => do
      let p ← afterOperands (.apply j f as) ρ x
      let vs ← values m st first args ρ
      settle m i (p.clause vs)
  | .apply i _ (_ :: rest), ρ, x => do
      let vs ← values m st first rest ρ
      settle m i (x.2.clause (x.1 :: vs))
  | _, _, x => pure x.2

/-- The value of the operand, and what the function that it is passed to has come to. -/
def operands (t : Tree) (ρ : Env V) : Run S (V × Pending V) :=
  match operatorApply t with
  | some (f, a :: _) =>
      if first f a then Run.leftFirst (eval m st first a ρ) (head m st first f ρ)
      else Run.rightFirst (eval m st first a ρ) (head m st first f ρ)
  | _ => Run.fail

variable {m st first} {f a t : Tree} {rest : List Tree}

theorem Chain.operands_eq (h : Chain f (a :: rest) t) (ρ : Env V) :
    operands m st first t ρ =
      if first f a then Run.leftFirst (eval m st first a ρ) (head m st first f ρ)
      else Run.rightFirst (eval m st first a ρ) (head m st first f ρ) := by
  simp only [operands, h.operatorApply_eq]

theorem afterOperands_operator (i : Info) (hf : isApply f = false) (ρ : Env V)
    (x : V × Pending V) : afterOperands m st first (.apply i f (a :: rest)) ρ x = (do
      let vs ← values m st first rest ρ
      settle m i (x.2.clause (x.1 :: vs))) := by
  cases f with
  | apply j g as => simp [isApply] at hf
  | _ => simp only [afterOperands]

theorem afterOperands_clause (i : Info) (more : List Tree) (h : isApply t = true) (ρ : Env V)
    (x : V × Pending V) : afterOperands m st first (.apply i t more) ρ x = (do
      let p ← afterOperands m st first t ρ x
      let vs ← values m st first more ρ
      settle m i (p.clause vs)) := by
  cases t with
  | apply j g as => simp only [afterOperands]
  | _ => simp [isApply] at h

theorem head_apply (i : Info) (args : List Tree) (hfirst : ∀ b, first f b = false) (ρ : Env V) :
    head m st first (.apply i f args) ρ = (do
      let p ← head m st first f ρ
      let vs ← values m st first args ρ
      settle m i (p.clause vs)) := by
  cases args with
  | nil => simp only [head, values, Run.pure_bind]
  | cons b bs =>
      simp only [head, values, hfirst b, Bool.false_eq_true, if_false, Run.bind_assoc,
        Run.pure_bind]

/-- An application runs its operands, in their order, and then what follows them. -/
theorem Chain.head_eq (hfirst : ∀ g b, isApply g = true → first g b = false)
    (h : Chain f (a :: rest) t) (ρ : Env V) :
    head m st first t ρ = operands m st first t ρ >>= afterOperands m st first t ρ := by
  induction h with
  | operator i hf =>
      have h : Chain f (a :: rest) (.apply i f (a :: rest)) := .operator i hf
      rw [h.operands_eq]
      cases hfa : first f a with
      | true =>
          simp only [head, hfa, if_true, Run.leftFirst, eval, Run.bind_assoc, Run.pure_bind,
            afterOperands_operator i hf]
      | false =>
          simp only [head, hfa, Bool.false_eq_true, if_false, Run.rightFirst, eval,
            Run.bind_assoc, Run.pure_bind, afterOperands_operator i hf]
  | clause i more h ih =>
      have hclause := Chain.clause i more h
      rw [head_apply i more (fun b => hfirst _ b h.isApply_eq), ih, hclause.operands_eq, h.operands_eq,
        Run.bind_assoc]
      apply Run.bind_congr
      intro x
      rw [afterOperands_clause i more h.isApply_eq]

theorem Chain.afterOperands_setOperand (h : Chain f (a :: rest) t) (y : Tree) (ρ : Env V)
    (x : V × Pending V) :
    afterOperands m st first (setOperand y t) ρ x = afterOperands m st first t ρ x := by
  induction h with
  | operator i hf =>
      have hset : setOperand y (.apply i f (a :: rest)) = .apply i f (y :: rest) := by
        cases f <;> first | rfl | simp [isApply] at hf
      rw [hset, afterOperands_operator i hf, afterOperands_operator i hf]
  | @clause i u more h ih =>
      have hset : setOperand y (.apply i u more) = .apply i (setOperand y u) more := by
        cases h <;> rfl
      rw [hset, afterOperands_clause i more (h.withOperand y).isApply_eq,
        afterOperands_clause i more h.isApply_eq, ih]

theorem Chain.afterOperands_congr {n : ℕ} (h : Chain f (a :: rest) t) (ht : Known n t)
    {ρ₁ ρ₂ : Env V} (hρ : ρ₁.AgreeBelow n ρ₂) (x : V × Pending V) :
    afterOperands m st first t ρ₁ x = afterOperands m st first t ρ₂ x := by
  induction h with
  | operator i hf =>
      rw [afterOperands_operator i hf, afterOperands_operator i hf,
        values_congr m first (fun _ _ => rfl) rest ht.2.2.2 hρ]
  | clause i more h ih =>
      rw [afterOperands_clause i more h.isApply_eq, afterOperands_clause i more h.isApply_eq,
        ih ht.2.1, values_congr m first (fun _ _ => rfl) more ht.2.2 hρ]

end
end ScalaRs.Rassoc
