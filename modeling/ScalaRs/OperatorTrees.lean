import Mathlib.Data.List.Basic
import Mathlib.Order.Basic
import Mathlib.Order.Lattice

/-! # Trees of infix operators

A sequence of operands with operators between them is the in-order reading of many trees. The
precedence and the associativity of the operators single out one. -/
namespace OperatorTrees
variable {α β γ : Type*}

inductive OperatorTree (α β : Type*) where
  | operand (b : β)
  | node (op : α) (left right : OperatorTree α β)

namespace OperatorTree

/-- The operand that the in-order reading begins with. -/
def first : OperatorTree α β → β
  | .operand b => b
  | .node _ left _ => left.first

/-- The operators of the in-order reading, each with the operand after it. -/
def rest : OperatorTree α β → List (α × β)
  | .operand _ => []
  | .node op left right => left.rest ++ (op, right.first) :: right.rest

def root : OperatorTree α β → Option α
  | .operand _ => none
  | .node op _ _ => some op

theorem root_mem (t : OperatorTree α β) {op : α} (h : t.root = some op) :
    ∃ b, (op, b) ∈ t.rest := by
  cases t with
  | operand b => cases h
  | node op' left right =>
    cases h
    exact ⟨right.first, List.mem_append_right _ List.mem_cons_self⟩

end OperatorTree

variable (prec : α → γ) (rightAssoc : α → Bool)

/-- Operators of equal precedence do not differ in associativity. -/
def Homogeneous (items : List (α × β)) : Prop :=
  ∀ x ∈ items, ∀ y ∈ items, prec x.1 = prec y.1 → rightAssoc x.1 = rightAssoc y.1

theorem Homogeneous.subset {prec : α → γ} {rightAssoc : α → Bool} {items items' : List (α × β)}
    (h : Homogeneous prec rightAssoc items) (hsub : items' ⊆ items) :
    Homogeneous prec rightAssoc items' :=
  fun x hx y hy => h x (hsub hx) y (hsub hy)

variable [LinearOrder γ]

/-- A left child binds tighter or equally with left associativity, and a right child tighter or
equally with right associativity. -/
inductive WellShaped : OperatorTree α β → Prop
  | operand (b : β) : WellShaped (.operand b)
  | node (op : α) (left right : OperatorTree α β)
      (leftChild : ∀ o, left.root = some o →
        prec op < prec o ∨ prec o = prec op ∧ rightAssoc op = false)
      (rightChild : ∀ o, right.root = some o →
        prec op < prec o ∨ prec o = prec op ∧ rightAssoc op = true)
      (wellLeft : WellShaped left) (wellRight : WellShaped right) :
      WellShaped (.node op left right)

variable {prec rightAssoc}

/-- The root binds at most as tight as any operator of the tree. -/
theorem WellShaped.root_le {t : OperatorTree α β} (h : WellShaped prec rightAssoc t) {op : α}
    (hroot : t.root = some op) : ∀ x ∈ t.rest, prec op ≤ prec x.1 := by
  induction h generalizing op with
  | operand b => cases hroot
  | node op' left right leftChild rightChild _ _ ihLeft ihRight =>
    obtain rfl : op' = op := Option.some.inj hroot
    have hchild : ∀ child : OperatorTree α β, (∀ o, child.root = some o → prec op' ≤ prec o) →
        (∀ {o}, child.root = some o → ∀ x ∈ child.rest, prec o ≤ prec x.1) →
        ∀ x ∈ child.rest, prec op' ≤ prec x.1 := by
      intro child hroot hrest x hx
      cases child with
      | operand b => cases hx
      | node o _ _ => exact le_trans (hroot o rfl) (hrest rfl x hx)
    intro x hx
    rcases List.mem_append.mp hx with hleft | hright
    · exact hchild left (fun o ho => (leftChild o ho).elim le_of_lt fun h => h.1.ge) ihLeft x hleft
    · rcases List.mem_cons.mp hright with rfl | hright
      · exact le_refl _
      · exact hchild right (fun o ho => (rightChild o ho).elim le_of_lt fun h => h.1.ge) ihRight x hright

/-- What holds of the child of a node holds of all operators below it. -/
theorem WellShaped.descendants {t : OperatorTree α β} (h : WellShaped prec rightAssoc t) {op : α}
    {assoc : Prop} (hchild : ∀ o, t.root = some o → prec op < prec o ∨ prec o = prec op ∧ assoc) :
    ∀ x ∈ t.rest, prec op < prec x.1 ∨ prec x.1 = prec op ∧ assoc := by
  intro x hx
  cases t with
  | operand b => cases hx
  | node o left right =>
    have hle := h.root_le rfl x hx
    rcases hchild o rfl with hlt | ⟨heq, hassoc⟩
    · exact .inl (lt_of_lt_of_le hlt hle)
    · rcases lt_or_eq_of_le hle with hlt | heq'
      · exact .inl (heq ▸ hlt)
      · exact .inr ⟨heq'.symm.trans heq, hassoc⟩

/-- The operators at the roots of two trees cannot each stand in the other's subtree. -/
theorem roots_apart {op op' : α} {left right left' right' : OperatorTree α β}
    (h : WellShaped prec rightAssoc (.node op left right))
    (h' : WellShaped prec rightAssoc (.node op' left' right'))
    (hassoc : prec op = prec op' → rightAssoc op = rightAssoc op') {b b' : β}
    (hright : (op', b') ∈ right.rest) (hleft : (op, b) ∈ left'.rest) : False := by
  cases h with
  | node _ _ _ _ rightChild _ wellRight =>
    cases h' with
    | node _ _ _ leftChild _ wellLeft _ =>
      rcases wellRight.descendants rightChild _ hright with hlt | ⟨heq, hright⟩
      · rcases wellLeft.descendants leftChild _ hleft with hlt' | ⟨heq', -⟩
        · exact lt_asymm hlt hlt'
        · exact absurd heq' (ne_of_lt hlt)
      · rcases wellLeft.descendants leftChild _ hleft with hlt' | ⟨heq', hleft⟩
        · exact absurd heq (ne_of_lt hlt')
        · rw [hassoc heq', hleft] at hright
          cases hright

/-- The roots of two well-shaped trees stand at the same place of a common reading. -/
theorem between_eq_nil {op op' : α} {left right left' right' : OperatorTree α β}
    (h : WellShaped prec rightAssoc (.node op left right))
    (h' : WellShaped prec rightAssoc (.node op' left' right'))
    (hassoc : prec op = prec op' → rightAssoc op = rightAssoc op') {between : List (α × β)}
    (hleft : left'.rest = left.rest ++ between)
    (hright : (op, right.first) :: right.rest = between ++ (op', right'.first) :: right'.rest) :
    between = [] := by
  cases between with
  | nil => rfl
  | cons x between =>
    rw [List.cons_append] at hright
    obtain ⟨hx, htail⟩ := List.cons_eq_cons.mp hright
    have hmem : (op', right'.first) ∈ right.rest := by simp [htail]
    have hmem' : (op, right.first) ∈ left'.rest := by simp [hleft, hx]
    exact absurd hmem' fun hmem' => roots_apart h h' hassoc hmem hmem'

/-- A sequence of operands is the in-order reading of one well-shaped tree at most. -/
theorem WellShaped.unique {t t' : OperatorTree α β} (h : WellShaped prec rightAssoc t)
    (h' : WellShaped prec rightAssoc t') (hassoc : Homogeneous prec rightAssoc t.rest)
    (hfirst : t.first = t'.first) (hrest : t.rest = t'.rest) : t = t' := by
  induction t generalizing t' with
  | operand b =>
    cases t' with
    | operand b' => exact congrArg OperatorTree.operand hfirst
    | node op' left' right' => simp [OperatorTree.rest] at hrest
  | node op left right ihLeft ihRight =>
    cases t' with
    | operand b' => simp [OperatorTree.rest] at hrest
    | node op' left' right' =>
      have hmem : (op, right.first) ∈ (OperatorTree.node op left right).rest := by
        simp [OperatorTree.rest]
      have hmem' : (op', right'.first) ∈ (OperatorTree.node op left right).rest := by
        rw [hrest]
        simp [OperatorTree.rest]
      have hsame := hassoc _ hmem _ hmem'
      have haligned : left.rest = left'.rest ∧
          (op, right.first) :: right.rest = (op', right'.first) :: right'.rest := by
        rcases List.append_eq_append_iff.mp hrest with
          ⟨between, hleft, hright⟩ | ⟨between, hleft, hright⟩
        · obtain rfl := between_eq_nil h h' hsame hleft hright
          rw [List.append_nil] at hleft
          exact ⟨hleft.symm, hright⟩
        · obtain rfl := between_eq_nil h' h (fun heq => (hsame heq.symm).symm) hleft hright
          rw [List.append_nil] at hleft
          exact ⟨hleft, hright.symm⟩
      obtain ⟨hleft, hcons⟩ := haligned
      obtain ⟨hpair, hright⟩ := List.cons_eq_cons.mp hcons
      obtain ⟨rfl, hfirstRight⟩ := Prod.mk.inj hpair
      cases h with
      | node _ _ _ _ _ wellLeft wellRight =>
        cases h' with
        | node _ _ _ _ _ wellLeft' wellRight' =>
          have hsubLeft : left.rest ⊆ (OperatorTree.node op left right).rest :=
            List.subset_append_left _ _
          have hsubRight : right.rest ⊆ (OperatorTree.node op left right).rest :=
            fun x hx => List.mem_append_right _ (List.mem_cons_of_mem _ hx)
          rw [ihLeft wellLeft wellLeft' (hassoc.subset hsubLeft) hfirst hleft,
            ihRight wellRight wellRight' (hassoc.subset hsubRight) hfirstRight hright]

end OperatorTrees
