import Mathlib.Data.List.Basic
import Mathlib.Algebra.Order.BigOperators.Group.List
import Mathlib.Algebra.Order.Ring.Nat
import Mathlib.Data.UInt

/-! # Propositions of the match analysis, and their simplification

`And`/`Or` operands are insertion-ordered sets. Equality between two of them is
set equality; membership is decided by hash first, so the hasher is a
parameter: `fx ws` is the digest after the words `ws` were written. -/
namespace ScalaRs.Patmat

abbrev VarId := ℕ
abbrev ConstId := ℕ
abbrev SymId := ℕ

inductive Proposition where
  | eq (v : VarId) (c : ConstId)
  | and (ops : List Proposition)
  | or (ops : List Proposition)
  | not (p : Proposition)
  | atMostOne (ops : List SymId)
  | true
  | false
  | sym (s : SymId)

namespace Proposition

variable (fx : List UInt64 → UInt64)

/-- The words `Hash for Prop` writes. The operands of a connective enter as a sum
of digests, which does not depend on their order. -/
def words : Proposition → List UInt64
  | eq v c => [0, .ofNat v, .ofNat c]
  | and ops => [1, (ops.map fun o => fx (words o)).sum]
  | or ops => [2, (ops.map fun o => fx (words o)).sum]
  | not a => 3 :: words a
  | atMostOne v => 4 :: .ofNat v.length :: v.map .ofNat
  | true => [5]
  | false => [6]
  | sym s => [7, .ofNat s]

def hash (p : Proposition) : UInt64 := fx (p.words fx)

/-- `PartialEq for Prop`. Past a handful of operands, they are looked up by hash. -/
def beq : Proposition → Proposition → Bool
  | eq a b, eq c d => a = c && b = d
  | and a, and b => a.length = b.length &&
      if a.length ≤ 8 then a.attach.all fun ⟨x, _⟩ => b.attach.any fun ⟨y, _⟩ => beq y x
      else a.attach.all fun ⟨x, _⟩ => b.attach.any fun ⟨y, _⟩ => x.hash fx = y.hash fx && beq x y
  | or a, or b => a.length = b.length &&
      if a.length ≤ 8 then a.attach.all fun ⟨x, _⟩ => b.attach.any fun ⟨y, _⟩ => beq y x
      else a.attach.all fun ⟨x, _⟩ => b.attach.any fun ⟨y, _⟩ => x.hash fx = y.hash fx && beq x y
  | not a, not b => beq a b
  | atMostOne a, atMostOne b => a = b
  | true, true => Bool.true
  | false, false => Bool.true
  | sym a, sym b => a = b
  | _, _ => Bool.false
termination_by p q => sizeOf p + sizeOf q
decreasing_by
  all_goals
    simp_wf
    try have hx := List.sizeOf_lt_of_mem ‹_ ∈ a›
    try have hy := List.sizeOf_lt_of_mem ‹_ ∈ b›
    omega

/-- `PropSet::contains`, over the operands so far. -/
def contains (items : List Proposition) (p : Proposition) : Bool :=
  items.any fun q => q.hash fx = p.hash fx && q.beq fx p

/-- `PropSet::insert`. -/
def insert (items : List Proposition) (p : Proposition) : List Proposition :=
  if contains fx items p then items else items ++ [p]

def unique (ps : List Proposition) : List Proposition := ps.foldl (insert fx) []

/-- `True` for none, the operand itself for one. -/
def bigAnd (ps : List Proposition) : Proposition :=
  match unique fx ps with
  | [] => true
  | [p] => p
  | v => and v

def bigOr (ps : List Proposition) : Proposition :=
  match unique fx ps with
  | [] => false
  | [p] => p
  | v => or v

mutual
def nnfNot : Proposition → Proposition
  | and ops => or (unique fx (ops.map nnfNot))
  | or ops => and (unique fx (ops.map nnfNot))
  | not a => nnf a
  | true => false
  | false => true
  | other => not other

def nnf : Proposition → Proposition
  | and ops => and (unique fx (ops.map nnf))
  | or ops => or (unique fx (ops.map nnf))
  | not a => nnfNot a
  | other => other
end

/-- `a` and `b` are a proposition and its negation. -/
def opposed : Proposition → Proposition → Bool
  | a, not bb => bb.beq fx a || match a with
    | not aa => aa.beq fx (not bb)
    | _ => Bool.false
  | not aa, b => aa.beq fx b
  | _, _ => Bool.false

def anyPair (check : Proposition → Proposition → Bool) : List Proposition → Bool
  | [] => Bool.false
  | a :: ops => ops.any (check a) || anyPair check ops

def hasImpureAtom (ops : List Proposition) : Bool :=
  if 10 < ops.length || ops.length < 2 then Bool.false else anyPair (opposed fx) ops

/-- The operands of a simplified conjunct, spliced into the enclosing `And`. -/
def addConjunct (props : List Proposition) : Proposition → List Proposition
  | true => props
  | and fv => fv.foldl (insert fx) props
  | f => insert fx props f

def addDisjunct (props : List Proposition) : Proposition → List Proposition
  | false => props
  | or fv => fv.foldl (insert fx) props
  | f => insert fx props f

/-- `simplify_and`, over the operands already simplified. -/
def simplifyAnd (ps : List Proposition) : Proposition :=
  let props := ps.foldl (addConjunct fx) []
  if contains fx props false || hasImpureAtom fx props then false else bigAnd fx props

def simplifyOr (ps : List Proposition) : Proposition :=
  let props := ps.foldl (addDisjunct fx) []
  if contains fx props true || hasImpureAtom fx props then true else bigOr fx props

/-- The nodes that are no `Not`. -/
def nodes : Proposition → ℕ
  | and ops => 1 + (ops.map nodes).sum
  | or ops => 1 + (ops.map nodes).sum
  | not a => nodes a
  | _ => 1

def leadingNots : Proposition → ℕ
  | not a => leadingNots a + 1
  | _ => 0

theorem insert_sublist (items ps : List Proposition) :
    (ps.foldl (insert fx) items).Sublist (items ++ ps) := by
  induction ps generalizing items with
  | nil => simp
  | cons p ps ih =>
    rw [List.foldl_cons]
    refine (ih _).trans ?_
    unfold insert
    split
    · exact (List.sublist_cons_self p ps).append_left items
    · simp

theorem unique_sublist (ps : List Proposition) : (unique fx ps).Sublist ps :=
  insert_sublist fx [] ps

/-- Induction with the operands of a connective as induction hypotheses. -/
@[elab_as_elim, induction_eliminator]
theorem induction {motive : Proposition → Prop} (eq : ∀ v c, motive (eq v c))
    (and : ∀ ops, (∀ o ∈ ops, motive o) → motive (and ops))
    (or : ∀ ops, (∀ o ∈ ops, motive o) → motive (or ops))
    (not : ∀ a, motive a → motive (not a)) (atMostOne : ∀ ops, motive (atMostOne ops))
    (true : motive true) (false : motive false) (sym : ∀ s, motive (sym s)) (p : Proposition) :
    motive p :=
  @Proposition.rec motive (fun ops => ∀ o ∈ ops, motive o) eq and or not atMostOne true false sym
    (by simp) (fun o ops ho hops x hx => (List.mem_cons.mp hx).elim (fun h => h ▸ ho) (hops x)) p

private theorem nodes_unique_map_le {ops : List Proposition} {f : Proposition → Proposition}
    (h : ∀ o ∈ ops, (f o).nodes ≤ o.nodes) :
    ((unique fx (ops.map f)).map nodes).sum ≤ (ops.map nodes).sum := by
  calc ((unique fx (ops.map f)).map nodes).sum
      ≤ ((ops.map f).map nodes).sum := ((unique_sublist fx _).map nodes).sum_le_sum (by simp)
    _ ≤ (ops.map nodes).sum := by
      rw [List.map_map]
      exact List.sum_le_sum h

theorem nodes_nnf (p : Proposition) :
    (nnf fx p).nodes ≤ p.nodes ∧ (nnfNot fx p).nodes ≤ p.nodes := by
  induction p with
  | and ops ih =>
    have h₁ := nodes_unique_map_le fx fun o ho => (ih o ho).1
    have h₂ := nodes_unique_map_le fx fun o ho => (ih o ho).2
    constructor <;> simp only [nnf, nnfNot, nodes] <;> omega
  | or ops ih =>
    have h₁ := nodes_unique_map_le fx fun o ho => (ih o ho).1
    have h₂ := nodes_unique_map_le fx fun o ho => (ih o ho).2
    constructor <;> simp only [nnf, nnfNot, nodes] <;> omega
  | not a ih => simpa only [nnf, nnfNot, nodes] using ih.symm
  | _ => simp [nnf, nnfNot, nodes]

theorem leadingNots_nnf (p : Proposition) :
    (nnf fx p).leadingNots ≤ p.leadingNots ∧ (nnfNot fx p).leadingNots ≤ p.leadingNots + 1 := by
  induction p with
  | not a ih =>
    simp only [nnf, nnfNot, leadingNots]
    omega
  | _ => simp [nnf, nnfNot, leadingNots]

theorem nodes_lt_of_mem {o : Proposition} {ops : List Proposition} (h : o ∈ ops) :
    o.nodes < 1 + (ops.map nodes).sum := by
  have hle : o.nodes ≤ (ops.map nodes).sum := List.le_sum_of_mem (List.mem_map_of_mem h)
  omega

def simplifyProp : Proposition → Proposition
  | and ps => simplifyAnd fx (ps.map simplifyProp)
  | or ps => simplifyOr fx (ps.map simplifyProp)
  | not (not a) => simplifyProp (nnf fx a)
  | not other => not (simplifyProp (nnf fx other))
  | other => other
termination_by p => (p.nodes, p.leadingNots)
decreasing_by
  · exact Prod.Lex.left _ _ (by simpa only [nodes] using nodes_lt_of_mem ‹_›)
  · exact Prod.Lex.left _ _ (by simpa only [nodes] using nodes_lt_of_mem ‹_›)
  · refine Prod.lex_def.mpr ?_
    have h₁ := (nodes_nnf fx a).1
    have h₂ := (leadingNots_nnf fx a).1
    simp only [nodes, leadingNots]
    omega
  · refine Prod.lex_def.mpr ?_
    have h₁ := (nodes_nnf fx other).1
    have h₂ := (leadingNots_nnf fx other).1
    simp only [nodes, leadingNots]
    omega

/-- Negation normal form, flattening, constant folding, duplicate removal. -/
def simplify (f : Proposition) : Proposition := simplifyProp fx (nnf fx f)

def addSymbol (out : List SymId) (s : SymId) : List SymId := if s ∈ out then out else out ++ [s]

/-- `gather_symbols_into`: the symbols in traversal order, each once. -/
def gatherSymbols : Proposition → List SymId → List SymId
  | and ops, out => ops.foldl (fun out o => gatherSymbols o out) out
  | or ops, out => ops.foldl (fun out o => gatherSymbols o out) out
  | not a, out => gatherSymbols a out
  | sym s, out => addSymbol out s
  | atMostOne ops, out => ops.foldl addSymbol out
  | _, out => out

/-- `gather_symbols` into an empty vector. -/
def symbols (p : Proposition) : List SymId := gatherSymbols p []

def maxDpllDepth : ℕ := 20

def maxFormulaSize : ℕ := 100 * maxDpllDepth

def exceedsSize : Proposition → Bool
  | and ops => maxFormulaSize < ops.length || ops.attach.any fun ⟨o, _⟩ => exceedsSize o
  | or ops => maxFormulaSize < ops.length || ops.attach.any fun ⟨o, _⟩ => exceedsSize o
  | not a => exceedsSize a
  | _ => Bool.false

end Proposition
end ScalaRs.Patmat
