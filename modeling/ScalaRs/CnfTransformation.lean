import ScalaRs.SymbolMappings

/-! # Conversion of simplified propositions to clauses

One transformer serves every conjunct: its literal counter and its constant
literal stay, its clause buffer is handed over conjunct by conjunct. A run
fails (`none`) where the source's symbol table lookup would panic. -/
namespace ScalaRs.Patmat
open ScalaSets

structure Solvable where
  cnf : List Clause
  mapping : SymbolMapping

/-- The formula exceeds `AnalysisBudget.maxFormulaSize`. -/
inductive BudgetExceeded where
  | mk

structure TransformToCnf where
  mapping : SymbolMapping
  literalCount : ℕ
  buff : List Clause
  constTrue : Option Lit

abbrev ToCnf := StateT TransformToCnf Option

namespace TransformToCnf

def newLiteral : ToCnf Lit := do
  modify fun t => { t with literalCount := t.literalCount + 1 }
  return ⟨(← get).literalCount⟩

def addClause (c : Clause) : ToCnf Unit :=
  modify fun t => if c.isEmpty then t else { t with buff := t.buff ++ [c] }

def symbolLit (s : SymId) : ToCnf Lit := do
  let t ← get
  liftM (t.mapping.lit s)

def getConstTrue : ToCnf Lit := do
  match (← get).constTrue with
  | some l => return l
  | none =>
    let l ← newLiteral
    addClause (clause1 l)
    modify fun t => { t with constTrue := some l }
    return l

def getConstFalse : ToCnf Lit := do
  return (← getConstTrue).neg

def and : List Lit → ToCnf Lit
  | [] => getConstTrue
  | [l] => return l
  | bv => do
    let cf ← getConstFalse
    if cf ∈ bv then
      return cf
    else
      let ct ← getConstTrue
      let newBv := (ScalaSet.fromIter bv).excl ct
      let o ← newLiteral
      newBv.elems.forM fun op => addClause (clause2 op o.neg)
      return o

def or : List Lit → ToCnf Lit
  | [] => getConstFalse
  | [l] => return l
  | bv => do
    let ct ← getConstTrue
    if ct ∈ bv then
      return ct
    else
      let cf ← getConstFalse
      let newBv := (ScalaSet.fromIter bv).excl cf
      let o ← newLiteral
      addClause (newBv.incl o.neg)
      return o

/-- One symbol of the sequential counter; `siMinus` is the counter before it. -/
def countSymbol (siMinus : Lit) (sym : SymId) : ToCnf Lit := do
  let xi ← symbolLit sym
  let si ← newLiteral
  addClause (clause2 xi.neg si)
  addClause (clause2 siMinus.neg si)
  addClause (clause2 xi.neg siMinus.neg)
  return si

/-- `combinations(2)` in order. -/
def addCombinations : List Lit → ToCnf Unit
  | [] => return ()
  | l :: lits => do
    lits.forM fun m => addClause (clause2 l.neg m.neg)
    addCombinations lits

def atMostOne (ops : List SymId) : ToCnf Unit :=
  match ops with
  | [] => return ()
  | [_] => return ()
  | x :: y :: tail =>
    if 5 < ops.length then do
      let x1 ← symbolLit x
      let s1 ← newLiteral
      addClause (clause2 x1.neg s1)
      let siMinus ← ((y :: tail).dropLast).foldlM countSymbol s1
      let xn ← symbolLit ((y :: tail).getLast (List.cons_ne_nil y tail))
      addClause (clause2 xn.neg siMinus.neg)
    else do
      addCombinations (← ops.mapM symbolLit)

mutual
def convert : Proposition → ToCnf (Option Lit)
  | .and fv => do
    let lits ← convertAll fv []
    return some (← and lits)
  | .or fv => do
    let lits ← convertAll fv []
    return some (← or lits)
  | .not a => do return (← convert a).map Lit.neg
  | .sym s => do return some (← symbolLit s)
  | .true => do return some (← getConstTrue)
  | .false => do return some (← getConstFalse)
  | .atMostOne ops => do
    atMostOne ops
    return none
  | .eq _ _ => return none

/-- `fv.flatMap(convert)` into a `LinkedHashSet`, after the literals in `out`. -/
def convertAll : List Proposition → List Lit → ToCnf (List Lit)
  | [], out => return out
  | f :: fv, out => do
    match ← convert f with
    | some l => convertAll fv (if l ∈ out then out else out ++ [l])
    | none => convertAll fv out
end

/-- The clauses for `p`; the literal counter and the constant literal stay. -/
def apply (p : Proposition) : ToCnf (List Clause) := do
  let top ← convert p
  addClause (match top with
    | some l => clause1 l
    | none => ScalaSet.empty)
  let t ← get
  set { t with buff := [] }
  return t.buff

end TransformToCnf

/-- `some none` when `f` is no literal, `none` when its symbol is not mapped. -/
def toLiteral (m : SymbolMapping) : Proposition → Option (Option Lit)
  | .not inner => do return (← toLiteral m inner).map Lit.neg
  | .sym s => do return some (← m.lit s)
  | _ => return none

def literalsOf (m : SymbolMapping) : List Proposition → Clause → Option (Option Clause)
  | [], c => return some c
  | x :: fv, c => do
    match ← toLiteral m x with
    | some l => literalsOf m fv (c.incl l)
    | none => return none

/-- The one clause of a disjunction of literals, no clause for `True`. -/
def toDisjunction (m : SymbolMapping) : Proposition → Option (Option (List Clause))
  | .or fv => do return (← literalsOf m fv ScalaSet.empty).map fun c => [c]
  | .true => return some []
  | .false => return some [ScalaSet.empty]
  | other => do return (← toLiteral m other).map fun l => [clause1 l]

def disjunctionsOf (m : SymbolMapping) : List Proposition → Option (Option (List Clause))
  | [] => return some []
  | x :: fv => do
    match ← toDisjunction m x with
    | some cs => return (← disjunctionsOf m fv).map (cs ++ ·)
    | none => return none

def toCnf (m : SymbolMapping) (f : Proposition) : Option (Option (List Clause)) := do
  match ← toDisjunction m f with
  | some cs => return some cs
  | none =>
    match f with
    | .and fv => disjunctionsOf m fv
    | _ => return none

open TransformToCnf in
def cnfFor (prop : Proposition) : ToCnf (List Clause) := do
  let t ← get
  match ← liftM (toCnf t.mapping prop) with
  | some cs => return cs
  | none => apply prop

def cnfForAll : List Proposition → ToCnf (List Clause)
  | [] => return []
  | x :: props => do
    let cs ← cnfFor x
    return cs ++ (← cnfForAll props)

/-- The clauses of every conjunct of a simplified proposition, in order. -/
def conjunctsCnf : Proposition → ToCnf (List Clause)
  | .and props => cnfForAll props
  | other => cnfFor other

/-- The outer `none` is a failed symbol lookup. -/
def eqFreePropToSolvable (fx : List UInt64 → UInt64) (p : Proposition) :
    Option (Except BudgetExceeded Solvable) :=
  let simplified := p.simplify fx
  if simplified.exceedsSize then
    some (.error .mk)
  else do
    let mapping := SymbolMapping.new p.symbols
    let transformer : TransformToCnf :=
      { mapping, literalCount := mapping.size, buff := [], constTrue := none }
    let cnf ← (conjunctsCnf simplified).run' transformer
    return .ok { cnf, mapping }

end ScalaRs.Patmat
