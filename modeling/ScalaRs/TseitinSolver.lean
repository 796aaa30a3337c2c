import ScalaRs.PatmatLiterals
import ScalaRs.WhileLoops
import Mathlib.Data.List.ReduceOption

/-! # The DPLL solver with an explicit stack

A state's clause vector is compacted in place: the clauses that are left, then
`none`. Unit propagation hands the scan it made to the next step. -/
namespace ScalaRs.Patmat
open ScalaSets WhileLoops

/-- The empty and unit clauses of a clause list. -/
structure Scan where
  empty : Bool
  unit : Option ℕ
  deriving DecidableEq, Repr

/-- What one more clause, at index `i`, adds to a scan. -/
def Scan.see (scan : Scan) (i len : ℕ) : Scan :=
  match len with
  | 0 => { scan with empty := true }
  | 1 => if scan.unit.isNone then { scan with unit := some i } else scan
  | _ => scan

def scanFrom : ℕ → Option ℕ → List (Option Clause) → Scan
  | _, unit, [] => ⟨false, unit⟩
  | i, unit, none :: cs => scanFrom (i + 1) unit cs
  | i, unit, some c :: cs => match c.len with
    | 0 => ⟨true, unit⟩
    | 1 => scanFrom (i + 1) (if unit.isNone then some i else unit) cs
    | _ => scanFrom (i + 1) unit cs

def scanClauses (clauses : List (Option Clause)) : Scan := scanFrom 0 none clauses

/-- A clause that does not contain the unit: untouched, or without the negated one. -/
def keptClause (unit : Lit) (c : Clause) : Clause :=
  if unit.neg ∈ c then c.excl unit.neg else c

/-- The loop of `dropUnit` from read index `i` and write index `j`. Its first
argument counts the indices left, so that the loop ends at the vector's end. -/
def dropUnitLoop (unit : Lit) :
    ℕ → ℕ → ℕ → Scan → List (Option Clause) → List (Option Clause) × Scan
  | 0, _, _, scan, clauses => (clauses, scan)
  | k + 1, i, j, scan, clauses =>
    match clauses[i]? with
    | some (some c) =>
      let taken := clauses.set i none
      if unit ∈ c then dropUnitLoop unit k (i + 1) j scan taken
      else
        let kept := keptClause unit c
        dropUnitLoop unit k (i + 1) (j + 1) (scan.see j kept.len) (taken.set j (some kept))
    | _ => (clauses, scan)

def dropUnit (clauses : List (Option Clause)) (unit : Lit) : List (Option Clause) × Scan :=
  dropUnitLoop unit clauses.length 0 0 ⟨false, none⟩ clauses

/-- The polarities seen of each variable, as flags: 1 positive, 2 negative. -/
def markLit (seen : List ℕ) (l : Lit) : List ℕ :=
  let seen := seen ++ List.replicate (l.var + 1 - seen.length) 0
  seen.modify l.var (· ||| if l.positive then 1 else 2)

def seenFlags (clauses : List (Option Clause)) : List ℕ :=
  (clauses.reduceOption.flatMap ScalaSet.unordered).foldl markLit []

/-- The least variable that occurs with one polarity only, with that polarity. -/
def pureLit (clauses : List (Option Clause)) : Option Lit :=
  let seen := seenFlags clauses
  (seen.findIdx? fun f => f = 1 ∨ f = 2).map fun (pureVar : ℕ) =>
    if seen[pureVar]? = some 2 then ⟨-pureVar⟩ else ⟨pureVar⟩

structure State where
  clauses : List (Option Clause)
  assignments : List Lit
  scanned : Option Scan

/-- One turn of the loop; the head of the list is the top of the stack. -/
def step : List State → Option (Step (Option (List Lit)) (List State))
  | [] => some (.done none)
  | s :: stack =>
    if s.clauses.head?.join.isNone then some (.done (some s.assignments))
    else
      let scan := s.scanned.getD (scanClauses s.clauses)
      if scan.empty then some (.next stack)
      else match scan.unit with
        | some ui => do
          let unit ← (← s.clauses[ui]?.join).head
          let (clauses, next) := dropUnit s.clauses unit
          some (.next (⟨clauses, unit :: s.assignments, some next⟩ :: stack))
        | none => match pureLit s.clauses with
          | some pure =>
            let simplified := s.clauses.filter fun c => !c.any (pure ∈ ·)
            some (.next (⟨simplified, pure :: s.assignments, none⟩ :: stack))
          | none => do
            let split ← (← s.clauses.reduceOption.head?).head
            let effective := s.clauses.takeWhile Option.isSome
            let pos := effective ++ [some (clause1 split)]
            let neg := effective ++ [some (clause1 split.neg)]
            some (.next (⟨pos, s.assignments, none⟩ :: ⟨neg, s.assignments, none⟩ :: stack))

/-- `findTseitinModel0`: `none` is UNSAT; a model lists the literals most recent
first. The outer `none` is a run out of fuel. -/
def findTseitinModel (fuel : ℕ) (clauses : List Clause) : Option (Option (List Lit)) :=
  run step fuel [⟨clauses.map some, [], none⟩]

/-- The search order is nsc's: units, then the least pure variable, then a split
on the first clause's head, positive first. -/
example : findTseitinModel 9 ([[3, 2], [3, -4]].map fun c => .fromIter (c.map Lit.mk)) =
    some (some ([3, 2].map Lit.mk)) := by decide

example : findTseitinModel 9 ([[-1], [1, 2], [2, 3]].map fun c => .fromIter (c.map Lit.mk)) =
    some (some ([2, -1].map Lit.mk)) := by decide

example : findTseitinModel 9
    ([[1, 2], [-1, -2], [1, -2], [-1, 2]].map fun c => .fromIter (c.map Lit.mk)) =
    some none := by decide

end ScalaRs.Patmat
