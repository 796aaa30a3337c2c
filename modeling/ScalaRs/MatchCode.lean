import ScalaRs.ForwardJumps
import Mathlib.Data.Int.Notation
import Mathlib.Data.Set.Defs
import Mathlib.Logic.Function.Basic
import Mathlib.Algebra.Group.Int.Defs

/-! # The code of a match on an `Int` or `Char`

The selector lies in a local and is an `int` on the stack. The code of a guard
and of a case body is one operation here. A stable path, or a literal that is no
`int`, is compared with the selector in its own type, also in one operation. -/
namespace ScalaRs.MatchCode
open ForwardJumps

/-- Labels are numbered in the order in which they are allocated. -/
abbrev Label := ℕ

/-- Literals; `κ` has the constants that are compared in their own type. -/
inductive Lit (κ : Type)
  | int (n : ℤ)
  | char (c : ℤ)
  | null
  | other (c : κ)

/-- What the type of a typed pattern says about a selector that is an `int`. -/
structure TypeTree (κ : Type) where
  /-- It is `Singleton`. -/
  singleton : Bool
  /-- The path of `p.type`. -/
  stable : Option κ
  /-- The literal of a literal type. -/
  literal : Option (Lit κ)

/-- An identifier pattern. -/
structure Ident (σ κ : Type) where
  name : String
  sym : Option σ
  /-- The symbol is a term. -/
  term : Bool
  stablePat : Bool
  /-- What the name refers to. -/
  path : κ

/-- Patterns that a switch may take, with variables in `σ`. -/
inductive Pat (σ κ : Type)
  | literal (lit : Lit κ)
  | wildcard
  | ident (id : Ident σ κ)
  | bind (sym : Option σ) (body : Pat σ κ)
  | typed (tpt : TypeTree κ) (expr : Pat σ κ)

structure CaseDef (σ κ : Type) where
  pat : Pat σ κ
  hasGuard : Bool

/-- The widened type of a selector, as far as the switch looks. -/
inductive Selector
  | int | char | other

/-- The values of a selector. -/
def Selector.values : Selector → Set ℤ
  | int | other => {n | -2 ^ 31 ≤ n ∧ n < 2 ^ 31}
  | char => {n | 0 ≤ n ∧ n < 2 ^ 16}

/-- What the code depends on besides the match. -/
structure Env (κ : Type) where
  /-- The letters that `is_variable_name` takes for lower case. -/
  lowerLetter : Char → Bool
  /-- Whether a constant equals the selector. -/
  equals : κ → ℤ → Bool
  /-- Whether the guard of a case holds. -/
  guard : ℕ → Bool

inductive Op (σ κ : Type)
  | load
  /-- To the local of a variable, or to a temporary. -/
  | store (x : Option σ)
  | iconst (n : ℤ)
  | ifIcmpne (l : Label)
  /-- A constant compared in its own type: a jump if it differs. -/
  | compare (c : κ) (l : Label)
  /-- A guard and its `ifeq`. -/
  | guard (i : ℕ) (l : Label)
  | goto (l : Label)
  | tableswitch (default : Label) (lo hi : ℤ) (table : List Label)
  | lookupswitch (default : Label) (pairs : List (ℤ × Label))
  | body (i : ℕ)
  | throwMatchError

abbrev Code (σ κ : Type) := List (Instr Label (Op σ κ))

section Emission

variable {σ κ : Type} (env : Env κ)

def isVariableName (name : String) : Bool :=
  name.toList.head?.any fun c => c == '_' || env.lowerLetter c

/-- The identifier binds; stable identifiers are compared. -/
def isBindingIdent (id : Ident σ κ) : Bool :=
  !id.stablePat && (isVariableName env id.name || id.sym.isNone || id.term)

/-- Compares the literal with the selector. -/
def genLiteralTest (lit : Lit κ) (fail : Label) : Code σ κ :=
  match lit with
  | .int n => [.op (.iconst n), .op .load, .op (.ifIcmpne fail)]
  | .char c => [.op (.iconst c), .op .load, .op (.ifIcmpne fail)]
  | .null => [.op (.goto fail)]
  | .other c => [.op (.compare c fail)]

/-- The operand of a singleton type pattern binds nothing. -/
def isBlank : Pat σ κ → Bool
  | .wildcard => true
  | .ident id => id.name == "_"
  | _ => false

/-- The test that a type stands for. -/
def genTypeTest (tpt : TypeTree κ) (fail : Label) : Code σ κ :=
  if tpt.singleton then []
  else match tpt.stable, tpt.literal with
    | some path, _ => [.op (.compare path fail)]
    | none, some lit => genLiteralTest lit fail
    | none, none => []

/-- The pattern is compared as a singleton, and its operand then bound. -/
def TypeTree.isSingletonPattern (tpt : TypeTree κ) : Bool :=
  !tpt.singleton && (tpt.stable.isSome || tpt.literal.isSome)

def genPattern (fail : Label) : Pat σ κ → Code σ κ
  | .wildcard => []
  | .ident id =>
    if isBindingIdent env id then [.op .load, .op (.store id.sym)]
    else [.op (.compare id.path fail)]
  | .literal lit => genLiteralTest lit fail
  | .bind sym body => genPattern fail body ++ [.op .load, .op (.store sym)]
  | .typed tpt expr => genTypeTest tpt fail ++
      if tpt.isSingletonPattern && isBlank expr then [] else genPattern fail expr

/-- The cases from the `i`-th on, each with its own label to fail to. -/
def genCases (fin : Label) : Label → ℕ → List (CaseDef σ κ) → Code σ κ
  | _, _, [] => []
  | fail, i, c :: cases => genPattern env fail c.pat ++
      (if c.hasGuard then [.op (.guard i fail)] else []) ++
      [.op (.body i), .op (.goto fin), .mark fail] ++ genCases fin (fail + 1) (i + 1) cases

/-- The tests of a match, case by case; labels are allocated from `next` on. -/
def genTests (cases : List (CaseDef σ κ)) (next : Label) : Code σ κ :=
  genCases env next (next + 1) 0 cases ++ [.op .throwMatchError, .mark next]

/-! ## The switch -/

inductive SwitchPat
  | key (n : ℤ)
  | default

def switchPatKey : Pat σ κ → Option SwitchPat
  | .literal (.int n) => some (.key n)
  | .literal (.char c) => some (.key c)
  | .literal _ => none
  | .wildcard => some .default
  | .ident id => if isVariableName env id.name then some .default else none
  | .bind _ body => switchPatKey body
  | .typed _ expr => switchPatKey expr

/-- The keys of the cases from the `i`-th on, and the case without a key, after
those already found. -/
def switchKeys : ℕ → List (CaseDef σ κ) → List (ℤ × ℕ) → Option ℕ →
    Option (List (ℤ × ℕ) × Option ℕ)
  | _, [], keys, dflt => some (keys, dflt)
  | i, c :: cases, keys, dflt =>
    if c.hasGuard then none
    else match switchPatKey env c.pat with
      | some (.key k) =>
        if keys.any (·.1 == k) then none else switchKeys (i + 1) cases (keys ++ [(k, i)]) dflt
      | some .default => if dflt.isSome then none else switchKeys (i + 1) cases keys (some i)
      | none => none

/-- The pattern's code is emitted in front of the case body. -/
def bindsInSwitch (p : Pat σ κ) : Bool :=
  match p, switchPatKey env p with
  | .ident _, some .default => true
  | .bind _ _, some .default => true
  | _, _ => false

/-- The cases from the `i`-th on, each at its label. -/
def genSwitchCases (caseLab : ℕ → Label) (miss fin : Label) :
    ℕ → List (CaseDef σ κ) → Code σ κ
  | _, [] => []
  | i, c :: cases => .mark (caseLab i) ::
      (if bindsInSwitch env c.pat then genPattern env miss c.pat else []) ++
      [.op (.body i), .op (.goto fin)] ++ genSwitchCases caseLab miss fin (i + 1) cases

/-- `lo..=hi` -/
def keyRange (lo hi : ℤ) : List ℤ := (List.range (hi - lo + 1).toNat).map fun k : ℕ => lo + k

/-- The label of the case that has the key. -/
def keyLabel (keys : List (ℤ × ℕ)) (caseLab : ℕ → Label) (dflt : Label) (n : ℤ) : Label :=
  match keys.find? (·.1 == n) with
  | some (_, i) => caseLab i
  | none => dflt

def genSwitchOp (keys : List (ℤ × ℕ)) (caseLab : ℕ → Label) (dflt : Label) (lo hi : ℤ) :
    Op σ κ :=
  if hi - lo + 1 ≤ keys.length * 2 ∧ hi - lo + 1 ≤ 4096 then
    .tableswitch dflt lo hi ((keyRange lo hi).map (keyLabel keys caseLab dflt))
  else .lookupswitch dflt
    ((keys.map fun key => (key.1, caseLab key.2)).mergeSort fun a b => a.1 ≤ b.1)

/-- The cases have labels from `next` on; `miss` and the end come after them. -/
def switchCode (cases : List (CaseDef σ κ)) (next : Label) (keys : List (ℤ × ℕ))
    (dflt : Option ℕ) (lo hi : ℤ) : Code σ κ :=
  let caseLab := fun i => next + i
  let miss := next + cases.length
  let fin := next + cases.length + 1
  let defLab := (dflt.map caseLab).getD miss
  .op .load :: .op (genSwitchOp keys caseLab defLab lo hi) ::
    (genSwitchCases env caseLab miss fin 0 cases ++
      ((if dflt.isNone then [.mark miss, .op .throwMatchError] else []) ++ [.mark fin]))

def genIntSwitch (selector : Selector) (cases : List (CaseDef σ κ)) (next : Label) :
    Option (Code σ κ) :=
  match selector with
  | .other => none
  | _ => do
    let (keys, dflt) ← switchKeys env 0 cases [] none
    let lo ← (keys.map (·.1)).min?
    let hi ← (keys.map (·.1)).max?
    return switchCode env cases next keys dflt lo hi

/-- The code after the selector has been stored. -/
def genMatch (selector : Selector) (cases : List (CaseDef σ κ)) (next : Label) : Code σ κ :=
  (genIntSwitch env selector cases next).getD (genTests env cases next)

end Emission

/-! ## Running the code -/

structure State (σ : Type) where
  selector : ℤ
  stack : List ℤ
  locals : σ → Option ℤ
  /-- The case bodies that have run, each with the locals it found. -/
  ran : List (ℕ × (σ → Option ℤ))

inductive Thrown
  | matchError
  /-- The code does not verify. -/
  | verifyError

variable {σ κ : Type} [DecidableEq σ]

def State.storeTop (s : State σ) (x : Option σ) (n : ℤ) (stack : List ℤ) : State σ :=
  match x with
  | some x => { s with stack := stack, locals := Function.update s.locals x (some n) }
  | none => { s with stack := stack }

def jumpUnless (c : Bool) (l : Label) (s : State σ) : Move Label (State σ) Thrown :=
  if c then .next s else .jump l s

def stepOp (env : Env κ) : Op σ κ → State σ → Move Label (State σ) Thrown
  | .load, s => .next { s with stack := s.selector :: s.stack }
  | .iconst n, s => .next { s with stack := n :: s.stack }
  | .store x, s => match s.stack with
    | n :: stack => .next (s.storeTop x n stack)
    | [] => .halt .verifyError
  | .ifIcmpne l, s => match s.stack with
    | b :: a :: stack => jumpUnless (a == b) l { s with stack := stack }
    | _ => .halt .verifyError
  | .compare c l, s => jumpUnless (env.equals c s.selector) l s
  | .guard i l, s => jumpUnless (env.guard i) l s
  | .goto l, s => .jump l s
  | .tableswitch dflt lo hi table, s => match s.stack with
    | n :: stack =>
      .jump (if lo ≤ n ∧ n ≤ hi then table.getD (n - lo).toNat dflt else dflt)
        { s with stack := stack }
    | [] => .halt .verifyError
  | .lookupswitch dflt pairs, s => match s.stack with
    | n :: stack =>
      .jump (((pairs.find? (·.1 == n)).map (·.2)).getD dflt) { s with stack := stack }
    | [] => .halt .verifyError
  | .body i, s => .next { s with ran := s.ran ++ [(i, s.locals)] }
  | .throwMatchError, _ => .halt .matchError

/-- The labels that an operation may jump to. -/
def targets : Op σ κ → List Label
  | .ifIcmpne l | .compare _ l | .guard _ l | .goto l => [l]
  | .tableswitch dflt _ _ table => dflt :: table
  | .lookupswitch dflt pairs => dflt :: pairs.map (·.2)
  | _ => []

/-- The selector is stored and no case body has run. -/
def State.init (n : ℤ) (locals : σ → Option ℤ) : State σ := ⟨n, [], locals, []⟩

end ScalaRs.MatchCode
