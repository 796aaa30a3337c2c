import ScalaRs.TypedTrees

/-! # Right-associative operators

`a :: b` calls `b.::(a)`, whose receiver would run first. The pass binds the left operand to a
local in front of the call where both operands compute something. -/
namespace ScalaRs.Rassoc
open TypedTrees
open Unification (Ty SymbolId)

/-- Whether evaluating `t` can run code. -/
def computes (st : SymbolTable) : Tree → Bool
  | .ident i _ => namesMethod st i || namesByName st i
  | .select i qual _ => namesMethod st i || namesByName st i || computes st qual
  | .apply _ _ _ | .new _ | .block _ _ _ | .ifElse _ _ _ _ | .matchOn _ _ _ | .assign _ _ _
  | .throw _ _ => true
  | .typed _ expr => computes st expr
  | .typeApply _ func => computes st func
  | _ => false

def receiverComputes (st : SymbolTable) : Tree → Bool
  | .typeApply _ func => receiverComputes st func
  | .select _ qual _ => computes st qual
  | _ => false

def funSym : Tree → SymbolId
  | .typeApply _ func => func.sym
  | t => t.sym

/-- A selection by an operator that is written before what it selects from. -/
def isOperatorSelect : Tree → Bool
  | .select i qual name =>
      1 < name.utf8ByteSize && name.toList.getLast? == some ':' && i.span.lo < qual.span.lo &&
        !i.span.isDummy && !qual.span.isDummy
  | _ => false

/-- `recv op arg` written infix, `op` right-associative. -/
def isInfixRassoc : Tree → Bool
  | .typeApply _ func => isOperatorSelect func
  | t => isOperatorSelect t

/-- The function and the arguments of the innermost application under the further argument
clauses of `t`. -/
def operatorApply : Tree → Option (Tree × List Tree)
  | .apply _ (.apply j f as) _ => operatorApply (.apply j f as)
  | .apply _ f args => some (f, args)
  | _ => none

/-- Puts `x` in the place of the operand. -/
def setOperand (x : Tree) : Tree → Tree
  | .apply i (.apply j f as) args => .apply i (setOperand x (.apply j f as)) args
  | .apply i f (_ :: rest) => .apply i f (x :: rest)
  | t => t

def isNoTypeOrError : Ty → Bool
  | .noType | .error => true
  | _ => false

/-- The operand is the only argument of the first clause. An implicit clause is appended to the
same argument list by the typer. -/
def onlyOperand (st : SymbolTable) (f : Tree) (rest : List Tree) : Bool :=
  rest.isEmpty ||
    funSym f != noSymbol && (st.get (funSym f)).paramss.head?.map List.length == some 1

/-- Whether the operand `arg` of `f` is bound to a local. -/
def hoists (st : SymbolTable) (f arg : Tree) (rest : List Tree) : Bool :=
  onlyOperand st f rest && isInfixRassoc f && !arg.info.bynameThunk && computes st arg &&
    receiverComputes st f && !isNoTypeOrError arg.ty

/-- The symbol of the local that an operand is bound to. -/
def operandSymbol (owner : SymbolId) (p : Pass) (ty : Ty) : Symbol :=
  ⟨"rassoc$" ++ toString (p.gensym + 1), owner, .term, true, false, ty, []⟩

def operandInfo (p : Pass) (arg : Tree) : Info :=
  { Info.dummy with sym := p.st.length, ty := arg.ty, span := arg.span }

def rewrite (owner : SymbolId) (r : Tree × Pass) : Tree × Pass :=
  match operatorApply r.1 with
  | some (f, arg :: rest) =>
      if hoists r.2.st f arg rest then
        let tmp := operandSymbol owner r.2 arg.ty
        let i := operandInfo r.2 arg
        let call := setOperand (.ident i tmp.name) r.1
        (.block { Info.dummy with id := r.1.info.id, span := r.1.span, ty := r.1.ty }
            [.valDef i tmp.name arg] call,
          ⟨r.2.st ++ [tmp], r.2.gensym + 1⟩)
      else r
  | _ => r

/-- The tree and the symbol table that the pass leaves. -/
def restoreRassocOrder (tree : Tree) (st : SymbolTable) : Tree × SymbolTable :=
  let (tree, p) := walk rewrite noSymbol tree ⟨st, 0⟩
  (tree, p.st)

end ScalaRs.Rassoc
