import ScalaRs.CallArguments

/-! # Self calls in tail position

Which calls of a method to itself are the last thing it evaluates, and the code that jumps back to
the start of the method in their place. -/
namespace ScalaRs.TailCalls
open Unification (Ty SymbolId)
open TypedTrees (Tree Cases noSymbol)
open CallArguments

/-- A node of a method body, by the way down to it. It stands for the address of the tree. -/
abbrev Node := List ℕ

inductive JvmSort
  | void | int | long | float | double | ref
deriving DecidableEq

def jvmSort : Ty → JvmSort
  | .existential _ body => jvmSort body
  | t =>
    match widenConstant t with
    | .unit | .noType | .nothing => .void
    | .boolean | .int | .char | .byte | .short => .int
    | .long => .long
    | .float => .float
    | .double => .double
    | _ => .ref

/-- What is read of the method that is compiled, and of where it stands. -/
structure Method where
  sym : SymbolId
  name : String
  params : List SymbolId
  /-- `method_params_from_sym` -/
  types : List Ty
  /-- `paramss` is empty. -/
  nullary : Bool
  annotations : List String
  /-- The method is final, private or local. -/
  fixed : Bool
  ownerFinal : Bool
  ownerKind : TypedTrees.SymKind
  /-- The class that is compiled. -/
  classSym : SymbolId
  classIsValueClass : Bool
  /-- `ctx.outer` -/
  inClosure : Bool
  /-- The sort of the receiver of a `$extension` method. -/
  valueExt : Option JvmSort
  /-- There is no receiver, as in a method that was lifted out of the arguments of a constructor. -/
  noReceiver : Bool
  /-- The body is compiled to catch the returns of the functions in it. -/
  catchesReturns : Bool
  /-- `frame.get` -/
  slot : SymbolId → Option (ℕ × JvmSort)

/-! ## Finding the calls -/

def isNew : Tree → Bool
  | .new _ => true
  | _ => false

def isFunctionTy : Ty → Bool
  | .function _ _ => true
  | _ => false

/-- `flatten_apply_owned`: the function of nested applications, and the arguments of all. -/
def flattenApply : Tree → List Tree → Tree × List Tree
  | .typeApply _ f, args => flattenApply f args
  | .typed _ e, args => flattenApply e args
  | .apply i f inner, args =>
    if isNew (peelFun f) || isFunctionTy i.ty then (.apply i f inner, args)
    else flattenApply f (inner ++ args)
  | t, args => (t, args)

def isName : Tree → Bool
  | .ident _ _ | .select _ _ _ => true
  | _ => false

variable (m : Method)

/-- The function and the arguments of a call of the method itself. -/
def call (t : Tree) : Option (Tree × List Tree) :=
  let shape := match t with
    | .apply _ f args => some (flattenApply f args)
    | .select _ _ _ | .ident _ _ => if m.nullary then some (t, []) else none
    | _ => none
  shape.filter fun c => c.1.sym == m.sym && isName c.1

structure Found where
  /-- The self calls that are to become jumps back. -/
  calls : List Node
  /-- The `&&` and `||` whose right operand holds one of them. -/
  shortcut : List Node

variable (st : SymbolTable)

/-- `bool_shortcircuit_rhs` finds the one argument of such a function. -/
def isShortcircuit (f : Tree) : Bool :=
  f.sym != noSymbol &&
    ((st.get f.sym).intrinsic == .boolAnd || (st.get f.sym).intrinsic == .boolOr)

mutual

def collect (t : Tree) (p : Node) (found : Found) : Found :=
  if (call m t).isSome then { found with calls := found.calls ++ [p] }
  else
    match t with
    | .apply _ f [rhs] =>
      if isShortcircuit st f then
        let inner := collect rhs (p ++ [0]) found
        if inner.calls.length ≠ found.calls.length then
          { inner with shortcut := inner.shortcut ++ [p] }
        else inner
      else found
    | .ifElse _ _ thenp elsep => collect elsep (p ++ [2]) (collect thenp (p ++ [1]) found)
    | .block _ _ e => collect e (p ++ [0]) found
    | .typed _ e => collect e (p ++ [0]) found
    | .matchOn _ _ cases => collectCases cases p 0 found
    | _ => found

def collectCases (cases : Cases) (p : Node) (k : ℕ) (found : Found) : Found :=
  match cases with
  | .nil => found
  | .cons _ _ body rest => collectCases rest p (k + 1) (collect body (p ++ [k]) found)

end

/-! The calls below a node, with the ways down to them. -/

abbrev SelfCall := Node × Tree × List Tree

/-- The way down from the node above. -/
def under (k : ℕ) (calls : List SelfCall) : List SelfCall :=
  calls.map fun c => (k :: c.1, c.2)

mutual

def tailCalls (t : Tree) : List SelfCall :=
  match call m t with
  | some c => [([], c)]
  | none =>
    match t with
    | .apply _ f [rhs] => if isShortcircuit st f then under 0 (tailCalls rhs) else []
    | .ifElse _ _ thenp elsep => under 1 (tailCalls thenp) ++ under 2 (tailCalls elsep)
    | .block _ _ e => under 0 (tailCalls e)
    | .typed _ e => under 0 (tailCalls e)
    | .matchOn _ _ cases => tailCallsOfCases cases 0
    | _ => []

def tailCallsOfCases (cases : Cases) (k : ℕ) : List SelfCall :=
  match cases with
  | .nil => []
  | .cons _ _ body rest => under k (tailCalls body) ++ tailCallsOfCases rest (k + 1)

end

/-! ## The start of the loop -/

structure TailLoop where
  calls : List Node
  shortcut : List Node
  params : List (ℕ × JvmSort)
  types : List Ty
  annotated : Bool

/-- `begin_tail_loop` starts a loop, or leaves the method as it is, which is an error where a loop
was asked for. -/
inductive Start
  | loop (lp : TailLoop)
  | plain
  | error (message : String)

def annotated : Bool :=
  m.annotations.any fun path => (path.splitOn ".").getLast? == some "tailrec"

def eligible : Bool :=
  annotated m || m.fixed || m.ownerFinal ||
    m.ownerKind == .module || m.ownerKind == .moduleClass || m.ownerKind == .method

def message : String :=
  "could not optimize @tailrec annotated method " ++ m.name ++
    ": unsupported erased tail-call shape"

def unsupported : Start := if annotated m then .error (message m) else .plain

def beginTailLoop (rhs : Tree) : Start :=
  if m.sym = noSymbol then .plain
  else if !eligible m || m.name == "<init>" then .plain
  else if m.inClosure then unsupported m
  else if m.valueExt.isNone && m.classIsValueClass then .plain
  else
    let found := collect m st rhs [] ⟨[], []⟩
    if found.calls.isEmpty then unsupported m
    else
      match m.params.mapM m.slot with
      | none => unsupported m
      | some params =>
        if params.length ≠ m.types.length then unsupported m
        else .loop ⟨found.calls, found.shortcut, params, m.types, annotated m⟩

/-! ## The code of the body -/

mutual

/-- The code of a method body, with the trees whose code is not looked into. -/
inductive Code
  | value (t : Tree)
  | ifElse (cond : Tree) (thenp elsep : Code)
  | block (stats : List Tree) (expr : Code)
  | matchOn (selector : Tree) (cases : Cases) (bodies : Codes)
  | boolAnd (left : Tree) (right : Code)
  | boolOr (left : Tree) (right : Code)
  /-- The receiver and the arguments are evaluated and stored, and the loop goes on. -/
  | jump (node : Node) (receiver : Option Tree) (args : List Step)

inductive Codes
  | nil
  | cons (body : Code) (rest : Codes)

end

variable (ctx : EmitCtx) (lp : TailLoop)

/-- How `emit_tail_call` has the arguments emitted. -/
def selfCall : Call := ⟨lp.types, true, false, m.sym, false⟩

/-- The receiver that takes the place of `this`. -/
def receiverOf : Tree → Option Tree
  | .select _ (.this _) _ => none
  | .select _ qual _ => some qual
  | _ => none

/-- The jump for the node `p`, if it is a recorded call. -/
def jumpAt (t : Tree) (p : Node) : Option Code :=
  if lp.shortcut.contains p || !lp.calls.contains p then none
  else
    match call m t with
    | some (f, args) =>
      if args.length = lp.params.length then
        some (.jump p (receiverOf f) (genCallArgs ctx (selfCall m lp) args))
      else none
    | none => none

mutual

/-- `gen_expr`, with the recorded calls that are not emitted yet. -/
def genExpr (t : Tree) (p : Node) (pending : List Node) : Code × List Node :=
  match jumpAt m ctx lp t p with
  | some code => (code, pending.filter (· != p))
  | none =>
    match t with
    | .apply i (.select fi qual n) (rhs :: rest) =>
      if lp.shortcut.contains p then
        let (code, pending') := genExpr rhs (p ++ [0]) pending
        match (ctx.st.get fi.sym).intrinsic with
        | .boolAnd => (.boolAnd qual code, pending')
        | .boolOr => (.boolOr qual code, pending')
        | _ => (.value (.apply i (.select fi qual n) (rhs :: rest)), pending)
      else (.value (.apply i (.select fi qual n) (rhs :: rest)), pending)
    | .ifElse _ cond thenp elsep =>
      let (thenp, pending) := genExpr thenp (p ++ [1]) pending
      let (elsep, pending) := genExpr elsep (p ++ [2]) pending
      (.ifElse cond thenp elsep, pending)
    | .block _ stats e =>
      let (e, pending) := genExpr e (p ++ [0]) pending
      (.block stats e, pending)
    | .typed _ e => genExpr e (p ++ [0]) pending
    | .matchOn _ selector cases =>
      let (bodies, pending) := genCases cases p 0 pending
      (.matchOn selector cases bodies, pending)
    | t => (.value t, pending)

def genCases (cases : Cases) (p : Node) (k : ℕ) (pending : List Node) : Codes × List Node :=
  match cases with
  | .nil => (.nil, pending)
  | .cons _ _ body rest =>
    let (body, pending) := genExpr body (p ++ [k]) pending
    let (rest, pending) := genCases rest p (k + 1) pending
    (.cons body rest, pending)

end

/-- An error where a loop was asked for and a recorded call was lost. -/
def finishTailLoop (pending : List Node) : Option String :=
  if lp.annotated && !pending.isEmpty then some (message m) else none

end ScalaRs.TailCalls
