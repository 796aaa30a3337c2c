import ScalaRs.TailCalls
import ScalaRs.CallArgumentCorrectness
import ScalaRs.RecursionAsLoops

/-! # Runs of a method with self calls

The recursive method, where a self call enters the body with a new frame, and the code that jumps
back with the arguments stored in the frame it has. -/
namespace ScalaRs.TailCalls
open Unification (Ty SymbolId)
open TypedTrees (Tree Cases noSymbol)
open CallArguments RecursionAsLoops

variable {V X σ : Type}

/-- A computation that throws, changes the state or does not come to an end. -/
abbrev Eval (X σ α : Type) := ExceptT X (StateT σ Option) α

/-- The receiver and the arguments of a call. -/
structure Args (V : Type) where
  this : V
  params : List V

/-- The calls of the method that are not in tail position. -/
abbrev Invoke (V X σ : Type) := Args V × σ → Option (Except X V × σ)

abbrev Locals (V : Type) := SymbolId → Option V

/-- What an expression reads. -/
structure Scope (V : Type) where
  this : V
  params : List V
  locals : Locals V

/-- `this`, or `C.this` for the class that is compiled. -/
def isOwnThis (m : Method) : Tree → Bool
  | .this i => (i.sym == noSymbol || i.sym == m.classSym) && !erasesToBoxedUnit i.ty
  | _ => false

/-- A machine for the code whose trees are not looked into. -/
structure Machine (ctx : EmitCtx) (m : Method) (V X σ : Type) where
  step : Invoke V X σ → Step → Scope V → List V → Eval X σ (List V)
  /-- A statement of a block, which may define a local variable. -/
  stat : Invoke V X σ → Tree → Scope V → Eval X σ (Locals V)
  /-- The selector and the patterns and guards up to the case that is taken. -/
  choose : Invoke V X σ → Tree → Cases → Scope V → Eval X σ (ℕ × Locals V)
  isTrue : V → Bool
  unit : V
  isNull : V → Bool
  /-- The exception of a call on `null`. -/
  nullReceiver : X
  /-- The value of a return to the call with this receiver. -/
  returned : V → X → Option V
  step_mono : ∀ g h i sc vs s x, Extends g h →
    (step g i sc vs).run.run s = some x → (step h i sc vs).run.run s = some x
  stat_mono : ∀ g h t sc s x, Extends g h →
    (stat g t sc).run.run s = some x → (stat h t sc).run.run s = some x
  choose_mono : ∀ g h t cs sc s x, Extends g h →
    (choose g t cs sc).run.run s = some x → (choose h t cs sc).run.run s = some x
  /-- What is below the values that a step takes is left alone. -/
  step_framed : ∀ g i sc cells cells' vs below, exec ctx i cells = some cells' →
    cells.length = vs.length → step g i sc (vs ++ below) = (· ++ below) <$> step g i sc vs
  step_height : ∀ g i sc cells cells' vs vs' s s', exec ctx i cells = some cells' →
    cells.length = vs.length → (step g i sc vs).run.run s = some (.ok vs', s') →
    vs'.length = cells'.length
  step_this : ∀ g t sc vs, isOwnThis m t = true → step g (.genExpr t) sc vs = pure (sc.this :: vs)

namespace Machine

variable {ctx : EmitCtx} {m : Method} (M : Machine ctx m V X σ) (g : Invoke V X σ)

def steps (sc : Scope V) : List Step → List V → Eval X σ (List V)
  | [], vs => pure vs
  | i :: code, vs => do
    let vs ← M.step g i sc vs
    steps sc code vs

/-- A `Unit` expression leaves nothing. -/
def eval (t : Tree) (sc : Scope V) : Eval X σ V := do
  let vs ← M.step g (.genExpr t) sc []
  return vs.headD M.unit

def stats (sc : Scope V) : List Tree → Eval X σ (Locals V)
  | [] => pure sc.locals
  | t :: rest => do
    let locals ← M.stat g t sc
    stats { sc with locals := locals } rest

/-- No result at all, as of code that the verifier rejects. -/
def stuck {α : Type} : Eval X σ α := ExceptT.mk fun _ => none

/-- The handler around a body that catches returns, for the receiver it finds. -/
def caught (this : V) : Except X V → Except X V
  | .error x =>
    if m.catchesReturns then
      match M.returned this x with
      | some v => .ok v
      | none => .error x
    else .error x
  | .ok v => .ok v

/-! ## The recursive method -/

/-- What becomes of a call on `null`. -/
inductive OnNull
  /-- The body is entered. -/
  | enter
  | throw
  /-- The run is not followed further. -/
  | stop

def callMethod (onNull : OnNull) (checked : Bool) (a : Args V) : Eval X σ V :=
  if checked && m.valueExt.isNone && M.isNull a.this then
    match onNull with
    | .enter => ExceptT.mk fun s => g (a, s)
    | .throw => throw M.nullReceiver
    | .stop => stuck
  else ExceptT.mk fun s => g (a, s)

/-- The value that each block of steps leaves. -/
def values (sc : Scope V) : List (List Step) → Eval X σ (List V)
  | [] => pure []
  | b :: blocks => do
    let vs ← M.steps g sc b []
    let rest ← values sc blocks
    return vs.headD M.unit :: rest

/-- The expression before the method's name. -/
def qualifier : Tree → Option Tree
  | .select _ q _ => some q
  | _ => none

/-- The receiver of a self call. -/
def receiverValue (sc : Scope V) (f : Tree) : Eval X σ V :=
  match qualifier f with
  | some q => M.eval g q sc
  | none => pure sc.this

variable (lp : TailLoop) (onNull : OnNull)

def callSelf (f : Tree) (args : List Tree) (sc : Scope V) : Eval X σ V := do
  let this ← M.receiverValue g sc f
  let params ← M.values g sc (blocks ctx (selfCall m lp) args)
  M.callMethod g onNull (qualifier f).isSome ⟨this, params⟩

mutual

def plainEval (t : Tree) (sc : Scope V) : Eval X σ V :=
  match call m t with
  | some (f, args) =>
    if args.length = lp.types.length then M.callSelf g lp onNull f args sc else M.eval g t sc
  | none =>
    match t with
    | .apply i (.select fi qual n) [rhs] =>
      -- Without a self call in it, this is an expression like any other.
      if isShortcircuit ctx.st (.select fi qual n) && !(tailCalls m ctx.st rhs).isEmpty then do
        let v ← M.eval g qual sc
        if M.isTrue v == ((ctx.st.get fi.sym).intrinsic == .boolAnd) then plainEval rhs sc
        else return v
      else M.eval g (.apply i (.select fi qual n) [rhs]) sc
    | .ifElse _ cond thenp elsep => do
      let v ← M.eval g cond sc
      if M.isTrue v then plainEval thenp sc else plainEval elsep sc
    | .block _ stats e => do
      let locals ← M.stats g sc stats
      plainEval e { sc with locals := locals }
    | .typed _ e => plainEval e sc
    | .matchOn _ selector cases => do
      let (k, locals) ← M.choose g selector cases sc
      plainCase cases k { sc with locals := locals }
    | t => M.eval g t sc

def plainCase (cases : Cases) (k : ℕ) (sc : Scope V) : Eval X σ V :=
  match cases, k with
  | .nil, _ => stuck
  | .cons _ _ body _, 0 => plainEval body sc
  | .cons _ _ _ rest, k + 1 => plainCase rest k sc

end

/-- What the body reads of the arguments. A `Unit` parameter has only one value. -/
def scopeOf (a : Args V) : Scope V where
  this := if m.noReceiver then M.unit else a.this
  params := lp.types.zipIdx.map fun x =>
    if isUnitLike x.1 then M.unit else (a.params[x.2]?).getD M.unit
  locals _ := none

def plainMethod (rhs : Tree) : Invoke V X σ → Invoke V X σ :=
  fun g x =>
    let sc := M.scopeOf lp x.1
    ((M.plainEval g lp onNull rhs sc).run.run x.2).map fun r => (M.caught sc.this r.1, r.2)

/-! ## The code that loops -/

/-- The slots of the frame. -/
abbrev Frame (V : Type) := ℕ → V

def frameScope (fr : Frame V) (locals : Locals V) : Scope V where
  this := if m.noReceiver then M.unit else fr 0
  params := (lp.params.zip lp.types).map fun x => if isUnitLike x.2 then M.unit else fr x.1.1
  locals := locals

/-- The values on the stack are stored in the parameters, of which the last comes first. -/
def storeParams : List ((ℕ × JvmSort) × Ty) → List V × Frame V → Option (List V × Frame V)
  | [], s => some s
  | ((slot, sort), ty) :: rest, (vs, fr) =>
    if isUnitLike ty then
      match vs with
      | _ :: vs => storeParams rest (vs, fr)
      | [] => none
    else if sort = .void then storeParams rest (vs, fr)
    else
      match vs with
      | v :: vs => storeParams rest (vs, Function.update fr slot v)
      | [] => none

/-- The new receiver is stored last, and nothing may be left on the stack. -/
def storeReceiver (receiver : Bool) : List V × Frame V → Option (Frame V)
  | ([v], fr) =>
    if receiver && m.valueExt.getD .ref != .void then some (Function.update fr 0 v) else none
  | ([], fr) => if receiver && m.valueExt.getD .ref != .void then none else some fr
  | _ => none

def jump (fr : Frame V) (receiver : Option Tree) (args : List Step) (locals : Locals V) :
    Eval X σ (Frame V) := do
  let vs ← M.steps g (M.frameScope lp fr locals) (receiver.toList.map .genExpr ++ args) []
  let stored := storeParams (lp.params.zip lp.types).reverse (vs, fr)
  match stored.bind (storeReceiver (m := m) receiver.isSome) with
  | some fr => return fr
  | none => stuck

mutual

/-- The code returns a value, or jumps back with a new frame. -/
def execCode (fr : Frame V) (code : Code) (locals : Locals V) : Eval X σ (V ⊕ Frame V) :=
  let sc := M.frameScope lp fr locals
  match code with
  | .value t => .inl <$> M.eval g t sc
  | .ifElse cond thenp elsep => do
    let v ← M.eval g cond sc
    if M.isTrue v then execCode fr thenp locals else execCode fr elsep locals
  | .block stats e => do
    let locals ← M.stats g sc stats
    execCode fr e locals
  | .matchOn selector cases bodies => do
    let (k, locals) ← M.choose g selector cases sc
    execNth fr bodies k locals
  | .boolAnd left right => do
    let v ← M.eval g left sc
    if M.isTrue v then execCode fr right locals else return .inl v
  | .boolOr left right => do
    let v ← M.eval g left sc
    if M.isTrue v then return .inl v else execCode fr right locals
  | .jump _ receiver args => .inr <$> M.jump g lp fr receiver args locals

def execNth (fr : Frame V) (bodies : Codes) (k : ℕ) (locals : Locals V) :
    Eval X σ (V ⊕ Frame V) :=
  match bodies, k with
  | .nil, _ => stuck
  | .cons body _, 0 => execCode fr body locals
  | .cons _ rest, k + 1 => execNth fr rest k locals

end

/-- One run from the head of the loop. -/
def loopBody (code : Code) (g : Invoke V X σ) (b : Frame V × σ) :
    Option (WhileLoops.Step (Except X V × σ) (Frame V × σ)) :=
  let sc := M.frameScope lp b.1 fun _ => none
  ((M.execCode g lp b.1 code sc.locals).run.run b.2).map fun
    | (.ok (.inl v), s) => .done (.ok v, s)
    | (.ok (.inr fr), s) => .next (fr, s)
    | (.error x, s) => .done (M.caught sc.this (.error x), s)

/-- The frame of a call from outside. -/
def enterFrame (a : Args V) : Frame V := fun slot =>
  match (lp.params.map Prod.fst).idxOf? slot with
  | some i => (a.params[i]?).getD M.unit
  | none => a.this

/-- The arguments that a frame holds. -/
def frameArgs (fr : Frame V) : Args V :=
  let sc := M.frameScope lp fr fun _ => none
  ⟨sc.this, sc.params⟩

/-- The recursive method with self calls of any depth. -/
def Recursive (rhs : Tree) (a : Args V) (s : σ) (r : Except X V × σ) : Prop :=
  ∃ n, plain (M.plainMethod lp onNull rhs) n (a, s) = some r

/-- The method that is emitted, called from outside. -/
def Looping (code : Code) (a : Args V) (s : σ) (r : Except X V × σ) : Prop :=
  ∃ n, invoke (M.loopBody lp code) (fun x => (M.enterFrame lp x.1, x.2)) n (a, s) = some r

end Machine

end ScalaRs.TailCalls
