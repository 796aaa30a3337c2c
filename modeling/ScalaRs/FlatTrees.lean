import ScalaRs.Uncurry

/-! # Trees after the uncurry pass

In a flat tree no application is applied that a method type is left on, and outside function
position no expression has one. -/
namespace ScalaRs.Uncurry
open CompilerTrees
open Unification (Ty SymbolId)

/-- `Type::Method` -/
def isMethodTy : Ty → Bool
  | .method _ _ => true
  | _ => false

/-- Nodes that have a value: no definitions, patterns or type trees. -/
def isExpr : TreeKind Tree → Bool
  | .block _ _ | .ifElse _ _ _ | .matchOn _ _ | .function _ _ | .assign _ _ | .whileLoop _ _
  | .doWhile _ _ | .returnValue _ | .throw _ | .tryCatch _ _ _ | .new _ | .typed _ _
  | .typeApply _ _ | .apply _ _ | .super _ _ | .this _ | .select _ _ | .ident _ | .literal _
  | .interpolatedString _ _ _ => true
  | _ => false

/-- The trees below a node, with whether they are in function position. What is below a type
application or an ascription is where the node is. -/
def positions (inFun : Bool) : TreeKind Tree → List (Bool × Tree)
  | .apply func args | .unApply func args => (true, func) :: args.map (false, ·)
  | .typeApply func args => (inFun, func) :: args.map (false, ·)
  | .typed expr tpt => [(inFun, expr), (false, tpt)]
  | kind => kind.trees.map (false, ·)

/-- The function of an application is no partial application of a curried method. -/
def NotCurried : TreeKind Tree → Prop
  | .apply func _ => ¬(isApply func = true ∧ isMethodTy func.ty = true)
  | _ => True

/-- A tree, in function position or not, that the pass has nothing left to do for. -/
inductive Flat : Bool → Tree → Prop
  | mk {inFun : Bool} {info : Info} {kind : TreeKind Tree} :
      (inFun = false → isExpr kind = true → isMethodTy info.ty = false) → NotCurried kind →
      (∀ x ∈ positions inFun kind, Flat x.1 x.2) → Flat inFun (.mk info kind)

/-- What is below the top of a tree, and how it is applied, is flat. -/
def FlatBelow (inFun : Bool) (kind : TreeKind Tree) : Prop :=
  NotCurried kind ∧ ∀ x ∈ positions inFun kind, Flat x.1 x.2

/-- The type at the top of a tree is no method type where that matters. -/
def TypeFlat (inFun : Bool) (t : Tree) : Prop :=
  inFun = false → isExpr t.kind = true → isMethodTy t.ty = false

theorem flat_iff {inFun : Bool} {t : Tree} :
    Flat inFun t ↔ TypeFlat inFun t ∧ FlatBelow inFun t.kind := by
  constructor
  · intro h
    cases h with
    | mk hty hcurried hbelow => exact ⟨hty, hcurried, hbelow⟩
  · intro h
    obtain ⟨info, kind⟩ := t
    exact .mk h.1 h.2.1 h.2.2

/-! ## The condition -/

/-- The parameters and the result of a method type are no method types. -/
def SimpleMethod : Ty → Prop
  | .method paramss ret =>
      isMethodTy ret = false ∧ ∀ pty ∈ paramss.flatten, isMethodTy pty = false
  | _ => True

/-- What is left of a tree: a function, an application, or something else. -/
inductive Shape
  | function | application | other
  deriving DecidableEq

/-- The shape of a tree that becomes a function if it has a method type. -/
def Shape.expanded (ty : Ty) (shape : Shape) : Shape := if isMethodTy ty then .function else shape

/-- What the walk makes of a tree. -/
def shapeAfter (asFun : Bool) : Tree → Shape
  | .mk _ (.function _ _) => .function
  | .mk info (.apply _ _) => if asFun then .application else Shape.expanded info.ty .application
  | .mk info (.typed expr tpt) =>
      if isEtaMarker tpt then Shape.expanded info.ty (shapeAfter asFun expr)
      else if asFun then .other else Shape.expanded info.ty .other
  | .mk info (.typeApply _ _) | .mk info (.select _ _) | .mk info (.ident _) =>
      if asFun then .other else Shape.expanded info.ty .other
  | _ => .other

/-- The trees that the walk goes to: in which mode, and whether they end up in function position. -/
def walked (asFun inFun : Bool) : TreeKind Tree → List ((Bool × Bool) × Tree)
  | .packageDef _ stats => stats.map ((false, false), ·)
  | .classDef _ tparams vparamss impl =>
      (tparams ++ vparamss.flatten ++ impl.parents ++ impl.body).map ((false, false), ·)
  | .moduleDef _ impl => (impl.parents ++ impl.body).map ((false, false), ·)
  | .typeDef _ _ rhs _ _ _ _ => [((false, false), rhs)]
  | .tryCatch body catches finalizer =>
      (body :: (catches.flatMap (fun c => [c.pat, c.body]) ++ [finalizer])).map ((false, false), ·)
  | .apply func args | .unApply func args => ((true, true), func) :: args.map ((false, false), ·)
  | .typeApply func args => ((asFun, inFun), func) :: args.map ((false, false), ·)
  | .typed expr tpt => [((asFun, inFun), expr), ((false, false), tpt)]
  | .importClause _ _ | .macroRhs _ | .singletonTypeTree _ | .annotatedTypeTree _ _
  | .selectFromTypeTree _ _ _ | .compoundTypeTree _ _ | .existentialTypeTree _ _ => []
  | kind => kind.trees.map ((false, false), ·)

/-- The trees that the walk does not go to. -/
def unwalked : TreeKind Tree → List Tree
  | .packageDef pid _ => [pid]
  | .classDef _ _ _ impl | .moduleDef _ impl => impl.selfTpt.toList
  | .typeDef _ tparams _ lo hi views ctxBounds =>
      tparams ++ lo.toList ++ hi.toList ++ views ++ ctxBounds
  | .tryCatch _ catches _ => catches.map (·.guard)
  | .importClause expr _ => [expr]
  | .macroRhs implRef => [implRef]
  | .singletonTypeTree ref => [ref]
  | .annotatedTypeTree tpt annot => [tpt, annot]
  | .selectFromTypeTree qual _ _ => [qual]
  | .compoundTypeTree parents refinements => parents ++ refinements
  | .existentialTypeTree tpt clauses => tpt :: clauses
  | _ => []

/-- The type that the walk leaves at the top is no method type where that matters: the references,
the applications and the ascriptions become functions, and `e _` does unless `e` already has. -/
def TypeReady (asFun inFun : Bool) : Tree → Prop
  | .mk info (.typed expr tpt) =>
      inFun = false → isEtaMarker tpt = true → isMethodTy info.ty = true →
        shapeAfter asFun expr ≠ .function
  | .mk _ (.apply _ _) | .mk _ (.typeApply _ _) | .mk _ (.select _ _) | .mk _ (.ident _) => True
  | .mk info kind => inFun = false → isExpr kind = true → isMethodTy info.ty = false

/-- What a node needs apart from what is below it. -/
def NodeReady (asFun : Bool) : Tree → Prop
  | .mk info (.apply _ _) => asFun = false → isMethodTy info.ty = false
  | .mk info (.typed expr tpt) =>
      if isEtaMarker tpt then
        isMethodTy info.ty = true → shapeAfter asFun expr ≠ .function →
          SimpleMethod info.ty ∧ shapeAfter asFun expr ≠ .application
      else asFun = false → SimpleMethod info.ty
  | .mk info (.typeApply _ _) | .mk info (.select _ _) | .mk info (.ident _) =>
      asFun = false → SimpleMethod info.ty
  | _ => True

/-- Where what is below a type application or an ascription ends up: below the call of a function
that the node becomes, or where the node is. -/
def endsInFun (asFun inFun : Bool) : Tree → Bool
  | .mk info (.typed expr tpt) =>
      inFun || (isMethodTy info.ty &&
        if isEtaMarker tpt then decide (shapeAfter asFun expr ≠ .function) else true)
  | .mk info _ => inFun || isMethodTy info.ty

/-- The trees whose walk makes them flat, below their top. -/
inductive Ready : Bool → Bool → Tree → Prop
  | walk {asFun inFun : Bool} {t : Tree} : hasEtaMarker t.kind = false → NodeReady asFun t →
      (∀ x ∈ walked asFun (endsInFun asFun inFun t) t.kind, TypeReady x.1.1 x.1.2 x.2) →
      (∀ x ∈ walked asFun (endsInFun asFun inFun t) t.kind, Ready x.1.1 x.1.2 x.2) →
      (∀ c ∈ unwalked t.kind, Flat false c) → Ready asFun inFun t
  | eta {asFun inFun : Bool} {info : Info} {expr tpt : Tree} : isEtaMarker tpt = true →
      NodeReady asFun (.mk info (.typed expr tpt)) →
      Ready asFun (endsInFun asFun inFun (.mk info (.typed expr tpt))) expr →
      Ready asFun inFun (.mk info (.typed expr tpt))

end ScalaRs.Uncurry
