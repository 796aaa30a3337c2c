import ScalaRs.CompilerTrees

/-! # The uncurry pass

Nested parameter lists become one list, nested applications become one application, and a method
type that is left on a value becomes a function. -/
namespace ScalaRs.Uncurry
open CompilerTrees
open Unification (Ty SymbolId)

/-! ## The symbol table -/

inductive SymKind
  | noSymbol | package | classSym | module | moduleClass | method | term | typeParam | typeMember
  deriving DecidableEq

/-- What the pass reads and writes of a symbol. -/
structure Symbol where
  name : String
  owner : SymbolId
  kind : SymKind
  /-- `Flags::PARAM` -/
  isParam : Bool
  ty : Ty
  params : List SymbolId
  paramss : List (List SymbolId)
  pickleClauses : List ℕ

instance : Inhabited Symbol := ⟨⟨"", noSymbol, .noSymbol, false, .noType, [], [], []⟩⟩

structure SymbolTable where
  symbols : List Symbol
  owner : SymbolId
  flattenedUpto : ℕ
  findByJvm : String → Option SymbolId

def SymbolTable.get (st : SymbolTable) (id : SymbolId) : Symbol := st.symbols[id]?.getD default

/-- `*st.get_mut(id)`, changed by a function. -/
def SymbolTable.update (st : SymbolTable) (id : SymbolId) (f : Symbol → Symbol) : SymbolTable :=
  { st with symbols := st.symbols.modify id f }

def SymbolTable.alloc (st : SymbolTable) (name : String) (owner : SymbolId) (kind : SymKind)
    (isParam : Bool) : SymbolId × SymbolTable :=
  (st.symbols.length,
    { st with symbols := st.symbols ++ [⟨name, owner, kind, isParam, .noType, [], [], []⟩] })

/-- `Uncurry`: the symbol table, and the number of names made so far. -/
structure State where
  st : SymbolTable
  gensym : ℕ

abbrev Pass := StateM State

/-! ## Eta-expansion -/

def isEtaMarker (tpt : Tree) : Bool :=
  match tpt.kind with
  | .function [] (.mk _ .empty) => true
  | _ => false

def etaFnParam (st : SymbolTable) (pty : Ty) : Ty :=
  match pty with
  | .repeated elem =>
      match st.findByJvm "scala/collection/immutable/Seq" with
      | some seq => .cls seq [elem]
      | none => pty
  | other => other

/-- One parameter of the function and the argument that refers to it. -/
def etaParam (span : Lexing.Span) (pty : Ty) : Pass (Tree × Tree) := do
  let s ← get
  let gensym := s.gensym + 1
  let name := "x$eta$" ++ toString gensym
  let (id, st) := s.st.alloc name s.st.owner .term true
  set (State.mk (st.update id fun symbol => { symbol with ty := pty }) gensym)
  let info := { Info.dummy with span := span, sym := id, ty := pty }
  return (.mk info (.valDef name (.dummy .empty) (.dummy .empty)), .mk info (.ident name))

def etaExpand (tree : Tree) (params : List Ty) (ret : Ty) : Pass Tree := do
  let span := tree.info.span
  let pairs ← params.mapM (etaParam span)
  let call := Tree.mk ⟨tree.info.id, span, ret, tree.sym, false, false⟩
    (.apply tree (pairs.map Prod.snd))
  let s ← get
  let ty := Ty.function (params.map (etaFnParam s.st)) ret
  return .mk ⟨tree.info.id, span, ty, noSymbol, false, false⟩
    (.function (pairs.map Prod.fst) call)

def isFunction (t : Tree) : Bool :=
  match t.kind with
  | .function _ _ => true
  | _ => false

def etaIfMethod (tree : Tree) : Pass Tree :=
  if isFunction tree then return tree
  else
    match tree.ty with
    | .method paramss ret => etaExpand tree paramss.flatten ret
    | _ => return tree

/-! ## Applications -/

def peelNew : Tree → Tree
  | .mk _ (.typeApply func _) => peelNew func
  | .mk _ (.typed expr _) => peelNew expr
  | tree => tree

def isNew (t : Tree) : Bool :=
  match t.kind with
  | .new _ => true
  | _ => false

def isApply (t : Tree) : Bool :=
  match t.kind with
  | .apply _ _ => true
  | _ => false

def isFunctionTy : Ty → Bool
  | .function _ _ => true
  | _ => false

/-- The loop of `flatten_apply` on an application of `func` to `args`. -/
def flattenApplication (info : Info) : Tree → List Tree → Tree
  | .mk finfo (.apply inner ia), args =>
      let func := Tree.mk finfo (.apply inner ia)
      if isNew (peelNew func) then .mk info (.apply func args)
      else if isFunctionTy finfo.ty then .mk info (.apply func args)
      else
        flattenApplication { info with stablePat := false, bynameThunk := false } inner (ia ++ args)
  | func, args => .mk info (.apply func args)

def flattenApply (tree : Tree) : Tree :=
  match tree with
  | .mk info (.apply func args) => flattenApplication info func args
  | tree => tree

/-! ## Definitions -/

def flattenTy : Ty → Ty
  | .method paramss ret =>
      if paramss.length > 1 then .method [paramss.flatten] ret else .method paramss ret
  | ty => ty

/-- The number of parameters in each clause, which are recorded before the clauses are joined. -/
def clauseArities (symbol : Symbol) : List ℕ :=
  match symbol.ty with
  | .method paramss _ =>
      if paramss.length > 1 then paramss.map List.length
      else if symbol.paramss.length > 1 then symbol.paramss.map List.length else []
  | _ => if symbol.paramss.length > 1 then symbol.paramss.map List.length else []

def flattenSymbol (symbol : Symbol) : Symbol :=
  let symbol :=
    if symbol.pickleClauses.isEmpty then { symbol with pickleClauses := clauseArities symbol }
    else symbol
  let symbol :=
    if symbol.paramss.length > 1 then
      { symbol with params := symbol.paramss.flatten, paramss := [symbol.paramss.flatten] }
    else symbol
  { symbol with ty := flattenTy symbol.ty }

def flattenOneMethod (st : SymbolTable) (id : SymbolId) : SymbolTable := st.update id flattenSymbol

def flattenDefdef (tree : Tree) : Pass Tree := do
  match tree with
  | .mk info (.defDef name tparams vparamss tpt rhs) =>
      if vparamss.length ≤ 1 then return tree
      else do
        let ty := flattenTy info.ty
        if info.sym ≠ noSymbol then
          modify fun s => { s with
            st := (flattenOneMethod s.st info.sym).update info.sym fun symbol =>
              { symbol with ty := ty } }
        return .mk { info with ty := ty } (.defDef name tparams [vparamss.flatten] tpt rhs)
  | tree => return tree

/-- Flatten the method symbols that were not there at the last call. -/
def flattenMethodSymbols (st : SymbolTable) : SymbolTable :=
  let n := st.symbols.length
  let st := (List.range' (max st.flattenedUpto 1) (n - max st.flattenedUpto 1)).foldl
    (fun st id => if (st.get id).kind = .method then flattenOneMethod st id else st) st
  { st with flattenedUpto := n }

/-! ## The walk -/

def isEmpty (t : Tree) : Bool :=
  match t.kind with
  | .empty => true
  | _ => false

/-- What is done with a tree after the trees below it. Before, it had an eta marker or not. -/
def finish (asFun eta : Bool) (tree : Tree) : Pass Tree :=
  match tree.kind with
  | .defDef _ _ _ _ _ => flattenDefdef tree
  | .apply _ _ => if asFun then return flattenApply tree else etaIfMethod (flattenApply tree)
  | .typed expr _ =>
      if eta then etaIfMethod (.mk { expr.info with ty := tree.ty, sym := tree.sym } expr.kind)
      else if asFun then return tree else etaIfMethod tree
  | .typeApply _ _ | .select _ _ | .ident _ => if asFun then return tree else etaIfMethod tree
  | _ => return tree

def hasEtaMarker : TreeKind Tree → Bool
  | .typed _ tpt => isEtaMarker tpt
  | _ => false

mutual

/-- `walk`, where a tree that is applied is in function position. -/
def walk (asFun : Bool) : Tree → Pass Tree
  | .mk info kind => do
      let kind' ← walkKind asFun kind
      finish asFun (hasEtaMarker kind) (.mk info kind')

def walkKind (asFun : Bool) : TreeKind Tree → Pass (TreeKind Tree)
  | .packageDef pid stats => do
      let stats ← walkTrees stats
      return .packageDef pid stats
  | .classDef name tparams vparamss impl => do
      let tparams ← walkTrees tparams
      let vparamss ← walkClauses vparamss
      let impl ← walkTemplate impl
      return .classDef name tparams vparamss impl
  | .moduleDef name impl => do
      let impl ← walkTemplate impl
      return .moduleDef name impl
  | .valDef name tpt rhs => do
      let tpt ← walk false tpt
      let rhs ← walk false rhs
      return .valDef name tpt rhs
  | .defDef name tparams vparamss tpt rhs => do
      let tparams ← walkTrees tparams
      let vparamss ← walkClauses vparamss
      let tpt ← walk false tpt
      let rhs ← walk false rhs
      return .defDef name tparams vparamss tpt rhs
  | .typeDef name tparams rhs lo hi views ctxBounds => do
      let rhs ← walk false rhs
      return .typeDef name tparams rhs lo hi views ctxBounds
  | .block stats expr => do
      let stats ← walkTrees stats
      let expr ← walk false expr
      return .block stats expr
  | .ifElse cond thenp elsep => do
      let cond ← walk false cond
      let thenp ← walk false thenp
      let elsep ← walk false elsep
      return .ifElse cond thenp elsep
  | .whileLoop cond body => do
      let cond ← walk false cond
      let body ← walk false body
      return .whileLoop cond body
  | .doWhile body cond => do
      let cond ← walk false cond
      let body ← walk false body
      return .doWhile body cond
  | .assign lhs rhs => do
      let lhs ← walk false lhs
      let rhs ← walk false rhs
      return .assign lhs rhs
  | .matchOn selector cases => do
      let selector ← walk false selector
      let cases ← walkCases cases
      return .matchOn selector cases
  | .function vparams body => do
      let vparams ← walkTrees vparams
      let body ← walk false body
      return .function vparams body
  | .apply func args => do
      let func ← walk true func
      let args ← walkTrees args
      return .apply func args
  | .typeApply func args => do
      let args ← walkTrees args
      let func ← walk asFun func
      return .typeApply func args
  | .typed expr tpt => do
      let tpt ← walk false tpt
      let expr ← walk asFun expr
      return .typed expr tpt
  | .select qual name => do
      let qual ← walk false qual
      return .select qual name
  | .new tpt => do
      let tpt ← walk false tpt
      return .new tpt
  | .returnValue expr => do
      let expr ← walk false expr
      return .returnValue expr
  | .throw expr => do
      let expr ← walk false expr
      return .throw expr
  | .tryCatch body catches finalizer => do
      let body ← walk false body
      let catches ← walkCatches catches
      let finalizer ← walk false finalizer
      return .tryCatch body catches finalizer
  | .interpolatedString interpolator parts args => do
      let args ← walkTrees args
      return .interpolatedString interpolator parts args
  | .unApply func args => do
      let func ← walk true func
      let args ← walkTrees args
      return .unApply func args
  | .labelDef name params rhs => do
      let params ← walkTrees params
      let rhs ← walk false rhs
      return .labelDef name params rhs
  | .bind name body => do
      let body ← walk false body
      return .bind name body
  | .star elem => do
      let elem ← walk false elem
      return .star elem
  | .alternative trees => do
      let trees ← walkTrees trees
      return .alternative trees
  | .appliedTypeTree tpt args => do
      let tpt ← walk false tpt
      let args ← walkTrees args
      return .appliedTypeTree tpt args
  | kind => return kind

def walkTrees : List Tree → Pass (List Tree)
  | [] => return []
  | t :: ts => do
      let t ← walk false t
      let ts ← walkTrees ts
      return t :: ts

def walkClauses : List (List Tree) → Pass (List (List Tree))
  | [] => return []
  | ts :: tss => do
      let ts ← walkTrees ts
      let tss ← walkClauses tss
      return ts :: tss

/-- The self type is not walked. -/
def walkTemplate : Template Tree → Pass (Template Tree)
  | ⟨parents, selfName, selfTpt, body⟩ => do
      let parents ← walkTrees parents
      let body ← walkTrees body
      return ⟨parents, selfName, selfTpt, body⟩

def walkCases : List (CaseDef Tree) → Pass (List (CaseDef Tree))
  | [] => return []
  | ⟨pat, guard, body⟩ :: cases => do
      let pat ← walk false pat
      let guard ← (if isEmpty guard then pure guard else walk false guard : Pass Tree)
      let body ← walk false body
      let cases ← walkCases cases
      return ⟨pat, guard, body⟩ :: cases

/-- The guards are not walked. -/
def walkCatches : List (CaseDef Tree) → Pass (List (CaseDef Tree))
  | [] => return []
  | ⟨pat, guard, body⟩ :: cases => do
      let pat ← walk false pat
      let body ← walk false body
      let cases ← walkCatches cases
      return ⟨pat, guard, body⟩ :: cases

end

/-- `uncurry`, with the symbol table. -/
def uncurry (tree : Tree) (st : SymbolTable) : Tree × SymbolTable :=
  let (tree, s) := walk false tree ⟨st, 0⟩
  (tree, flattenMethodSymbols s.st)

end ScalaRs.Uncurry
