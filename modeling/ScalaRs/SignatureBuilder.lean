import ScalaRs.ClassSignatures
import ScalaRs.PickleFullNames

/-! # Building the signatures of the classes of a pickle

The types of a pickle refer to entries, and entries to types. A type is read down to a
fixed depth, but what a type parameter, a parameter or a member is declared with is
read anew from depth zero. `ty0` is this reading with less fuel; an action without a
result has run out of it. The full names of symbols are kept in slots of the pickle. -/
namespace ScalaRs.Signatures
open Pickling

namespace pflags

def IMPLICIT : UInt64 := (1 : UInt64) <<< 0
def METHOD : UInt64 := (1 : UInt64) <<< 9
def MODULE : UInt64 := (1 : UInt64) <<< 10
def PARAM : UInt64 := (1 : UInt64) <<< 13
def PACKAGE : UInt64 := (1 : UInt64) <<< 14
def MACRO : UInt64 := (1 : UInt64) <<< 15
def COVARIANT : UInt64 := (1 : UInt64) <<< 16
def BYNAMEPARAM : UInt64 := (1 : UInt64) <<< 16
def CONTRAVARIANT : UInt64 := (1 : UInt64) <<< 17

end pflags

def has (info : SymInfo) (flag : UInt64) : Bool := info.flags &&& flag != 0

/-- The slots for full names, and the names that stay unresolved. -/
structure Builder where
  fullNames : List (Option (Option String))
  unresolved : List String

abbrev BuilderM := StateT Builder Option

def pushUnresolved (message : String) : BuilderM PUnit :=
  modify fun b => { b with unresolved := b.unresolved ++ [message] }

variable (p : Pickle)

def symFullName (id : Idx) : BuilderM (Option String) := fun b =>
  let answer := ({ p with fullNames := b.fullNames } : Pickle).symFullName id
  some (answer.1, { b with fullNames := answer.2.fullNames })

def symInfo (id : Idx) : Option SymInfo := (p.entry id).bind Entry.symInfo

/-! ## What the table is indexed by -/

/-- The symbols of an owner, in entry order. -/
def owned (owner : Idx) : List Idx :=
  p.entries.zipIdx.filterMap fun e =>
    match e.1.symInfo with
    | some info => if info.owner = owner then some (UInt32.ofNat e.2) else none
    | none => none

def annotOf (id : Idx) : Entry → Option AnnotInfo
  | .SymAnnot sym annot => if sym = id then some annot else none
  | _ => none

def annots (id : Idx) : List AnnotInfo := p.entries.filterMap (annotOf id)

def childrenOf (id : Idx) : List Idx :=
  p.entries.flatMap fun e =>
    match e with
    | .Children sym children => if sym = id then children else []
    | _ => []

/-! ## Trees of annotations -/

/-- The tree an entry holds, if it is a `TREE` entry. -/
def treeAt (id : Idx) : Option Tree :=
  match p.entry id with
  | some (.Tree _ tree) => some tree
  | _ => none

def treeTpeAt (id : Idx) : Option Idx :=
  match p.entry id with
  | some (.Tree tpe _) => tpe
  | _ => none

/-- The constant behind `Literal(c)`. -/
def constantAt (id : Idx) : Option Constant :=
  match treeAt p id with
  | some (.Literal c) =>
    match p.entry c with
    | some (.Literal k) => some k
    | _ => none
  | _ => none

/-! ## Deprecation -/

def isDeprecated (a : AnnotInfo) : BuilderM Bool := do
  let tsym :=
    match p.entry a.tpe with
    | some (.TypeRefTpe _ sym _) => sym
    | _ => a.tpe
  let name ← symFullName p tsym
  pure (name == some "scala.deprecated")

/-- The text of an annotation's argument, a constant or a tree of one. -/
def textAt (a : Idx) : String :=
  let c :=
    match p.entry a with
    | some (.Literal c) => some c
    | _ => constantAt p a
  match c with
  | some (.Str n) => (p.name n).getD ""
  | _ => ""

def deprecationOf (annot : AnnotInfo) : Deprecation :=
  let named (key : String) : Option String :=
    (annot.assocs.find? fun kv => p.name kv.1 == some key).map fun kv => textAt p kv.2
  { message := ((named "message").or (annot.args[0]?.map (textAt p))).getD ""
    since := ((named "since").or (annot.args[1]?.map (textAt p))).getD "" }

def deprecation (id : Idx) : BuilderM (Option Deprecation) := do
  let annot ← (annots p id).findM? (isDeprecated p)
  pure (annot.map (deprecationOf p))

/-! ## Macro bindings -/

def MACRO_IMPL_ANNOT : String := "scala.reflect.macros.internal.macroImpl"

/-- The `@macroImpl` annotation of a symbol: its first annotation, if that is one. -/
def macroImplAnnot (id : Idx) : BuilderM (Option AnnotInfo) :=
  match p.entries.findSome? (annotOf id) with
  | none => pure none
  | some annot => do
    let name ← symFullName p annot.tpe
    if name = some MACRO_IMPL_ANNOT then pure (some annot)
    else
      match p.entry annot.tpe with
      | some (.TypeRefTpe _ sym _) => do
        let name ← symFullName p sym
        pure (if name = some MACRO_IMPL_ANNOT then some annot else none)
      | _ => pure none

/-- The tree below the type applications that are around it, if the fuel suffices. -/
def peel : ℕ → Idx → Option (Option Tree)
  | 0, _ => none
  | n + 1, id =>
    match treeAt p id with
    | some (.TypeApply function _) => peel n function
    | tree => some tree

/-- `List(List(-1), List(0))`, as nested applications to `Int` literals. -/
def intListList (id : Idx) : Option (List (List Int32)) :=
  match treeAt p id with
  | some (.Apply _ args) =>
    args.mapM fun clause =>
      match treeAt p clause with
      | some (.Apply _ inner) =>
        inner.mapM fun a =>
          match constantAt p a with
          | some (.Int v) => some ⟨⟨v⟩⟩
          | _ => none
      | _ => none
  | _ => none

/-- The fields read so far. -/
structure Payload where
  className : Option String
  methodName : Option String
  isBundle : Bool
  isBlackbox : Bool
  signature : List (List Int32)

/-- The text of a name that a constant holds. -/
def nameConstant (id : Idx) : Option String :=
  match constantAt p id with
  | some (.Str v) => p.name v
  | _ => none

def booleanConstant (id : Idx) : Option Bool :=
  match constantAt p id with
  | some (.Boolean b) => some b
  | _ => none

/-- Reads the field of this name; `none` declines the whole payload. -/
def payloadNamed (acc : Payload) (rhs : Idx) (key : String) : Option Payload :=
  if key = "className" then
    (nameConstant p rhs).map fun v => { acc with className := some v }
  else if key = "methodName" then
    (nameConstant p rhs).map fun v => { acc with methodName := some v }
  else if key = "isBundle" then
    (booleanConstant p rhs).map fun b => { acc with isBundle := b }
  else if key = "isBlackbox" then
    (booleanConstant p rhs).map fun b => { acc with isBlackbox := b }
  else if key = "signature" then
    (intListList p rhs).map fun s => { acc with signature := s }
  else some acc

def payloadField (acc : Payload) (field : Idx) : Option Payload :=
  match treeAt p field with
  | some (.Assign lhs rhs) =>
    match constantAt p lhs with
    | some (.Str n) =>
      match p.name n with
      | some key => payloadNamed p acc rhs key
      | none => none
    | _ => some acc
  | _ => some acc

/-- The binding that `macro(name = value, ...)` stands for, its type arguments apart. -/
def payload : Option Tree → Option MacroImpl
  | some (.Apply _ fields) => do
    let acc ← fields.foldlM (payloadField p) ⟨none, none, false, true, []⟩
    let className ← acc.className
    let methodName ← acc.methodName
    some ⟨className, methodName, acc.isBundle, acc.isBlackbox, acc.signature, []⟩
  | _ => none

def macroImplPayload (n : ℕ) (id : Idx) : BuilderM (Option MacroImpl) := do
  match ← macroImplAnnot p id with
  | none => pure none
  | some annot =>
    match annot.args with
    | [] => pure none
    | first :: _ =>
      match peel p n first with
      | none => failure
      | some tree => pure (payload p tree)

/-- The arguments of the type application that a tree is. -/
def targTrees (id : Idx) : List Idx :=
  match treeAt p id with
  | some (.TypeApply _ args) => args
  | _ => []

def macroImplTargTrees (id : Idx) : BuilderM (List Idx) := do
  match ← macroImplAnnot p id with
  | none => pure []
  | some annot =>
    match annot.args with
    | [] => pure []
    | first :: _ => pure (targTrees p first)

def macroImplOf (ty0 : Idx → BuilderM SigType) (n : ℕ) (id : Idx) :
    BuilderM (Option MacroImpl) := do
  match ← macroImplPayload p n id with
  | none => pure none
  | some mi =>
    let trees ← macroImplTargTrees p id
    let targs ← trees.mapM fun t =>
      match treeTpeAt p t with
      | some tpe => ty0 tpe
      | none => pure SigType.None
    pure (some { mi with targs := targs })

/-! ## Members and parameters -/

def tparam (ty0 : Idx → BuilderM SigType) (id : Idx) : BuilderM TParam := do
  let info := symInfo p id
  let name := (info.bind fun i => p.name i.name).getD "?"
  let flags := (info.map fun i => i.flags).getD 0
  let variance : Int8 :=
    if flags &&& pflags.COVARIANT != 0 then 1
    else if flags &&& pflags.CONTRAVARIANT != 0 then -1
    else 0
  let bounds ←
    match info with
    | some i => ty0 i.info
    | none => pure SigType.None
  pure ⟨name, bounds, variance⟩

def param (ty0 : Idx → BuilderM SigType) (id : Idx) : BuilderM Param := do
  let info := symInfo p id
  let name := (info.bind fun i => p.name i.name).getD "_"
  match info with
  | some i =>
    let ty ← ty0 i.info
    pure ⟨name, ty, has i pflags.BYNAMEPARAM, i.flags⟩
  | none => pure ⟨name, SigType.None, false, 0⟩

def memberKind (info : SymInfo) : Entry → Option MemberKind
  | .ValSym _ _ => some (if has info pflags.METHOD then .Def else .Val)
  | .TypeSym _ => some .AbstractType
  | .AliasSym _ => some .TypeAlias
  | .ModuleSym _ _ => some .Module
  | .ClassSym _ _ => some (if has info pflags.MODULE then .Module else .Class)
  | _ => none

/-- What a member needs to be one. A class's own type parameters are owned by it but
are not members. -/
def memberHead (id : Idx) : Option (SymInfo × MemberKind × String) := do
  let e ← p.entry id
  let info ← e.symInfo
  let kind ← memberKind info e
  if has info pflags.PARAM then none
  else
    let name ← p.name info.name
    some (info, kind, name)

def privateWithin (info : SymInfo) : Option String :=
  (info.privateWithin.bind p.symName).filter fun n =>
    !n.isEmpty && n != "<root>" && n != "<empty>"

/-- The prefix of the reference that a declared type ends in, not searched for below
that many layers. -/
def referencePrefix : ℕ → Idx → Option Idx
  | 0, _ => none
  | n + 1, rhs =>
    match p.entry rhs with
    | some (.PolyTpe result _) => referencePrefix n result
    | some (.MethodTpe result _) => referencePrefix n result
    | some (.ImplicitMethodTpe result _) => referencePrefix n result
    | some (.AnnotatedTpe tpe _) => referencePrefix n tpe
    | some (.TypeRefTpe pre _ _) => some pre
    | _ => none

def readReference (ty0 : Idx → BuilderM SigType) (info : SymInfo) : BuilderM (Option SigType) :=
  match referencePrefix p 64 info.info with
  | some pre => do
    let t ← ty0 pre
    pure (some t)
  | none => pure none

def readMacroImpl (ty0 : Idx → BuilderM SigType) (n : ℕ) (id : Idx) (info : SymInfo) :
    BuilderM (Option MacroImpl) :=
  if has info pflags.MACRO then macroImplOf p ty0 n id else pure none

def member (ty0 : Idx → BuilderM SigType) (n : ℕ) (id : Idx) : BuilderM (Option Member) :=
  match memberHead p id with
  | none => pure none
  | some (info, kind, name) => do
    let reference ← readReference p ty0 info
    let ty ← ty0 info.info
    let macroImpl ← readMacroImpl p ty0 n id info
    let deprecated ← deprecation p id
    pure (some {
      name := name
      kind := kind
      flags := info.flags
      ty := ty
      aliasPrefix := if kind = .TypeAlias then reference else none
      resultPrefix := if kind = .Val ∨ kind = .Def then reference else none
      macroImpl := macroImpl
      privateWithin := privateWithin p info
      hasPrivateWithin := info.privateWithin.isSome
      deprecated := deprecated })

def membersOf (ty0 : Idx → BuilderM SigType) (n : ℕ) (owner : Idx) : BuilderM (List Member) := do
  let members ← (owned p owner).mapM (member p ty0 n)
  pure members.reduceOption

/-! ## Types -/

/-- The name that a reference carries. -/
def symRefName (sym : Idx) : BuilderM String :=
  match p.entry sym with
  | some (.TypeSym i) => pure ((p.name i.name).getD "?")
  | _ =>
    if (p.symName sym).any Pickle.isRootName then pure ((p.symName sym).getD "?")
    else do
      let name ← symFullName p sym
      match name.filter fun n => !n.isEmpty with
      | some n => pure n
      | none => do
        let n := (p.symName sym).getD "?"
        pushUnresolved n
        pure n

/-- `static_module_owner` from the depth at which `fuel` more owners are allowed. -/
def staticModuleOwner : ℕ → Idx → Bool
  | 0, _ => false
  | fuel + 1, id =>
    match p.entry id with
    | none => false
    | some (.ExtModClassRef _ _) => true
    | some e =>
      match e.symInfo with
      | some info =>
        has info pflags.PACKAGE || (has info pflags.MODULE && staticModuleOwner fuel info.owner)
      | none => false

def isModuleSym (sym : Idx) : Bool :=
  match p.entry sym with
  | some (.ExtRef _ _) => true
  | some (.ExtModClassRef _ _) => true
  | _ => (symInfo p sym).any fun info => has info pflags.MODULE || has info pflags.PACKAGE

def staticSingletonPrefix : ℕ → Idx → Bool
  | 0, _ => false
  | fuel + 1, id =>
    match p.entry id with
    | some (.ThisTpe owner) => staticModuleOwner p fuel owner
    | some (.SingleTpe pre sym) => isModuleSym p sym && staticSingletonPrefix fuel pre
    | _ => false

/-- Only a module's this type supplies a stable receiver. -/
def isModuleThis (pre : Idx) : Bool :=
  match p.entry pre with
  | some (.ThisTpe id) =>
    (symInfo p id).any fun i => has i pflags.MODULE && !has i pflags.PACKAGE
  | _ => false

/-- A type selected from a value parameter carries the parameter's full name. -/
def parameterPath (pre : Idx) : BuilderM (Option String) :=
  match p.entry pre with
  | some (.SingleTpe _ sym) =>
    if (symInfo p sym).any fun i => has i pflags.PARAM then symFullName p sym else pure none
  | _ => pure none

/-- A member's name, with what has to be kept of the prefix it is selected from. -/
def selectedName (pre : Idx) (path : Option String) (preTy : SigType) (name : String) : String :=
  match path, preTy with
  | some path, _ => path ++ "#" ++ name
  | none, .This module =>
    if staticSingletonPrefix p 65 pre && isModuleThis p pre then module ++ ".type#" ++ name
    else name
  | none, .Single _ module =>
    if staticSingletonPrefix p 65 pre then module ++ ".type#" ++ name else name
  | none, .Ref sym args =>
    if args.isEmpty && !sym.contains '.' && !sym.contains '#' && sym != name then
      sym ++ "#" ++ name
    else name
  | none, _ => name

variable (debug : Entry → String)

def constantTpe (id c : Idx) : BuilderM SigType :=
  match p.entry c with
  | some (.Literal (.Str name)) =>
    match p.name name with
    | some value => pure (.StringConstant value)
    | none => do
      pushUnresolved ("String constant #" ++ toString id.toNat ++ " has no name payload")
      pure .None
  | some (.Literal k) => pure (.Constant k)
  | _ => do
    pushUnresolved ("CONSTANTtpe #" ++ toString id.toNat ++ " does not point at a literal")
    pure .None

/-- `ty` from the depth at which this many layers are left. -/
def tyAt (ty0 : Idx → BuilderM SigType) (n : ℕ) : ℕ → Idx → BuilderM SigType
  | 0, _ => pure .None
  | d + 1, id =>
    match p.entry id with
    | none => pure .None
    | some .NoTpe => pure .None
    | some .NoPrefixTpe => pure .None
    | some (.ThisTpe s) => do
      let cls ← symRefName p s
      pure (.This cls)
    | some (.SingleTpe pre sym) => do
      let pre ← tyAt ty0 n d pre
      let sym ← symRefName p sym
      pure (.Single pre sym)
    | some (.SuperTpe thisTpe superTpe) => do
      let thisTpe ← tyAt ty0 n d thisTpe
      let superTpe ← tyAt ty0 n d superTpe
      pure (.Super thisTpe superTpe)
    | some (.ConstantTpe c) => constantTpe p id c
    | some (.TypeRefTpe pre sym args) => do
      let name ← symRefName p sym
      let preTy ← tyAt ty0 n d pre
      let path ← parameterPath p pre
      let args ← args.mapM (tyAt ty0 n d)
      pure (.Ref (selectedName p pre path preTy name) args)
    | some (.TypeBoundsTpe lo hi) => do
      let lo ← tyAt ty0 n d lo
      let hi ← tyAt ty0 n d hi
      pure (.Bounds lo hi)
    | some (.RefinedTpe sym parents) => do
      let decls ← membersOf p ty0 n sym
      let parents ← parents.mapM (tyAt ty0 n d)
      pure (.Refined parents decls)
    | some (.ClassInfoTpe _ parents) => do
      let parents ← parents.mapM (tyAt ty0 n d)
      pure (.Refined parents [])
    | some (.MethodTpe result params) => do
      let isImplicit :=
        (params.head?.bind (symInfo p)).any fun i => has i pflags.IMPLICIT
      let params ← params.mapM (param p ty0)
      let result ← tyAt ty0 n d result
      pure (.Method params isImplicit result)
    | some (.ImplicitMethodTpe result params) => do
      let params ← params.mapM (param p ty0)
      let result ← tyAt ty0 n d result
      pure (.Method params true result)
    | some (.PolyTpe result tparams) => do
      let tparams ← tparams.mapM (tparam p ty0)
      let result ← tyAt ty0 n d result
      pure (.Poly tparams result)
    | some (.ExistentialTpe result quantified) => do
      let quantified ← quantified.mapM (tparam p ty0)
      let result ← tyAt ty0 n d result
      pure (.Existential quantified result)
    | some (.AnnotatedTpe tpe _) => do
      let tpe ← tyAt ty0 n d tpe
      pure (.Annotated tpe)
    | some other => do
      pushUnresolved ("entry #" ++ toString id.toNat ++ " is not a type: " ++ debug other)
      pure .None

/-- `ty(id, 0)`, with fuel for the types that are read anew. -/
def ty : ℕ → Idx → BuilderM SigType
  | 0, _ => failure
  | n + 1, id => tyAt p debug (ty n) n 65 id

/-! ## Classes -/

def classInfo : ℕ → Idx → BuilderM (List TParam × List SigType)
  | 0, _ => failure
  | n + 1, info =>
    match p.entry info with
    | some (.PolyTpe result tparams) => do
      let tps ← tparams.mapM (tparam p (ty p debug n))
      let below ← classInfo n result
      pure (tps, below.2)
    | some (.ClassInfoTpe _ parents) => do
      let parents ← parents.mapM (ty p debug n)
      pure ([], parents)
    | _ => pure ([], [])

/-- The classes and module classes, `<refinement>` classes left out. -/
def classes : List (Idx × SymInfo) :=
  p.entries.zipIdx.filterMap fun e =>
    match e.1 with
    | .ClassSym info _ =>
      if p.name info.name = some "<refinement>" then none else some (UInt32.ofNat e.2, info)
    | _ => none

def isModuleEntry : Entry → Bool
  | .ClassSym info _ => has info pflags.MODULE
  | .ModuleSym _ _ => true
  | .ExtModClassRef _ _ => true
  | _ => false

def child (c : Idx) : BuilderM (Option (String × Bool)) :=
  match p.entry c with
  | none => pure none
  | some e => do
    let name ← symFullName p c
    pure (name.map fun name => (name, isModuleEntry e))

def classSig (n : ℕ) (cls : Idx × SymInfo) : BuilderM ClassSig := do
  modify fun b => { b with unresolved := [] }
  let info ← classInfo p debug n cls.2.info
  let members ← membersOf p (ty p debug n) n cls.1
  let deprecated ← deprecation p cls.1
  let kids ← (childrenOf p cls.1).mapM (child p)
  let name ← symFullName p cls.1
  let b ← get
  pure {
    fullName := name.getD ""
    isModule := has cls.2 pflags.MODULE
    declaringOwnerIsModule := (p.entry cls.2.owner).any isModuleEntry
    flags := cls.2.flags
    tparams := info.1
    parents := info.2
    members := members
    unresolved := b.unresolved
    deprecated := deprecated
    children := kids.reduceOption }

/-- Every class and module class in a pickle, in entry order. -/
def classSigs (n : ℕ) : Option (List ClassSig) :=
  (((classes p).mapM (classSig p debug n)).run ⟨p.fullNames, []⟩).map Prod.fst

end ScalaRs.Signatures
