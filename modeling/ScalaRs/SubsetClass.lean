import ScalaRs.NameTransformer
import ScalaRs.QueryPrograms
import ScalaRs.SubsetUnpickler
import ScalaRs.WhileLoops

/-! # The class of a subset pickle

What `unpickle` makes of the entries it has read. Walks over types and owners carry a
depth; `left` counts the levels down to which they may still go. Two walks have no
bound: along the names of references, and along the clauses of a method. They are
asked as queries here, so that all other functions are total. -/
namespace ScalaRs.Pickling.Subset

open QueryPrograms WhileLoops

inductive PickledType where
  | mk (name : String) (args : List PickledType) (singleton : Bool)
      (singletonSym singletonPrefix : Option String)

def PickledType.name : PickledType → String
  | mk name _ _ _ _ => name

def PickledType.simple (name : String) : PickledType := mk name [] false none none

def PickledType.intersection (parents : List PickledType) : PickledType :=
  mk "&" parents false none none

inductive PickledTypeParam where
  | mk (name : String) (tparams : List PickledTypeParam)

structure PickledMethod where
  name : String
  paramNames : List String
  paramTypes : List PickledType
  clauseSizes : List ℕ
  paramFlags : List UInt64
  ret : PickledType
  tparams : List PickledTypeParam
  isVal : Bool
  isCtor : Bool
  isImplicit : Bool
  isDeferred : Bool
  isMutable : Bool

structure PickledTypeMember where
  name : String
  lowerBound : PickledType
  upperBound : PickledType
  aliasOf : Option PickledType
  tparams : List PickledTypeParam

structure PickledClass where
  name : String
  isModule : Bool
  tparams : List PickledTypeParam
  methods : List PickledMethod
  typeMembers : List PickledTypeMember
  extendsAnyval : Bool

/-! ## The walks without a bound -/

/-- The clauses of a method so far: their sizes, their parameters and the result. -/
structure Clauses where
  sizes : List ℕ
  params : List Idx
  ret : Idx

inductive Query where
  | name (i : Idx)
  | clauses (start : Clauses)

def Query.Answer : Query → Type
  | name _ => String
  | clauses _ => Clauses

abbrev Walk := Program Query Query.Answer

section Entries

variable (entries : List Entry)

/-- `name_of`, which calls itself last. -/
def nameBody (i : Idx) : Option (Step String Idx) :=
  match entries[i.toNat]? with
  | some (.TermName s) | some (.TypeName s) => some (.done s)
  | some (.ExtRef name _) => some (.next name)
  | some (.TypeSym name _ _ _) | some (.ClassSym name _ _ _) | some (.ModuleSym name _ _)
  | some (.ValSym name _ _ _) => some (.next name)
  | _ => some (.done "")

/-- The loop that joins the clauses of a method. -/
def clauseBody (c : Clauses) : Option (Step Clauses Clauses) :=
  match entries[c.ret.toNat]? with
  | some (.MethodTpe next params) =>
    some (.next ⟨c.sizes ++ [params.length], c.params ++ params, next⟩)
  | _ => some (.done c)

def answer (fuel : ℕ) : (q : Query) → Option q.Answer
  | .name i => run (nameBody entries) fuel i
  | .clauses c => run (clauseBody entries) fuel c

def nameOf (i : Idx) : Walk String := Program.query (Query.name i)

def flatten (c : Clauses) : Walk Clauses := Program.query (Query.clauses c)

/-! ## Names of owners -/

def decode (s : String) : String := String.ofList (NameTransformer.decodeMethodName s.toList)

def nameAndOwner : Option Entry → Option (Idx × Option Idx)
  | some (.ExtRef name owner) => some (name, owner)
  | some (.TypeSym name owner _ _) | some (.ClassSym name owner _ _)
  | some (.ModuleSym name owner _) | some (.ValSym name owner _ _) => some (name, some owner)
  | _ => none

def singletonSymbolName : ℕ → Idx → Walk (Option String)
  | 0, _ => return none
  | left + 1, i =>
    match nameAndOwner entries[i.toNat]? with
    | none => return none
    | some (name, owner) => do
      let leaf := decode (← nameOf name)
      if leaf.isEmpty then return none
      if leaf = "<empty>" ∨ leaf = "<root>" then return some ""
      match owner with
      | none => return some leaf
      | some owner => do
        let above ← singletonSymbolName left owner
        match above with
        | some above => return some (if above.isEmpty then leaf else above ++ "." ++ leaf)
        | none => return some leaf

def singletonPath : ℕ → Idx → Walk (Option String)
  | 0, _ => return none
  | left + 1, i =>
    match entries[i.toNat]? with
    | some (.ThisTpe sym) => singletonSymbolName entries left sym
    | some (.SingleTpe pre sym) => do
      let path ← singletonPath left pre
      let leaf := decode (← nameOf sym)
      if leaf.isEmpty then return path
      match path with
      | some path =>
        if path.isEmpty then singletonSymbolName entries left sym
        else return some (path ++ "." ++ leaf)
      | none => singletonSymbolName entries left sym
    | some (.TypeRef _ sym _) => singletonSymbolName entries left sym
    | some (.ExtRef _ _) => singletonSymbolName entries left i
    | some .NoTpe => return some ""
    | _ => return none

def externalName : ℕ → Idx → Option Idx → Walk String
  | 0, name, _ => nameOf name
  | left + 1, name, owner => do
    let leaf ← nameOf name
    match owner with
    | none => return leaf
    | some owner =>
      match entries[owner.toNat]? with
      | some (.ExtRef ownerName ownerOwner) => do
        let above ← externalName left ownerName ownerOwner
        return if above.isEmpty ∨ above = "<empty>" ∨ above = "<root>" then leaf
          else above ++ "." ++ leaf
      | _ => return leaf

def externalTypeName (left : ℕ) (name : Idx) (owner : Option Idx) : Walk String := do
  let qualified ← externalName entries left name owner
  if "scala.".isPrefixOf qualified ∨ "java.".isPrefixOf qualified ∨
      "javax.".isPrefixOf qualified then nameOf name
  else return qualified

def isExistentialName (n : String) : Bool := "_$".isPrefixOf n

/-! ## Types -/

/-- The levels of a walk that starts at depth `0`. -/
def MAX_TYPE_DEPTH : ℕ := 12

def typeOf : ℕ → Idx → Walk PickledType
  | 0, _ => return .simple "Any"
  | left + 1, i =>
    match entries[i.toNat]? with
    | some (.TypeRef _ sym args) => do
      let n ← match entries[sym.toNat]? with
        | some (.ExtRef name owner) => externalTypeName entries left name owner
        | _ => nameOf sym
      if n.isEmpty then typeOf left sym
      else if isExistentialName n then return .simple "_"
      else return .mk n (← args.mapM fun a => typeOf left a) false none none
    | some (.ExtRef name owner) => return .simple (← externalTypeName entries left name owner)
    | some (.TermName s) | some (.TypeName s) => return .simple s
    | some .NoTpe => return .simple "Any"
    | some (.Existential t) => typeOf left t
    | some (.ThisTpe s) =>
      match entries[s.toNat]? with
      | some (.ClassSym name _ _ _) | some (.ModuleSym name _ _) => return .simple (← nameOf name)
      | _ => return .simple "Any"
    | some (.AnnotatedTpe t) => typeOf left t
    | some (.SingleTpe pre sym) =>
      return .mk (← nameOf sym) [] true
        (← singletonSymbolName entries (MAX_TYPE_DEPTH + 1) sym)
        (← singletonPath entries (MAX_TYPE_DEPTH + 1) pre)
    | some (.ConstantTpe c) => typeOf left c
    | some (.RefinedTpe parents) => return .intersection (← parents.mapM fun p => typeOf left p)
    | some (.LiteralTy s) => return .simple s
    | _ => return .simple "Any"

def typeAt (i : Idx) : Walk PickledType := typeOf entries (MAX_TYPE_DEPTH + 1) i

/-- `left` counts down from `4`. -/
def tparamOf : ℕ → Idx → Walk PickledTypeParam
  | 0, i => return .mk (← nameOf i) []
  | left + 1, i => do
    let name ← nameOf i
    match entries[i.toNat]? with
    | some (.TypeSym _ _ info _) =>
      match entries[info.toNat]? with
      | some (.PolyTpe tps _) => return .mk name (← tps.mapM fun t => tparamOf left t)
      | _ => return .mk name []
    | _ => return .mk name []

def peelInfo (info : Idx) : Walk (List PickledTypeParam × Idx) :=
  match entries[info.toNat]? with
  | some (.PolyTpe tparams rest) => return (← tparams.mapM fun t => tparamOf entries 4 t, rest)
  | _ => return ([], info)

/-! ## Members -/

def typeMember (ci : Idx) : Entry → Walk (Option PickledTypeMember)
  | .TypeSym name owner info isAlias => do
    if owner ≠ ci then return none
    let name := decode (← nameOf name)
    if name.isEmpty then return none
    let (tparams, rest) ← peelInfo entries info
    if isAlias then
      return some ⟨name, .simple "Nothing", .simple "Any", some (← typeAt entries rest), tparams⟩
    match entries[rest.toNat]? with
    | some (.TypeBounds lo hi) =>
      return some ⟨name, ← typeAt entries lo, ← typeAt entries hi, none, tparams⟩
    | _ => return some ⟨name, .simple "Nothing", .simple "Any", none, tparams⟩
  | _ => return none

/-- Names, types and flags of the parameters, from those before. -/
def readParams (names : List String) (types : List PickledType) (flags : List UInt64) :
    List Idx → Walk (List String × List PickledType × List UInt64)
  | [] => return (names, types, flags)
  | p :: params =>
    match entries[p.toNat]? with
    | some (.ValSym pn _ pt pf) => do
      let name := decode (← nameOf pn)
      let ty ← typeAt entries pt
      readParams (names ++ [name]) (types ++ [ty]) (flags ++ [pf]) params
    | _ => do
      let ty ← typeAt entries p
      readParams (names ++ ["x$" ++ toString names.length]) (types ++ [ty]) (flags ++ [0]) params

def hasFlag (flags : UInt64) (bit : UInt64) : Bool := flags &&& (1 <<< bit) ≠ 0

def method (ci : Idx) : Entry → Walk (Option PickledMethod)
  | .ValSym name owner info flags => do
    if owner ≠ ci then return none
    if hasFlag flags 15 then return none
    -- a field of a case class: a parameter accessor that is no method
    if ¬ hasFlag flags 9 ∧ hasFlag flags 29 then return none
    let mname := decode (← nameOf name)
    if mname.isEmpty then return none
    let (tparams, rest) ← peelInfo entries info
    let isAccessor := hasFlag flags 27
    match entries[rest.toNat]? with
    | some (.MethodTpe firstRet firstParams) => do
      let c ← flatten ⟨[firstParams.length], firstParams, firstRet⟩
      let (paramNames, paramTypes, paramFlags) ← readParams entries [] [] [] c.params
      let ret ← typeAt entries c.ret
      return some {
        name := mname, paramNames, paramTypes, clauseSizes := c.sizes, paramFlags, ret, tparams,
        isVal := isAccessor, isCtor := mname = "<init>", isImplicit := hasFlag flags 0,
        isDeferred := hasFlag flags 8, isMutable := isAccessor && !hasFlag flags 22 }
    | _ => do
      let ret ← typeAt entries rest
      return some {
        name := mname, paramNames := [], paramTypes := [], clauseSizes := [], paramFlags := [], ret,
        tparams, isVal := isAccessor, isCtor := false, isImplicit := hasFlag flags 0,
        isDeferred := hasFlag flags 8, isMutable := isAccessor && !hasFlag flags 22 }
  | _ => return none

/-- `any`, which stops at the first parent of that name. -/
def anyParent : List Idx → Walk Bool
  | [] => return false
  | p :: parents => do
    let ty ← typeAt entries p
    if ty.name = "AnyVal" then return true else anyParent parents

def extendsAnyval (info : Idx) : Walk Bool :=
  match entries[info.toNat]? with
  | some (.ClassInfo parents) => anyParent entries parents
  | _ => return false

/-- The first class or module: its name, its information and whether it is a module. -/
def classParts : Entry → Option (Idx × Idx × Bool)
  | .ClassSym name _ info flags => some (name, info, hasFlag flags 10)
  | .ModuleSym name _ info => some (name, info, true)
  | _ => none

/-- What `unpickle` makes of its entries. -/
def readClass : Walk (Option PickledClass) :=
  match entries.findIdx? fun e => (classParts e).isSome with
  | none => return none
  | some ci =>
    match entries[ci]? >>= classParts with
    | none => return none
    | some (name, info, isModule) => do
      let className ← nameOf name
      if className.isEmpty then return none
      let (tparams, body) ← peelInfo entries info
      let extendsAnyval ← extendsAnyval entries body
      let typeMembers ← entries.filterMapM (typeMember entries (UInt32.ofNat ci))
      let methods ← entries.filterMapM (method entries (UInt32.ofNat ci))
      return some ⟨className, isModule, tparams, methods, typeMembers, extendsAnyval⟩

end Entries

/-- `unpickle`, where both walks without a bound have `fuel` for each of them. -/
def unpickle (fuel : ℕ) (bytes : List UInt8) : Option (Option PickledClass) :=
  match unpickleEntries bytes with
  | none => some none
  | some entries => (readClass entries).run (answer entries fuel)

end ScalaRs.Pickling.Subset
