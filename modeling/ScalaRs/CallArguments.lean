import ScalaRs.TypedTrees
import ScalaRs.OperandStacks

/-! # The arguments of a call

What is emitted for the arguments of a call: each argument with the coercions that its parameter
asks for, and one sequence or array for a repeated parameter. -/
namespace ScalaRs.CallArguments
open Unification (Ty SymbolId Lit)
open TypedTrees (Tree noSymbol)

/-! ## Types -/

def litUnderlying : Lit → Ty
  | .unit => .unit
  | .boolean _ => .boolean
  | .int _ => .int
  | .long _ => .long
  | .float _ => .float
  | .double _ => .double
  | .char _ => .char
  | .string _ => .string
  | .null => .null
  | .symbol _ => .named "Symbol" []

def widenConstant : Ty → Ty
  | .constant lit => litUnderlying lit
  | t => t

def isUnitLike : Ty → Bool
  | .existential _ body => isUnitLike body
  | .unit | .noType => true
  | _ => false

def erasesToBoxedUnit : Ty → Bool
  | .existential _ body => erasesToBoxedUnit body
  | t =>
    match widenConstant t with
    | .unit | .noType => true
    | _ => false

def isJvmPrimitive (t : Ty) : Bool :=
  match widenConstant t with
  | .int | .long | .double | .boolean | .char | .float | .byte | .short | .unit => true
  | _ => false

def isRepeated : Ty → Bool
  | .repeated _ => true
  | _ => false

def isArray : Ty → Bool
  | .array _ => true
  | _ => false

/-! ## The symbol table -/

inductive Intrinsic
  | none | asInstanceOf | boolAnd | boolOr | other
deriving DecidableEq

structure Symbol where
  name : String
  owner : SymbolId
  kind : TypedTrees.SymKind
  intrinsic : Intrinsic
  /-- `Flags::SYNTHETIC` -/
  synthetic : Bool
  ty : Ty
  params : List SymbolId

/-- The descriptors and the class hierarchy are those of other parts of the compiler. -/
structure SymbolTable where
  get : SymbolId → Symbol
  jvmDesc : Ty → String
  classInternal : SymbolId → String
  findClassByJvm : String → Option SymbolId
  isInterfaceSym : SymbolId → Bool
  /-- The classes of the base type sequence of a class. -/
  baseClasses : SymbolId → List SymbolId
  /-- `param_descs` of `method_desc_from_sym` -/
  paramDescs : SymbolId → List String

/-- What is emitted for an argument, the helpers of one instruction each taken as that
instruction. -/
inductive Step
  /-- `gen_expr` -/
  | genExpr (t : Tree)
  /-- `load` of a reference -/
  | load (slot : ℕ)
  | getstatic (owner name desc : String)
  | checkcast (cls : String)
  | invokestatic (owner name : String) (params : List String) (ret : String)
  | invokevirtual (owner name : String) (params : List String) (ret : String)
  | invokeinterface (owner name : String) (params : List String) (ret : String)
  | iconst (n : ℕ)
  | newarray (atype : ℕ)
  | anewarray (cls : String)
  | dup
  | swap
  | arrayStore (mnemonic : String)
  /-- `emit_num_conv` -/
  | numConv (src target : Char)
  /-- `gen_java_class_of` -/
  | javaClassOf (t : Ty)

structure EmitCtx where
  st : SymbolTable
  boxedVars : SymbolId → Bool
  /-- `abi.is_library()` -/
  isLibrary : Bool
  /-- The slot that `frame.get` finds for a variable. -/
  frame : SymbolId → Option ℕ
  /-- `top_object` once these steps are emitted for the arguments. -/
  topObject : List Step → Option String

/-- What a call says about its arguments. -/
structure Call where
  paramTys : List Ty
  boxPrims : Bool
  javaVarargs : Bool
  method : SymbolId
  unboxTyperBoxes : Bool

/-! ## Questions about trees and classes -/

def peelFun : Tree → Tree
  | .typeApply _ f => peelFun f
  | .typed _ e => peelFun e
  | t => t

def treeName : Tree → Option String
  | .ident _ n | .select _ _ n | .valDef _ n _ => some n
  | _ => none

variable (ctx : EmitCtx)

def fieldLeavesUnitRef (t : Tree) : Bool :=
  if t.sym = noSymbol then false
  else
    let s := ctx.st.get t.sym
    s.kind == .term && ((ctx.st.get s.owner).kind == .cls ||
      (ctx.st.get s.owner).kind == .moduleClass) && s.intrinsic == .none && !isJvmPrimitive s.ty

def symbolErasesUnitToRef (f : Tree) : Bool :=
  if f.sym = noSymbol then false
  else
    let s := ctx.st.get f.sym
    if s.intrinsic = .asInstanceOf then false
    else if (ctx.st.get s.owner).name = "ArrayOps" then true
    else
      match s.ty with
      | .method _ ret | .function _ ret =>
        match ret with
        | .unit | .noType | .nothing => false
        | _ => true
      | .typeParam _ => true
      | _ => false

def methodErasesUnitToRef : Tree → Bool
  | .typeApply _ f => methodErasesUnitToRef f
  | .typed _ e => methodErasesUnitToRef e
  | f => symbolErasesUnitToRef ctx f

def unitLeavesBoxedRef : Tree → Bool
  | .typed _ e => unitLeavesBoxedRef e
  | .typeApply _ f => unitLeavesBoxedRef f
  | .block _ _ e => unitLeavesBoxedRef e
  | .apply _ f _ => treeName (peelFun f) == some "$box" || methodErasesUnitToRef ctx f
  | .select i q n =>
    fieldLeavesUnitRef ctx (.select i q n) || methodErasesUnitToRef ctx (.select i q n)
  | .ident i n => fieldLeavesUnitRef ctx (.ident i n) || methodErasesUnitToRef ctx (.ident i n)
  | _ => false

def isUnitVarargsElem (t : Tree) : Bool :=
  (match widenConstant t.ty with
    | .unit | .noType => true
    | _ => false) ||
  match t with
  | .typed _ e | .block _ _ e => isUnitVarargsElem e
  | .typeApply _ f => isUnitVarargsElem f
  | .apply _ f (a :: _) => treeName (peelFun f) == some "$box" && isUnitVarargsElem a
  | _ => false

def isInterfaceJvm (jvm : String) : Bool :=
  match ctx.st.findClassByJvm jvm with
  | some c => ctx.st.isInterfaceSym c
  | none => true

def jvmAssignable (src target : String) : Bool :=
  if src = target ∨ target = "java/lang/Object" then true
  else
    match ctx.st.findClassByJvm src, ctx.st.findClassByJvm target with
    | some f, some t => f == t || (ctx.st.baseClasses f).contains t
    | _, _ => false

def verifierAcceptsReceiver (src target : String) : Bool :=
  jvmAssignable ctx src target && (isInterfaceJvm ctx target || !isInterfaceJvm ctx src)

/-! ## Boxes and conversions -/

def boxedUnit : String := "scala/runtime/BoxedUnit"

def emitBoxedUnit : List Step :=
  [.getstatic boxedUnit "UNIT" "Lscala/runtime/BoxedUnit;"]

/-- The call that boxes a primitive value. -/
def valueOf (owner desc : String) : List Step :=
  [.invokestatic owner "valueOf" [desc] ("L" ++ owner ++ ";")]

def emitBox (t : Ty) : List Step :=
  match widenConstant t with
  | .int => valueOf "java/lang/Integer" "I"
  | .boolean => valueOf "java/lang/Boolean" "Z"
  | .byte => valueOf "java/lang/Byte" "B"
  | .short => valueOf "java/lang/Short" "S"
  | .long => valueOf "java/lang/Long" "J"
  | .double => valueOf "java/lang/Double" "D"
  | .char => valueOf "java/lang/Character" "C"
  | .float => valueOf "java/lang/Float" "F"
  | .unit | .noType => emitBoxedUnit
  | _ => []

/-- The letter of a primitive type in a descriptor. -/
def primDescChar (t : Ty) : Option Char :=
  match widenConstant t with
  | .boolean => some 'Z'
  | .byte => some 'B'
  | .short => some 'S'
  | .char => some 'C'
  | .int => some 'I'
  | .long => some 'J'
  | .float => some 'F'
  | .double => some 'D'
  | _ => none

def emitPrimQualifierCast (src target : Ty) : List Step :=
  let src := widenConstant src
  if !isJvmPrimitive src || isUnitLike src then []
  else
    match primDescChar src, primDescChar target with
    | some f, some t => if f = t then [] else if f ≠ 'Z' ∧ t ≠ 'Z' then [.numConv f t] else []
    | _, _ => emitBox src

/-- The two calls that unbox a primitive, with and without the library. -/
def unboxTo (library : Bool) (name owner desc : String) : List Step :=
  if library then
    [.invokestatic "scala/runtime/BoxesRunTime" ("unboxTo" ++ name) ["Ljava/lang/Object;"] desc]
  else
    [.checkcast owner, .invokevirtual owner (name.toLower ++ "Value") [] desc]

/-- `emit_unbox` to a primitive type that is not `Unit`. -/
def emitUnbox (t : Ty) : List Step :=
  match widenConstant t with
  | .int => unboxTo ctx.isLibrary "Int" "java/lang/Integer" "I"
  | .boolean => unboxTo ctx.isLibrary "Boolean" "java/lang/Boolean" "Z"
  | .byte => unboxTo ctx.isLibrary "Byte" "java/lang/Byte" "B"
  | .short => unboxTo ctx.isLibrary "Short" "java/lang/Short" "S"
  | .long => unboxTo ctx.isLibrary "Long" "java/lang/Long" "J"
  | .double => unboxTo ctx.isLibrary "Double" "java/lang/Double" "D"
  | .char => unboxTo ctx.isLibrary "Char" "java/lang/Character" "C"
  | .float => unboxTo ctx.isLibrary "Float" "java/lang/Float" "F"
  | _ => []

/-! ## Arrays for a repeated parameter -/

/-- What stands between a first and a last character of a descriptor. -/
def classOfDesc (desc : String) : Option String :=
  match desc.toList with
  | 'L' :: rest => if rest.getLast? = some ';' then some (String.ofList rest.dropLast) else none
  | _ => none

def jvmDescArrayElem (t : Ty) : String :=
  match widenConstant t with
  | .nothing | .null => "Ljava/lang/Object;"
  | .unit | .noType => "Lscala/runtime/BoxedUnit;"
  | _ => ctx.st.jvmDesc t

def emitNewarray (elem : Ty) : Step :=
  match elem with
  | .boolean => .newarray 4
  | .char => .newarray 5
  | .float => .newarray 6
  | .double => .newarray 7
  | .byte => .newarray 8
  | .short => .newarray 9
  | .int => .newarray 10
  | .long => .newarray 11
  | .string => .anewarray "java/lang/String"
  | .cls sym _ | .moduleRef sym => .anewarray (ctx.st.classInternal sym)
  | _ =>
    let desc := jvmDescArrayElem ctx elem
    if desc.toList.head? = some '[' then .anewarray desc
    else .anewarray ((classOfDesc desc).getD "java/lang/Object")

/-- `emit_array_store` into an array of `elem`. -/
def emitArrayStore (elem : Ty) : Step :=
  match widenConstant elem with
  | .int => .arrayStore "iastore"
  | .long => .arrayStore "lastore"
  | .float => .arrayStore "fastore"
  | .double => .arrayStore "dastore"
  | .byte | .boolean => .arrayStore "bastore"
  | .char => .arrayStore "castore"
  | .short => .arrayStore "sastore"
  | _ => .arrayStore "aastore"

/-- The loop that stores each argument in the array on top of the stack. -/
def storeAll (elem : Tree → List Step) (store : Step) : ℕ → List Tree → List Step
  | _, [] => []
  | i, a :: args => [.dup, .iconst i] ++ elem a ++ [store] ++ storeAll elem store (i + 1) args

def elemIsPrim (elem : Ty) : Bool := isJvmPrimitive elem && !isUnitLike elem

/-- An element of the array for a Java method. -/
def javaElem (elem : Ty) (a : Tree) : List Step :=
  .genExpr a ::
    if elemIsPrim elem then
      if isJvmPrimitive a.ty && !isUnitLike a.ty then emitPrimQualifierCast a.ty elem
      else emitUnbox ctx elem
    else if isJvmPrimitive a.ty then emitBox a.ty
    else []

def genJavaVarargsArray (args : List Tree) (elem : Ty) : List Step :=
  let elem := widenConstant elem
  [.iconst args.length, emitNewarray ctx elem] ++
    storeAll (javaElem ctx elem) (emitArrayStore elem) 0 args

def genVarargsElem (a : Tree) : List Step :=
  .genExpr a ::
    if isUnitVarargsElem a then
      if unitLeavesBoxedRef ctx a then [] else emitBoxedUnit
    else if isJvmPrimitive a.ty then emitBox a.ty
    else []

def scalaRunTime : Step :=
  .getstatic "scala/runtime/ScalaRunTime$" "MODULE$" "Lscala/runtime/ScalaRunTime$;"

def wrapArray (name desc : String) : Step :=
  .invokevirtual "scala/runtime/ScalaRunTime$" name [desc]
    "Lscala/collection/immutable/ArraySeq;"

/-- An array of `int` is wrapped as it is. -/
def allInt (args : List Tree) (elem : Ty) : Bool :=
  !args.isEmpty && args.all (fun a => match a.ty with | .int => true | _ => false) &&
    match elem with
    | .int | .any | .anyRef | .typeParam _ => true
    | _ => false

def genWrapVarargs (args : List Tree) (elem : Ty) : List Step :=
  if args.isEmpty then
    [.getstatic "scala/collection/immutable/Nil$" "MODULE$"
      "Lscala/collection/immutable/Nil$;"]
  else
    [scalaRunTime, .iconst args.length] ++
      if allInt args elem then
        [.newarray 10] ++ storeAll (fun a => [.genExpr a]) (.arrayStore "iastore") 0 args ++
          [wrapArray "wrapIntArray" "[I"]
      else if args.all isUnitVarargsElem && ctx.isLibrary then
        [.anewarray boxedUnit] ++ storeAll (genVarargsElem ctx) (.arrayStore "aastore") 0 args ++
          [wrapArray "wrapUnitArray" "[Lscala/runtime/BoxedUnit;"]
      else
        [.anewarray "java/lang/Object"] ++
          storeAll (genVarargsElem ctx) (.arrayStore "aastore") 0 args ++
          [wrapArray "wrapRefArray" "[Ljava/lang/Object;"]

/-! ## A sequence that is passed whole -/

/-- The tag of a primitive class. -/
def primTag : Ty → Option String
  | .int => some "Int"
  | .long => some "Long"
  | .double => some "Double"
  | .float => some "Float"
  | .char => some "Char"
  | .byte => some "Byte"
  | .short => some "Short"
  | .boolean => some "Boolean"
  | .unit => some "Unit"
  | _ => none

def isBottom : Ty → Bool
  | .nothing | .null => true
  | _ => false

def emitClassTag (t : Ty) : List Step :=
  let t := widenConstant t
  .getstatic "scala/reflect/ClassTag$" "MODULE$" "Lscala/reflect/ClassTag$;" ::
    match primTag t with
    | some p =>
      [.invokevirtual "scala/reflect/ClassTag$" p []
        ("Lscala/reflect/ManifestFactory$" ++ p ++ "Manifest;")]
    | none =>
      if isBottom t then
        [.invokevirtual "scala/reflect/ClassTag$" "Any" [] "Lscala/reflect/ClassTag;"]
      else
        [.javaClassOf t, .invokevirtual "scala/reflect/ClassTag$" "apply" ["Ljava/lang/Class;"]
          "Lscala/reflect/ClassTag;"]

def holdsRefs (desc : String) : Bool :=
  match desc.toList with
  | '[' :: 'L' :: _ | '[' :: '[' :: _ => true
  | _ => false

/-- The array that a spliced value holds its elements in has primitive elements. -/
def primArraySource (spliced elem : Ty) : Bool :=
  match spliced with
  | .array e => isJvmPrimitive e && !isUnitLike e
  | _ => elemIsPrim elem

def adaptJavaVarargsSplice (spliced elem : Ty) (paramDesc : Option String) : List Step :=
  match paramDesc.filter fun d => d.toList.head? = some '[' with
  | none => []
  | some desc =>
    (if isArray spliced then []
      else emitClassTag elem ++ [.invokeinterface "scala/collection/IterableOnceOps" "toArray"
        ["Lscala/reflect/ClassTag;"] "Ljava/lang/Object;"]) ++
    if primArraySource spliced elem && holdsRefs desc then
      [scalaRunTime, .swap, .invokevirtual "scala/runtime/ScalaRunTime$" "toObjectArray"
        ["Ljava/lang/Object;"] "[Ljava/lang/Object;"]
    else if isArray spliced then []
    else [.checkcast desc]

def emitArrayCopyToImmutableSeq : List Step :=
  [.getstatic "scala/Predef$" "MODULE$" "Lscala/Predef$;", .swap,
    .invokevirtual "scala/Predef$" "copyArrayToImmutableIndexedSeq" ["Ljava/lang/Object;"]
      "Lscala/collection/immutable/IndexedSeq;"]

/-- The expression of an ascription `xs: _*`. -/
def spliceInner : Tree → Tree
  | .typed _ e => e
  | t => t

def spliceElem (a : Tree) (elem : Ty) : Ty :=
  match a.ty with
  | .repeated t => t
  | _ => elem

variable (call : Call)

/-- The parameter descriptors the call names. -/
def declared : List String := if call.method = noSymbol then [] else ctx.st.paramDescs call.method

def genSplice (ri : ℕ) (a : Tree) (elem : Ty) : List Step :=
  let inner := spliceInner a
  [.genExpr inner] ++
    (if !call.javaVarargs && ctx.isLibrary && isArray inner.ty then emitArrayCopyToImmutableSeq
      else []) ++
    if call.javaVarargs && ctx.isLibrary then
      adaptJavaVarargsSplice inner.ty (spliceElem a elem) (declared ctx call)[ri]?
    else []

/-- What is emitted for a repeated parameter. -/
def genRepeated (ri : ℕ) (varArgs : List Tree) (elem : Ty) : List Step :=
  let wrap := if call.javaVarargs then genJavaVarargsArray ctx varArgs elem
    else genWrapVarargs ctx varArgs elem
  match varArgs with
  | [a] => if isRepeated a.ty then genSplice ctx call ri a elem else wrap
  | _ => wrap

/-! ## One argument with its coercions -/

def adaptUnitArg (a : Tree) (pty : Ty) : List Step :=
  if erasesToBoxedUnit pty then
    if unitLeavesBoxedRef ctx a then [.checkcast boxedUnit] else emitBoxedUnit
  else []

def opaqueArg (aty pty : Ty) : Bool :=
  (match aty with
    | .any | .anyRef | .typeMember _ | .noType => true
    | _ => false) ||
  match pty with
  | .typeMember _ => true
  | _ => false

/-- The class that `adapt_type_member_arg` casts to. -/
def memberCast (top : Option String) (aty pty : Ty) (declared : Option String) : Option String :=
  if isJvmPrimitive pty then none
  else
    let pd := declared.getD (ctx.st.jvmDesc pty)
    if pd = "Ljava/lang/Object;" then none
    else
      match classOfDesc pd, top with
      | some cls, some top =>
        if top = cls then none
        else if !opaqueArg aty pty &&
            (isInterfaceJvm ctx cls || verifierAcceptsReceiver ctx top cls) then none
        else some cls
      | _, _ => none

def adaptTypeMemberArg (asm : List Step) (aty pty : Ty) (declared : Option String) : List Step :=
  (memberCast ctx (ctx.topObject asm) aty pty declared).toList.map .checkcast

/-- The variable that an argument names. -/
def namedVariable : Tree → SymbolId
  | .ident i _ => i.sym
  | .typed _ e => e.sym
  | _ => noSymbol

/-- The slot of the cell that a lifted method takes in the place of a variable. -/
def cellSlot (i : ℕ) (a : Tree) : Option ℕ :=
  if call.method ≠ noSymbol ∧ (ctx.st.get call.method).synthetic = true ∧
      ((ctx.st.get call.method).params[i]?).any ctx.boxedVars = true then
    ctx.frame (namedVariable a)
  else none

def paramTy (i : ℕ) (a : Tree) : Ty := (call.paramTys[i]?).getD a.ty

/-- The expression in a box that the typer put around an argument, where it is taken off. -/
def typerBoxed (pty : Ty) : Tree → Option Tree
  | .apply _ f [x] =>
    if call.unboxTyperBoxes && isJvmPrimitive pty && treeName f == some "$box" then some x
    else none
  | _ => none

/-- What `box_prims` adds. -/
def boxArg (a : Tree) (pty : Ty) : List Step :=
  if call.boxPrims then
    if isJvmPrimitive a.ty && !isUnitLike a.ty && !isJvmPrimitive pty then emitBox a.ty
    else if isArray pty then [.checkcast (ctx.st.jvmDesc pty)]
    else []
  else []

/-- `load_arg` for the argument of the parameter `i`, after the steps `asm`. -/
def loadArg (asm : List Step) (i : ℕ) (a : Tree) : List Step :=
  match cellSlot ctx call i a with
  | some slot => [.load slot]
  | none =>
    let pty := paramTy call i a
    let value := .genExpr ((typerBoxed call pty a).getD a) :: adaptUnitArg ctx a pty
    value ++ adaptTypeMemberArg ctx (asm ++ value) a.ty pty (declared ctx call)[i]? ++
      boxArg ctx call a pty

/-! ## All arguments -/

def loadArgs (asm : List Step) (i : ℕ) : List Tree → List Step
  | [] => []
  | a :: args =>
    let code := loadArg ctx call asm i a
    code ++ loadArgs (asm ++ code) (i + 1) args

def genExprs (args : List Tree) : List Step := args.map .genExpr

def repIdx : Option ℕ := call.paramTys.findIdx? isRepeated

/-- The element type of the parameter `ri`. -/
def repElem (ri : ℕ) : Ty :=
  match call.paramTys[ri]? with
  | some (.repeated t) => t
  | _ => .any

/-- The arguments end here that the repeated parameter `ri` takes. -/
def varEnd (args : List Tree) (ri : ℕ) : ℕ :=
  let nAfter := call.paramTys.length - ri - 1
  let nVar := args.length - (ri + nAfter)
  min (ri + nVar) args.length

def varArgs (args : List Tree) (ri : ℕ) : List Tree :=
  if ri ≤ varEnd call args ri then (args.take (varEnd call args ri)).drop ri else []

def genCallArgs (args : List Tree) : List Step :=
  match repIdx call with
  | none => loadArgs ctx call [] 0 args
  | some ri =>
    genExprs (args.take (min ri args.length)) ++
      genRepeated ctx call ri (varArgs call args ri) (repElem call ri) ++
      genExprs (args.drop (varEnd call args ri))

end ScalaRs.CallArguments
