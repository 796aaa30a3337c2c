import ScalaRs.ConstantPool

/-! # Writing a class file

All constants are interned before the pool is written. The second half writes out
the indices they got. -/
namespace ScalaRs.Classfile
open ModifiedUtf8 ClassfileCursors

/-- The tags of the constants that are one `int`. -/
inductive IntTag
  | B
  | C
  | I
  | S
  | Z

def IntTag.byte : IntTag → UInt8
  | B => 66
  | C => 67
  | I => 73
  | S => 83
  | Z => 90

mutual
/-- The values of annotation elements. -/
inductive ElementValue
  | Int (tag : IntTag) (n : UInt32)
  | Long (n : UInt64)
  | Float (bits : UInt32)
  | Double (bits : UInt64)
  | Str (s : String)
  | Enum (desc name : String)
  | Class (desc : String)
  | Annot (a : Annotation)
  | Array (items : List ElementValue)

structure Annotation where
  desc : String
  /-- `RuntimeVisibleAnnotations` rather than `RuntimeInvisibleAnnotations`. -/
  visible : Bool
  elems : List (String × ElementValue)
end

structure ExceptionEntry where
  startPc : UInt16
  endPc : UInt16
  handlerPc : UInt16
  catchType : UInt16

structure Code where
  maxStack : UInt16
  maxLocals : UInt16
  bytes : List UInt8
  exceptions : List ExceptionEntry
  stackMap : Option (List UInt8)

structure Field where
  access : UInt16
  name : String
  desc : String

structure Method where
  access : UInt16
  name : String
  desc : String
  code : Option Code
  javaAnnots : List Annotation
  paramAnnots : List (List Annotation)
  signature : Option String
  paramNames : List (Option String)
  paramFlags : List UInt16
  localNames : List (Option String)

structure InnerClassEntry where
  innerClass : String
  outerClass : Option String
  innerName : Option String
  accessFlags : UInt16

structure ClassAnnots where
  classAnnots : List Annotation
  fields : List (String × List Annotation)

structure ClassEmit where
  access : UInt16
  thisName : String
  superName : String
  interfaces : List String
  fields : List Field
  methods : List Method
  source : String
  scalaSignature : Option String
  scalaRaw : Bool
  innerClasses : List InnerClassEntry
  enclosingMethod : Option (String × Option (String × String))
  signature : Option String
  fieldSignatures : List (String × String)
  fieldConstants : List (String × UInt64)
  annots : ClassAnnots

/-- Functions on names and descriptors that the emission calls. -/
structure NameTools where
  encodeMethodName : String → String
  paramDescriptors : String → List String
  methodParameterCount : String → ℕ

namespace Pool

/-! ## Annotations -/

mutual
def encodeAnnotation : Annotation → PoolM (List UInt8)
  | ⟨desc, _, elems⟩ => do
    let d ← utf8 desc
    let body ← encodeElems elems
    pure (be2 d ++ be2 elems.length ++ body)

def encodeElems : List (String × ElementValue) → PoolM (List UInt8)
  | [] => pure []
  | (name, value) :: elems => do
    let n ← utf8 name
    let v ← encodeElementValue value
    let rest ← encodeElems elems
    pure (be2 n ++ v ++ rest)

def encodeElementValue : ElementValue → PoolM (List UInt8)
  | .Int tag n => do
    let i ← integer n
    pure (tag.byte :: be2 i)
  | .Long n => do
    let i ← long n
    pure (74 :: be2 i)
  | .Float bits => do
    let i ← float bits
    pure (70 :: be2 i)
  | .Double bits => do
    let i ← double bits
    pure (68 :: be2 i)
  | .Str s => do
    let i ← utf8 s
    pure (115 :: be2 i)
  | .Enum desc name => do
    let d ← utf8 desc
    let n ← utf8 name
    pure (101 :: be2 d ++ be2 n)
  | .Class desc => do
    let i ← utf8 desc
    pure (99 :: be2 i)
  | .Annot a => do
    let body ← encodeAnnotation a
    pure (64 :: body)
  | .Array items => do
    let body ← encodeItems items
    pure (91 :: be2 items.length ++ body)

def encodeItems : List ElementValue → PoolM (List UInt8)
  | [] => pure []
  | item :: items => do
    let v ← encodeElementValue item
    let rest ← encodeItems items
    pure (v ++ rest)
end

def encodeAnnotations : List Annotation → PoolM (List UInt8)
  | [] => pure []
  | a :: annots => do
    let body ← encodeAnnotation a
    let rest ← encodeAnnotations annots
    pure (body ++ rest)

/-- Of annotations in a row with one descriptor, the first. -/
def dedupByDesc : List Annotation → List Annotation
  | [] => []
  | a :: annots =>
    a :: (dedupByDesc annots).dropWhile fun b => b.desc = a.desc

/-- An attribute name and its body. -/
abbrev Attr := ℕ × List UInt8

def chosen (annots : List Annotation) (visible : Bool) : List Annotation :=
  dedupByDesc (annots.filter fun a => a.visible = visible)

def annotationAttr (annots : List Annotation) (extra : Option Attr) (visible : Bool) :
    PoolM (List Attr) :=
  let count := (chosen annots visible).length + (extra.map Prod.fst).getD 0
  if count = 0 then pure []
  else do
    let name ← utf8 (if visible then "RuntimeVisibleAnnotations" else "RuntimeInvisibleAnnotations")
    let body ← encodeAnnotations (chosen annots visible)
    pure [(name, be2 count ++ body ++ (extra.map Prod.snd).getD [])]

def annotationAttrs (annots : List Annotation) (extraVisible : Option Attr) :
    PoolM (List Attr) := do
  let visible ← annotationAttr annots extraVisible true
  let invisible ← annotationAttr annots none false
  pure (visible ++ invisible)

def encodeParams (visible : Bool) : List (List Annotation) → PoolM (List UInt8)
  | [] => pure []
  | p :: params => do
    let chosen := p.filter fun a => a.visible = visible
    let body ← encodeAnnotations chosen
    let rest ← encodeParams visible params
    pure (be2 chosen.length ++ body ++ rest)

def paramAnnotationAttr (params : List (List Annotation)) (visible : Bool) : PoolM (List Attr) :=
  if params.flatten.any fun a => a.visible = visible then do
    let name ← utf8 (if visible then "RuntimeVisibleParameterAnnotations"
      else "RuntimeInvisibleParameterAnnotations")
    let body ← encodeParams visible params
    pure [(name, UInt8.ofNat params.length :: body)]
  else pure []

def paramAnnotationAttrs (params : List (List Annotation)) : PoolM (List Attr) := do
  let visible ← paramAnnotationAttr params true
  let invisible ← paramAnnotationAttr params false
  pure (visible ++ invisible)

/-! ## Interning -/

def utf8If (b : Bool) (s : String) : PoolM (Option ℕ) :=
  if b then do
    let i ← utf8 s
    pure (some i)
  else pure none

/-- The index of an optional constant. -/
def optional {α : Type} (intern : α → PoolM ℕ) : Option α → PoolM (Option ℕ)
  | some a => do
    let i ← intern a
    pure (some i)
  | none => pure none

end Pool

open Pool

structure FieldData where
  access : UInt16
  name : ℕ
  desc : ℕ
  sig : Option ℕ
  cst : Option ℕ
  annots : List Attr

structure MethodData where
  access : UInt16
  name : ℕ
  desc : ℕ
  code : Option Code
  annots : List Attr
  sig : Option ℕ
  paramNames : List (Option ℕ × UInt16)
  lvt : List (ℕ × ℕ × ℕ)

/-- The indices of everything the class file refers to. -/
structure ClassData where
  thisI : ℕ
  superI : ℕ
  ifaces : List ℕ
  sigAttr : Option ℕ
  constAttr : Option ℕ
  classSigIdx : Option ℕ
  fields : List FieldData
  codeAttr : ℕ
  stackMapAttr : ℕ
  lvtAttr : Option ℕ
  srcAttr : ℕ
  srcName : ℕ
  scalaRawAttr : Option ℕ
  scalaSigAttr : Option ℕ
  innerClassesAttr : Option ℕ
  innerClasses : List (ℕ × ℕ × ℕ × UInt16)
  enclosingMethodAttr : Option ℕ
  enclosingMethod : Option (ℕ × ℕ)
  bootstrapAttr : Option ℕ
  methodParamsAttr : Option ℕ
  classAnnots : List Attr
  methods : List MethodData

/-- Pieces of at most `max` bytes, split between characters. -/
def chunksFrom (max : ℕ) : List Char → List Char → ℕ → List (List Char)
  | [], cur, _ => [cur]
  | c :: cs, cur, len =>
    let w := modifiedUtf8Width c
    if len + w > max ∧ cur ≠ [] then cur :: chunksFrom max cs [c] w
    else chunksFrom max cs (cur ++ [c]) (len + w)

def utf8Chunks (s : String) (max : ℕ) : List String :=
  (chunksFrom max s.toList [] 0).map String.ofList

def ACC_STATIC : UInt16 := 0x0008
def ACC_FINAL : UInt16 := 0x0010
def ACC_SYNTHETIC : UInt16 := 0x1000
def ACC_MANDATED : UInt16 := 0x8000

variable (tools : NameTools)

def internField (emit : ClassEmit) (f : Field) : PoolM FieldData := do
  let sig ← optional utf8 (emit.fieldSignatures.lookup f.name)
  let cst ← optional long (emit.fieldConstants.lookup f.name)
  let annots ← annotationAttrs ((emit.annots.fields.lookup f.name).getD []) none
  let name ← utf8 (tools.encodeMethodName f.name)
  let desc ← utf8 f.desc
  pure ⟨f.access, name, desc, sig, cst, annots⟩

def internInnerClass (e : InnerClassEntry) : PoolM (ℕ × ℕ × ℕ × UInt16) := do
  let inner ← classRef e.innerClass
  let outer ← optional classRef e.outerClass
  let name ← optional (fun n => utf8 (tools.encodeMethodName n)) e.innerName
  pure (inner, outer.getD 0, name.getD 0, e.accessFlags)

def internEnclosingMethod : Option (String × Option (String × String)) → PoolM (Option (ℕ × ℕ))
  | none => pure none
  | some (cls, m) => do
    let c ← classRef cls
    let nt ← optional (fun m => nameAndType (tools.encodeMethodName m.1) m.2) m
    pure (some (c, nt.getD 0))

/-- Why the parameters of a method cannot be written. -/
def paramsError (m : Method) : Option String :=
  if m.paramNames.length ≠ m.paramFlags.length ∨
      (m.paramNames ≠ [] ∧ m.paramNames.length ≠ tools.methodParameterCount m.desc) then
    some ("MethodParameters count for " ++ m.name ++ m.desc ++ " does not match its descriptor")
  else if m.paramFlags.any fun flags =>
      flags &&& ~~~(ACC_FINAL ||| ACC_SYNTHETIC ||| ACC_MANDATED) ≠ 0 then
    some ("illegal MethodParameters flags on " ++ m.name ++ m.desc)
  else none

/-- The entries of the local variable table for the parameters from `slot` on. -/
def internLocals : List (String × Option String) → ℕ → PoolM (List (ℕ × ℕ × ℕ))
  | [], _ => pure []
  | (desc, name) :: params, slot => do
    let n ← optional (fun n => utf8 (tools.encodeMethodName n)) name
    let d ← optional (fun _ => utf8 desc) name
    let rest ← internLocals params (slot + if desc = "J" ∨ desc = "D" then 2 else 1)
    pure ((n.bind fun n => d.map fun d => (n, d, slot)).toList ++ rest)

def internThis (emit : ClassEmit) (m : Method) : PoolM (List (ℕ × ℕ × ℕ)) :=
  if m.access &&& ACC_STATIC = 0 then do
    let n ← utf8 "this"
    let d ← utf8 ("L" ++ emit.thisName ++ ";")
    pure [(n, d, 0)]
  else pure []

def internLvt (emit : ClassEmit) (m : Method) : PoolM (List (ℕ × ℕ × ℕ)) :=
  let names := if m.paramNames = [] then m.localNames else m.paramNames
  if m.code.isSome ∧ names ≠ [] then do
    let this ← internThis emit m
    let rest ← internLocals tools ((tools.paramDescriptors m.desc).zip names) this.length
    pure (this ++ rest)
  else pure []

def internParamNames : List (Option String × UInt16) → PoolM (List (Option ℕ × UInt16))
  | [] => pure []
  | (name, flags) :: params => do
    let n ← optional utf8 name
    let rest ← internParamNames params
    pure ((n, flags) :: rest)

def internMethod (emit : ClassEmit) (m : Method) : PoolM (Except String MethodData) := do
  let n ← utf8 m.name
  let d ← utf8 m.desc
  let annots ← annotationAttrs m.javaAnnots none
  let params ← paramAnnotationAttrs m.paramAnnots
  let sig ← optional utf8 m.signature
  match paramsError tools m with
  | some e => pure (.error e)
  | none => do
    let paramNames ← internParamNames (m.paramNames.zip m.paramFlags)
    if paramNames.length > 255 then
      pure (.error ("too many MethodParameters entries on " ++ m.name ++ m.desc))
    else do
      let lvt ← internLvt tools emit m
      pure (.ok ⟨m.access, n, d, m.code, annots ++ params, sig, paramNames, lvt⟩)

def internMethods (emit : ClassEmit) : List Method → PoolM (Except String (List MethodData))
  | [] => pure (.ok [])
  | m :: methods => do
    let first ← internMethod tools emit m
    match first with
    | .error e => pure (.error e)
    | .ok data => do
      let rest ← internMethods emit methods
      pure (rest.map fun rest => data :: rest)

/-- The `ScalaSignature` annotation, or `ScalaLongSignature` with its chunks in an
array. -/
def internSignature : Option String → PoolM (Option Attr)
  | none => pure none
  | some s => do
    let chunks := utf8Chunks s MAX_UTF8_CONST
    let long := decide (chunks.length > 1)
    let ty ← utf8 (if long then "Lscala/reflect/ScalaLongSignature;"
      else "Lscala/reflect/ScalaSignature;")
    let bytesName ← utf8 "bytes"
    let utf8s ← chunks.mapM utf8
    let array := if long then 91 :: be2 utf8s.length else []
    pure (some (1, be2 ty ++ be2 1 ++ be2 bytesName ++ array ++
      utf8s.flatMap fun su => 115 :: be2 su))

def hasBootstraps : PoolM Bool := fun pool => some (pool.bootstraps ≠ [], pool)

/-- The first half: every constant gets its index. -/
def intern (emit : ClassEmit) : PoolM (Except String ClassData) := do
  let thisI ← classRef emit.thisName
  let superI ← classRef emit.superName
  let ifaces ← emit.interfaces.mapM classRef
  let sigAttr ← utf8If (emit.signature.isSome || !emit.fieldSignatures.isEmpty ||
    emit.methods.any fun m => m.signature.isSome) "Signature"
  let constAttr ← utf8If (!emit.fieldConstants.isEmpty) "ConstantValue"
  let classSigIdx ← optional utf8 emit.signature
  let fields ← emit.fields.mapM (internField tools emit)
  let codeAttr ← utf8 "Code"
  let stackMapAttr ← utf8 "StackMapTable"
  let lvtAttr ← utf8If (emit.methods.any fun m =>
    m.code.isSome && (!m.paramNames.isEmpty || !m.localNames.isEmpty)) "LocalVariableTable"
  let srcAttr ← utf8 "SourceFile"
  let srcName ← utf8 emit.source
  let scalaRawAttr ← utf8If emit.scalaRaw "Scala"
  let scalaSigAttr ← utf8If (emit.scalaSignature.isSome && !emit.scalaRaw) "ScalaSig"
  let scalaSigAnnot ← internSignature emit.scalaSignature
  let innerClassesAttr ← utf8If (!emit.innerClasses.isEmpty) "InnerClasses"
  let innerClasses ← emit.innerClasses.mapM (internInnerClass tools)
  let enclosingMethodAttr ← utf8If emit.enclosingMethod.isSome "EnclosingMethod"
  let enclosingMethod ← internEnclosingMethod tools emit.enclosingMethod
  let bootstraps ← hasBootstraps
  let bootstrapAttr ← utf8If bootstraps "BootstrapMethods"
  let methodParamsAttr ← utf8If (emit.methods.any fun m => !m.paramNames.isEmpty)
    "MethodParameters"
  let classAnnots ← annotationAttrs emit.annots.classAnnots scalaSigAnnot
  let methods ← internMethods tools emit emit.methods
  pure (methods.map fun methods =>
    { thisI, superI, ifaces, sigAttr, constAttr, classSigIdx, fields, codeAttr, stackMapAttr,
      lvtAttr, srcAttr, srcName, scalaRawAttr, scalaSigAttr, innerClassesAttr, innerClasses,
      enclosingMethodAttr, enclosingMethod, bootstrapAttr, methodParamsAttr, classAnnots,
      methods })

/-! ## Writing -/

def writeAttrs (attrs : List Attr) : List UInt8 :=
  attrs.flatMap fun (name, body) => be2 name ++ be4 body.length ++ body

/-- An attribute whose body is one index, if both are there. -/
def indexAttr (attr index : Option ℕ) : List UInt8 :=
  match attr, index with
  | some a, some s => be2 a ++ be4 2 ++ be2 s
  | _, _ => []

def ClassData.fieldBytes (data : ClassData) (f : FieldData) : List UInt8 :=
  be2 f.access.toNat ++ be2 f.name ++ be2 f.desc ++
    be2 (f.sig.isSome.toNat + f.cst.isSome.toNat + f.annots.length) ++
    indexAttr data.constAttr f.cst ++ indexAttr data.sigAttr f.sig ++ writeAttrs f.annots

/-- An entry of the local variable table, for the whole code. -/
def localBytes (codeLen : ℕ) (l : ℕ × ℕ × ℕ) : List UInt8 :=
  be2 0 ++ be2 codeLen ++ be2 l.1 ++ be2 l.2.1 ++ be2 l.2.2

def exceptionBytes (e : ExceptionEntry) : List UInt8 :=
  be2 e.startPc.toNat ++ be2 e.endPc.toNat ++ be2 e.handlerPc.toNat ++ be2 e.catchType.toNat

def ClassData.codeBody (data : ClassData) (lvt : List (ℕ × ℕ × ℕ)) (c : Code) : List UInt8 :=
  let lvtAttr := if lvt = [] then none else data.lvtAttr
  be2 c.maxStack.toNat ++ be2 c.maxLocals.toNat ++ be4 c.bytes.length ++ c.bytes ++
    be2 c.exceptions.length ++ c.exceptions.flatMap exceptionBytes ++
    be2 (c.stackMap.isSome.toNat + lvtAttr.isSome.toNat) ++
    (match c.stackMap with
      | some sm => be2 data.stackMapAttr ++ be4 sm.length ++ sm
      | none => []) ++
    (match lvtAttr with
      | some a => be2 a ++ be4 (2 + lvt.length * 10) ++ be2 lvt.length ++
        lvt.flatMap (localBytes c.bytes.length)
      | none => [])

def ClassData.codeBytes (data : ClassData) (m : MethodData) : List UInt8 :=
  match m.code with
  | some c =>
    let body := data.codeBody m.lvt c
    be2 data.codeAttr ++ be4 body.length ++ body
  | none => []

def paramBytes (p : Option ℕ × UInt16) : List UInt8 := be2 (p.1.getD 0) ++ be2 p.2.toNat

/-- `none` is the panic of a missing `MethodParameters` constant. -/
def ClassData.paramsBytes (data : ClassData) (m : MethodData) : Option (List UInt8) :=
  match m.paramNames, data.methodParamsAttr with
  | [], _ => some []
  | _ :: _, none => none
  | p :: names, some a => some (be2 a ++ be4 (1 + (p :: names).length * 4) ++
      UInt8.ofNat (p :: names).length :: (p :: names).flatMap paramBytes)

def ClassData.methodBytes (data : ClassData) (m : MethodData) : Option (List UInt8) :=
  (data.paramsBytes m).map fun params =>
    be2 m.access.toNat ++ be2 m.name ++ be2 m.desc ++
    be2 (m.code.isSome.toNat + m.annots.length + m.sig.isSome.toNat +
      (!m.paramNames.isEmpty).toNat) ++
    data.codeBytes m ++ writeAttrs m.annots ++ indexAttr data.sigAttr m.sig ++ params

def bootstrapEntry (b : ℕ × List ℕ) : List UInt8 :=
  be2 b.1 ++ be2 b.2.length ++ b.2.flatMap be2

def bootstrapBody (pool : Pool) : List UInt8 :=
  be2 pool.bootstraps.length ++ pool.bootstraps.flatMap bootstrapEntry

def innerClassBytes (e : ℕ × ℕ × ℕ × UInt16) : List UInt8 :=
  be2 e.1 ++ be2 e.2.1 ++ be2 e.2.2.1 ++ be2 e.2.2.2.toNat

/-- An attribute that is there if it has a name. -/
def namedAttr (attr : Option ℕ) (len : ℕ) (body : List UInt8) : List UInt8 :=
  match attr with
  | some a => be2 a ++ be4 len ++ body
  | none => []

def ClassData.enclosingBytes (data : ClassData) : List UInt8 :=
  match data.enclosingMethodAttr, data.enclosingMethod with
  | some em, some (c, nt) => be2 em ++ be4 4 ++ be2 c ++ be2 nt
  | _, _ => []

def ClassData.classAttrs (data : ClassData) (pool : Pool) : List UInt8 :=
  be2 (1 + data.classSigIdx.isSome.toNat + data.classAnnots.length +
    data.scalaSigAttr.isSome.toNat + data.scalaRawAttr.isSome.toNat +
    data.innerClassesAttr.isSome.toNat + data.bootstrapAttr.isSome.toNat +
    data.enclosingMethodAttr.isSome.toNat) ++
  indexAttr data.sigAttr data.classSigIdx ++
  namedAttr data.innerClassesAttr (2 + data.innerClasses.length * 8)
    (be2 data.innerClasses.length ++ data.innerClasses.flatMap innerClassBytes) ++
  namedAttr data.bootstrapAttr (bootstrapBody pool).length (bootstrapBody pool) ++
  data.enclosingBytes ++
  namedAttr data.scalaRawAttr 0 [] ++
  namedAttr data.scalaSigAttr 3 [5, 2, 0] ++
  writeAttrs data.classAnnots ++ be2 data.srcAttr ++ be4 2 ++ be2 data.srcName

/-- The second half: the bytes of the class file. -/
def ClassData.write (data : ClassData) (access : UInt16) (pool : Pool) : Option (List UInt8) := do
  let methods ← data.methods.mapM data.methodBytes
  some (be4 0xCAFEBABE ++ be2 0 ++ be2 52 ++ pool.writeHeader ++
    be2 access.toNat ++ be2 data.thisI ++ be2 data.superI ++
    be2 data.ifaces.length ++ data.ifaces.flatMap be2 ++
    be2 data.fields.length ++ data.fields.flatMap data.fieldBytes ++
    be2 data.methods.length ++ methods.flatten ++ data.classAttrs pool)

def ClassEmit.writeWithPool (emit : ClassEmit) (pool : Pool) :
    Option (Except String (List UInt8)) := do
  let (result, pool) ← intern tools emit pool
  match result with
  | .error e => some (.error e)
  | .ok data => (data.write emit.access pool).map .ok

end ScalaRs.Classfile
