import ScalaRs.Assembler

/-! # The instructions of the assembler

One family of operations is one constructor of `Op`; each operation of the source is
that constructor at its own opcode. -/
namespace ScalaRs.Bytecode

open Classfile ClassfileCursors

/-! ## What families share -/

/-- The kinds of values that are not references. -/
inductive Kind where
  | int | long | float | double
  deriving DecidableEq, Repr

def Kind.vtype : Kind → VType
  | int => .Integer
  | long => .Long
  | float => .Float
  | double => .Double

/-- Pops this many values and pushes one. -/
def emitReplace (op : UInt8) (pops : ℕ) (k : Kind) : Asm Unit := do
  emitOp op
  popNV pops
  pushV k.vtype

def emitConsume (op : UInt8) (pops : ℕ) : Asm Unit := do
  emitOp op
  popNV pops

def emitReturn (op : UInt8) : Asm Unit := do
  emitOp op
  kill

def emitPop2 : Asm Unit := do
  emitOp 0x58
  let t ← popV
  if ¬ t.isWide then popNV 1

def emitDup : Asm Unit := do
  emitOp 0x59
  match (← get).vstack.getLast? with
  | some t => pushV t
  | none => bump 1

def emitSwap : Asm Unit := do
  emitOp 0x5f
  modify fun a => { a with vstack :=
    match a.vstack.reverse with
    | t :: t' :: rest => (t' :: t :: rest).reverse
    | _ => a.vstack }

/-- A copy of the top below this many values; the stack may be lower than that. -/
def insertTop (below : ℕ) (stack : List VType) : List VType :=
  match stack.getLast? with
  | some t => if below ≤ stack.length then stack.insertIdx (stack.length - below) t else stack
  | none => stack

def emitDupX1 : Asm Unit := do
  emitOp 0x5a
  modify fun a => { a with vstack := insertTop 2 a.vstack }
  bump 1

/-- A wide value under the top counts for two. -/
def dupX2Below (stack : List VType) : ℕ :=
  match stack.reverse with
  | top :: next :: _ => if !top.isWide && next.isWide then 2 else 3
  | _ => 3

def emitDupX2 : Asm Unit := do
  emitOp 0x5b
  modify fun a => { a with vstack := insertTop (dupX2Below a.vstack) a.vstack }
  bump 1

/-- `ldc` or `ldc_w` -/
def emitLdc (i : ℕ) : Asm Unit :=
  if i ≤ 255 then do
    emitOp 0x12
    emitBytes [UInt8.ofNat i]
  else do
    emitOp 0x13
    emitU16 i

def emitLoadStore (op0 opg : UInt8) (n : ℕ) : Asm Unit :=
  if n < 4 then emitOp (op0 + UInt8.ofNat n)
  else if n ≤ 255 then do
    emitOp opg
    emitBytes [UInt8.ofNat n]
  else do
    emitOp 0xc4
    emitOp opg
    emitU16 n

/-- The last slot of a value in slot `n`. -/
def Kind.lastSlot (k : Kind) (n : ℕ) : ℕ := if k.vtype.isWide then u16 (n + 1) else n

def Kind.loadOps : Kind → UInt8 × UInt8
  | int => (0x1a, 0x15)
  | long => (0x1e, 0x16)
  | float => (0x22, 0x17)
  | double => (0x26, 0x18)

def Kind.storeOps : Kind → UInt8 × UInt8
  | int => (0x3b, 0x36)
  | long => (0x3f, 0x37)
  | float => (0x43, 0x38)
  | double => (0x47, 0x39)

def emitLoad (k : Kind) (n : ℕ) : Asm Unit := do
  emitLoadStore k.loadOps.1 k.loadOps.2 n
  pushV k.vtype
  ensureLocal (k.lastSlot n)

def emitStore (k : Kind) (n : ℕ) : Asm Unit := do
  let _ ← popV
  emitLoadStore k.storeOps.1 k.storeOps.2 n
  setLocal n k.vtype
  if k.vtype.isWide then setLocal (u16 (n + 1)) .Top

/-! ## Constants -/

def emitIconst (v : Int32) : Asm Unit := do
  let n := v.toInt
  if -1 ≤ n ∧ n ≤ 5 then emitOp (UInt8.ofNat (n + 3).toNat)
  else if -128 ≤ n ∧ n ≤ 127 then do
    emitOp 0x10
    emitBytes [v.toUInt32.toUInt8]
  else if -32768 ≤ n ∧ n ≤ 32767 then do
    emitOp 0x11
    emitU16 v.toUInt32.toNat
  else do
    let i ← onPool (Pool.integer v.toUInt32)
    emitLdc i
  pushV .Integer

def emitLconst (v : Int64) : Asm Unit :=
  if v = 0 then do
    emitOp 0x09
    pushV .Long
  else if v = 1 then do
    emitOp 0x0a
    pushV .Long
  else if -2 ^ 31 ≤ v.toInt ∧ v.toInt < 2 ^ 31 then do
    emitIconst v.toInt32
    emitOp 0x85
    let _ ← popV
    pushV .Long
  else do
    let i ← onPool (Pool.long v.toUInt64)
    emitOp 0x14
    emitU16 i
    pushV .Long

/-- The bits of `0.0` and `1.0`. -/
def emitDconst (bits : UInt64) : Asm Unit := do
  if bits = 0 then emitOp 0x0e
  else if bits = 0x3ff0000000000000 then emitOp 0x0f
  else do
    let i ← onPool (Pool.double bits)
    emitOp 0x14
    emitU16 i
  pushV .Double

/-- The bits of `0.0`, `1.0` and `2.0`. -/
def emitFconst (bits : UInt32) : Asm Unit := do
  if bits = 0 then emitOp 0x0b
  else if bits = 0x3f800000 then emitOp 0x0c
  else if bits = 0x40000000 then emitOp 0x0d
  else do
    let i ← onPool (Pool.float bits)
    emitLdc i
  pushV .Float

def emitLdcString (s : String) : Asm Unit := do
  let i ← onPool (Pool.string s)
  emitLdc i
  pushV (.Object "java/lang/String")

def emitLdcClass (internal : String) : Asm Unit := do
  let i ← onPool (Pool.classRef internal)
  emitLdc i
  pushV (.Object "java/lang/Class")

/-! ## References in locals and arrays -/

/-- What a load of a reference takes from a local of this type. -/
def referenceIn (thisName : String) (t : Option VType) : VType :=
  match t.getD (.Object "java/lang/Object") with
  | .Top | .Integer | .Float | .Long | .Double => .Object thisName
  | other => other

def emitAload (n : ℕ) : Asm Unit := do
  emitLoadStore 0x2a 0x19 n
  let a ← get
  pushV (referenceIn a.thisName a.vlocals[n]?)
  ensureLocal n

def emitAstore (n : ℕ) : Asm Unit := do
  let t ← popV
  emitLoadStore 0x4b 0x3a n
  setLocal n t

def elementType (arr : VType) : VType :=
  match arr with
  | .Object s =>
    match s.toList with
    | '[' :: rest => vtypeFromDesc rest
    | _ => .Object "java/lang/Object"
  | _ => .Object "java/lang/Object"

def emitAaload : Asm Unit := do
  emitOp 0x32
  let _ ← popV
  let arr ← popV
  pushV (elementType arr)

/-- An instruction with a class as its operand. -/
def emitClassOp (op : UInt8) (internal : String) : Asm Unit := do
  let i ← onPool (Pool.classRef internal)
  emitOp op
  emitU16 i

def emitNewObj (internal : String) : Asm Unit := do
  let off := u16 (← get).bytes.length
  emitClassOp 0xbb internal
  pushV (.Uninitialized off)

def emitCheckcast (internal : String) : Asm Unit := do
  emitClassOp 0xc0 internal
  let _ ← popV
  pushV (.Object internal)

def emitInstanceof (internal : String) : Asm Unit := do
  emitClassOp 0xc1 internal
  let _ ← popV
  pushV .Integer

def emitAnewarray (internal : String) : Asm Unit := do
  emitClassOp 0xbd internal
  let _ ← popV
  pushV (.Object ("[L" ++ internal ++ ";"))

def arrayTag (atype : UInt8) : String :=
  if atype = 4 then "[Z"
  else if atype = 5 then "[C"
  else if atype = 6 then "[F"
  else if atype = 7 then "[D"
  else if atype = 8 then "[B"
  else if atype = 9 then "[S"
  else if atype = 10 then "[I"
  else if atype = 11 then "[J"
  else "[Ljava/lang/Object;"

def emitNewarray (atype : UInt8) : Asm Unit := do
  emitOp 0xbc
  emitBytes [atype]
  let _ ← popV
  pushV (.Object (arrayTag atype))

/-! ## Members -/

def encodeName (name : String) : String :=
  String.ofList (NameTransformer.encodeMethodName name.toList)

/-- `getstatic`, `putstatic`, `getfield` and `putfield`: what each pops, and whether it
pushes the field. -/
def emitField (op : UInt8) (pops : ℕ) (pushes : Bool) (owner name desc : String) : Asm Unit := do
  let i ← onPool (Pool.fieldref owner (encodeName name) desc)
  emitOp op
  emitU16 i
  popNV pops
  if pushes then pushV (vtypeFromDesc desc.toList)

/-- The fuel suffices whenever the loop of the source ends. -/
def countParams (desc : String) : Asm ℕ :=
  match JvmDescriptors.countParams (desc.toList.length + 1) desc.toList with
  | some n => return n
  | none => failure

def countParamSlots (desc : String) : Asm ℕ :=
  match JvmDescriptors.countParamSlots (desc.toList.length + 1) desc.toList with
  | some n => return n
  | none => failure

/-- `recv` is initialized wherever it is. -/
def initializeRecv (recv : VType) (owner : String) : Asm Unit := modify fun a =>
  match recv with
  | .UninitializedThis =>
    let inited t := if t = VType.UninitializedThis then .Object a.thisName else t
    { a with vstack := a.vstack.map inited, vlocals := a.vlocals.map inited }
  | .Uninitialized off =>
    let inited t := if t = VType.Uninitialized off then .Object owner else t
    { a with vstack := a.vstack.map inited, vlocals := a.vlocals.map inited }
  | _ => a

/-- What stands after the first `)`. -/
def returnDesc (desc : String) : List Char :=
  if desc.toList.contains ')' then (desc.toList.dropWhile (· != ')')).drop 1 else ['V']

def applyInvoke (desc : String) (hasThis isInit : Bool) (owner : String) : Asm Unit := do
  let nParams ← countParams desc
  popNV nParams
  if hasThis then do
    let recv ← popV
    if isInit then initializeRecv recv owner
  if returnDesc desc ≠ ['V'] then pushV (vtypeFromDesc (returnDesc desc))

def emitInvokevirtual (owner name desc : String) : Asm Unit := do
  let i ← onPool (Pool.methodref owner (encodeName name) desc)
  emitOp 0xb6
  emitU16 i
  applyInvoke desc true false owner

def emitInvokespecial (owner name desc : String) : Asm Unit := do
  let i ← onPool (Pool.methodref owner (encodeName name) desc)
  emitOp 0xb7
  emitU16 i
  applyInvoke desc true (name == "<init>") owner

def emitInvokespecialInterface (owner name desc : String) : Asm Unit := do
  let i ← onPool (Pool.ifaceRef owner (encodeName name) desc)
  emitOp 0xb7
  emitU16 i
  applyInvoke desc true false owner

def emitInvokestaticRef (owner name desc : String) (iface : Bool) : Asm Unit := do
  let i ← onPool (Pool.staticRef owner (encodeName name) desc iface)
  emitOp 0xb8
  emitU16 i
  applyInvoke desc false false owner

def emitInvokeinterface (owner name desc : String) : Asm Unit := do
  let i ← onPool (Pool.ifaceRef owner (encodeName name) desc)
  emitOp 0xb9
  emitU16 i
  let slots ← countParamSlots desc
  emitBytes [UInt8.ofNat (1 + slots), 0]
  applyInvoke desc true false owner

def MF_OWNER : String := "java/lang/invoke/LambdaMetafactory"

def MF_DESC : String :=
  "(Ljava/lang/invoke/MethodHandles$Lookup;Ljava/lang/String;Ljava/lang/invoke/MethodType;" ++
  "Ljava/lang/invoke/MethodType;Ljava/lang/invoke/MethodHandle;Ljava/lang/invoke/MethodType;)" ++
  "Ljava/lang/invoke/CallSite;"

def ALT_MF_DESC : String :=
  "(Ljava/lang/invoke/MethodHandles$Lookup;Ljava/lang/String;Ljava/lang/invoke/MethodType;" ++
  "[Ljava/lang/Object;)Ljava/lang/invoke/CallSite;"

/-- A call site of the metafactory, and how it is made. -/
structure LambdaSite where
  samName : String
  samDesc : String
  callDesc : String
  implOwner : String
  implName : String
  implDesc : String
  implOwnerIsInterface : Bool
  serializable : Bool

def lambdaBootstrap (site : LambdaSite) : PoolM ℕ := do
  let a0 ← Pool.methodType site.samDesc
  let a1 ← Pool.methodHandleStatic site.implOwner site.implName site.implDesc
    site.implOwnerIsInterface
  if site.serializable then do
    let bsm ← Pool.methodHandleStatic MF_OWNER "altMetafactory" ALT_MF_DESC false
    let flags ← Pool.integer 1
    Pool.bootstrap bsm [a0, a1, a0, flags]
  else do
    let bsm ← Pool.methodHandleStatic MF_OWNER "metafactory" MF_DESC false
    Pool.bootstrap bsm [a0, a1, a0]

def emitInvokedynamic (i : ℕ) (callDesc owner : String) : Asm Unit := do
  emitOp 0xba
  emitU16 i
  emitBytes [0, 0]
  applyInvoke callDesc false false owner

def emitInvokedynamicLambda (site : LambdaSite) : Asm Unit := do
  let i ← onPool do
    let bsmIndex ← lambdaBootstrap site
    Pool.invokeDynamic bsmIndex site.samName site.callDesc
  emitInvokedynamic i site.callDesc MF_OWNER

def LD_OWNER : String := "scala/runtime/LambdaDeserialize"

def LD_DESC : String :=
  "(Ljava/lang/invoke/MethodHandles$Lookup;Ljava/lang/String;Ljava/lang/invoke/MethodType;" ++
  "[Ljava/lang/invoke/MethodHandle;)Ljava/lang/invoke/CallSite;"

def CALL_DESC : String := "(Ljava/lang/invoke/SerializedLambda;)Ljava/lang/Object;"

def emitInvokedynamicLambdaDeserialize (handles : List ℕ) : Asm Unit := do
  let i ← onPool do
    let bsm ← Pool.methodHandleStatic LD_OWNER "bootstrap" LD_DESC false
    let bsmIndex ← Pool.bootstrap bsm handles
    Pool.invokeDynamic bsmIndex "lambdaDeserialize" CALL_DESC
  emitInvokedynamic i CALL_DESC LD_OWNER

/-! ## Operations -/

inductive Op where
  | init_method (access : UInt16) (name desc thisName : String)
  | set_local_class (slot : ℕ) (name : String)
  | release_locals_from (n : ℕ)
  | fresh_label
  | set_join_class (l : Label) (name : String)
  | mark (l : Label)
  | exception (start stop handler : Label) (catchType : Option String)
  | capture_try_locals
  | release_try_locals
  | enter_handler (captured : Bool)
  | emit (op : UInt8)
  | replace (op : UInt8) (pops : ℕ) (k : Kind)
  | consume (op : UInt8) (pops : ℕ)
  | pop2
  | dup
  | swap
  | dup_x1
  | dup_x2
  | aconst_null
  | iconst (v : Int32)
  | lconst (v : Int64)
  | dconst (bits : UInt64)
  | fconst (bits : UInt32)
  | ldc_string (s : String)
  | ldc_class (internal : String)
  | load (k : Kind) (n : ℕ)
  | aload (n : ℕ)
  | store (k : Kind) (n : ℕ)
  | astore (n : ℕ)
  | jump (b : Branch) (l : Label)
  | tableswitch (default : Label) (low high : Int32) (cases : List Label)
  | lookupswitch (default : Label) (pairs : List (Int32 × Label))
  | ret (op : UInt8)
  | field (op : UInt8) (pops : ℕ) (pushes : Bool) (owner name desc : String)
  | invokevirtual (owner name desc : String)
  | invokespecial (owner name desc : String)
  | invokespecial_interface (owner name desc : String)
  | invokestatic_ref (owner name desc : String) (iface : Bool)
  | invokeinterface (owner name desc : String)
  | invokedynamic_lambda (site : LambdaSite)
  | invokedynamic_lambda_deserialize (handles : List ℕ)
  | new_obj (internal : String)
  | checkcast (internal : String)
  | instanceof (internal : String)
  | aaload
  | anewarray (internal : String)
  | newarray (atype : UInt8)

namespace Op

def run : Op → Asm Unit
  | init_method access name desc thisName => initMethod access name desc thisName
  | set_local_class slot name => setLocalClass slot name
  | release_locals_from n => releaseLocalsFrom n
  | fresh_label => do
    let _ ← freshLabel
  | set_join_class l name => setJoinClass l name
  | mark l => Bytecode.mark l
  | exception start stop handler catchType => Bytecode.exception start stop handler catchType
  | capture_try_locals => captureTryLocals
  | release_try_locals => releaseTryLocals
  | enter_handler captured => enterHandlerWith captured
  | emit op => emitOp op
  | replace op pops k => emitReplace op pops k
  | consume op pops => emitConsume op pops
  | pop2 => emitPop2
  | dup => emitDup
  | swap => emitSwap
  | dup_x1 => emitDupX1
  | dup_x2 => emitDupX2
  | aconst_null => do
    emitOp 0x01
    pushV .Null
  | iconst v => emitIconst v
  | lconst v => emitLconst v
  | dconst bits => emitDconst bits
  | fconst bits => emitFconst bits
  | ldc_string s => emitLdcString s
  | ldc_class internal => emitLdcClass internal
  | load k n => emitLoad k n
  | aload n => emitAload n
  | store k n => emitStore k n
  | astore n => emitAstore n
  | jump b l => Bytecode.jump b l
  | tableswitch default low high cases => Bytecode.tableswitch default low high cases
  | lookupswitch default pairs => Bytecode.lookupswitch default pairs
  | ret op => emitReturn op
  | field op pops pushes owner name desc => emitField op pops pushes owner name desc
  | invokevirtual owner name desc => emitInvokevirtual owner name desc
  | invokespecial owner name desc => emitInvokespecial owner name desc
  | invokespecial_interface owner name desc => emitInvokespecialInterface owner name desc
  | invokestatic_ref owner name desc iface => emitInvokestaticRef owner name desc iface
  | invokeinterface owner name desc => emitInvokeinterface owner name desc
  | invokedynamic_lambda site => emitInvokedynamicLambda site
  | invokedynamic_lambda_deserialize handles => emitInvokedynamicLambdaDeserialize handles
  | new_obj internal => emitNewObj internal
  | checkcast internal => emitCheckcast internal
  | instanceof internal => emitInstanceof internal
  | aaload => emitAaload
  | anewarray internal => emitAnewarray internal
  | newarray atype => emitNewarray atype

/-! ## The operations of the source by name -/

def enter_handler_captured_locals : Op := enter_handler true
def nop : Op := emit 0x00
def pop : Op := consume 0x57 1
def iload : ℕ → Op := load .int
def lload : ℕ → Op := load .long
def dload : ℕ → Op := load .double
def fload : ℕ → Op := load .float
def istore : ℕ → Op := store .int
def lstore : ℕ → Op := store .long
def dstore : ℕ → Op := store .double
def fstore : ℕ → Op := store .float

def binInt (op : UInt8) : Op := replace op 2 .int
def binLong (op : UInt8) : Op := replace op 2 .long
def binDouble (op : UInt8) : Op := replace op 2 .double
def binFloat (op : UInt8) : Op := replace op 2 .float

def iadd : Op := binInt 0x60
def isub : Op := binInt 0x64
def imul : Op := binInt 0x68
def idiv : Op := binInt 0x6c
def irem : Op := binInt 0x70
def ineg : Op := emit 0x74
def iand : Op := binInt 0x7e
def ior : Op := binInt 0x80
def ixor : Op := binInt 0x82
def ishl : Op := binInt 0x78
def ishr : Op := binInt 0x7a
def iushr : Op := binInt 0x7c
def ladd : Op := binLong 0x61
def lsub : Op := binLong 0x65
def lmul : Op := binLong 0x69
def ldiv : Op := binLong 0x6d
def lrem : Op := binLong 0x71
def lshl : Op := binLong 0x79
def lshr : Op := binLong 0x7b
def lushr : Op := binLong 0x7d
def land : Op := binLong 0x7f
def lor : Op := binLong 0x81
def lxor : Op := binLong 0x83
def lneg : Op := emit 0x75
def dadd : Op := binDouble 0x63
def dsub : Op := binDouble 0x67
def dmul : Op := binDouble 0x6b
def ddiv : Op := binDouble 0x6f
def drem : Op := binDouble 0x73
def dneg : Op := emit 0x77
def fadd : Op := binFloat 0x62
def fsub : Op := binFloat 0x66
def fmul : Op := binFloat 0x6a
def fdiv : Op := binFloat 0x6e
def frem : Op := binFloat 0x72
def fneg : Op := emit 0x76

def i2l : Op := replace 0x85 1 .long
def i2d : Op := replace 0x87 1 .double
def l2i : Op := replace 0x88 1 .int
def l2d : Op := replace 0x8a 1 .double
def lcmp : Op := replace 0x94 2 .int
def fcmpl : Op := replace 0x95 2 .int
def dcmpl : Op := replace 0x97 2 .int
def fcmpg : Op := replace 0x96 2 .int
def dcmpg : Op := replace 0x98 2 .int
def i2f : Op := replace 0x86 1 .float
def l2f : Op := replace 0x89 1 .float
def f2d : Op := replace 0x8d 1 .double
def f2i : Op := replace 0x8b 1 .int
def f2l : Op := replace 0x8c 1 .long
def d2i : Op := replace 0x8e 1 .int
def d2l : Op := replace 0x8f 1 .long
def d2f : Op := replace 0x90 1 .float
def i2b : Op := emit 0x91
def i2c : Op := emit 0x92
def i2s : Op := emit 0x93

def goto : Label → Op := jump .goto
def ifeq : Label → Op := jump .ifeq
def ifne : Label → Op := jump .ifne
def iflt : Label → Op := jump .iflt
def ifge : Label → Op := jump .ifge
def ifgt : Label → Op := jump .ifgt
def ifle : Label → Op := jump .ifle
def if_icmpeq : Label → Op := jump .if_icmpeq
def if_icmpne : Label → Op := jump .if_icmpne
def if_icmplt : Label → Op := jump .if_icmplt
def if_icmpge : Label → Op := jump .if_icmpge
def if_icmpgt : Label → Op := jump .if_icmpgt
def if_icmple : Label → Op := jump .if_icmple
def if_acmpeq : Label → Op := jump .if_acmpeq
def if_acmpne : Label → Op := jump .if_acmpne
def ifnull : Label → Op := jump .ifnull
def ifnonnull : Label → Op := jump .ifnonnull

def ireturn : Op := ret 0xac
def lreturn : Op := ret 0xad
def dreturn : Op := ret 0xaf
def freturn : Op := ret 0xae
def areturn : Op := ret 0xb0
def vreturn : Op := ret 0xb1
def athrow : Op := ret 0xbf

def getstatic : String → String → String → Op := field 0xb2 0 true
def putstatic : String → String → String → Op := field 0xb3 1 false
def getfield : String → String → String → Op := field 0xb4 1 true
def putfield : String → String → String → Op := field 0xb5 2 false

def invokestatic (owner name desc : String) : Op := invokestatic_ref owner name desc false
def invokestatic_interface (owner name desc : String) : Op := invokestatic_ref owner name desc true

def arraylength : Op := replace 0xbe 1 .int
def iaload : Op := replace 0x2e 2 .int
def laload : Op := replace 0x2f 2 .long
def faload : Op := replace 0x30 2 .float
def daload : Op := replace 0x31 2 .double
def baload : Op := replace 0x33 2 .int
def caload : Op := replace 0x34 2 .int
def saload : Op := replace 0x35 2 .int
def aastore : Op := consume 0x53 3
def iastore : Op := consume 0x4f 3
def lastore : Op := consume 0x50 3
def fastore : Op := consume 0x51 3
def dastore : Op := consume 0x52 3
def bastore : Op := consume 0x54 3
def castore : Op := consume 0x55 3
def sastore : Op := consume 0x56 3
def monitorenter : Op := consume 0xc2 1
def monitorexit : Op := consume 0xc3 1

end Op

/-- Runs operations one after the other. -/
def runOps (ops : List Op) : Asm Unit := ops.forM Op.run

end ScalaRs.Bytecode
