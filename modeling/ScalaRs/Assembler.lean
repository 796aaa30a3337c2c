import ScalaRs.ConstantPool
import ScalaRs.DescriptorScanners
import ScalaRs.NameTransformer
import ScalaRs.OrderedMaps
import ScalaRs.Utf8Lossy
import ScalaRs.VerificationTypes

/-! # The assembler

Its state and what its operations are made of. An action fails where the source
panics or does not return. Offsets that are `u16`s in the source are cut off by `u16`. -/
namespace ScalaRs.Bytecode

open Classfile ClassfileCursors OrderedMaps

/-- Labels are numbered in the order in which they are allocated. -/
abbrev Label := ℕ

structure Frame where
  locals : List VType
  stack : List VType
  deriving DecidableEq

/-- What the four vectors of the source hold for one label. -/
structure LabelState where
  off : Option ℕ
  stack : Option (List VType)
  locals : Option (List VType)
  join : Option String

structure Assembler where
  pool : Pool
  bytes : List UInt8
  stack : ℤ
  maxStack : ℤ
  maxLocals : ℕ
  /-- Where the offset of a 16-bit jump stands, and its label. -/
  patches : List (ℕ × Label)
  /-- Where an offset of a switch stands, its label and the switch. -/
  patchesI32 : List (ℕ × Label × ℕ)
  labels : List LabelState
  exceptions : List (Label × Label × Label × Option String)
  vstack : List VType
  vlocals : List VType
  frames : List (ℕ × Frame)
  /-- The state after each conditional branch. -/
  condFrames : List (ℕ × Frame)
  dead : Bool
  /-- The end of the terminator after which the code is dead. -/
  deadStart : Option ℕ
  needFrame : Bool
  thisName : String
  isInit : Bool
  tryLocals : List (List VType)
  localClass : List (ℕ × String)

def u16 (n : ℕ) : ℕ := n % 65536

abbrev Asm := StateT Assembler Option

def Assembler.withPool (pool : Pool) (maxLocals : ℕ) : Assembler where
  pool
  bytes := []
  stack := 0
  maxStack := 0
  maxLocals
  patches := []
  patchesI32 := []
  labels := []
  exceptions := []
  vstack := []
  vlocals := List.replicate maxLocals .Top
  frames := []
  condFrames := []
  dead := false
  deadStart := none
  needFrame := false
  thisName := ""
  isInit := false
  tryLocals := []
  localClass := []

def Assembler.new (maxLocals : ℕ) : Assembler := withPool Pool.new maxLocals

/-- An action on the constant pool. -/
def onPool {α : Type} (m : PoolM α) : Asm α := fun a =>
  (m a.pool).map fun r => (r.1, { a with pool := r.2 })

/-! ## Stack and locals -/

def bump (d : ℤ) : Asm Unit := modify fun a =>
  { a with stack := max (a.stack + d) 0, maxStack := max a.maxStack (max (a.stack + d) 0) }

def pushV (t : VType) : Asm Unit := do
  modify fun a => { a with vstack := a.vstack ++ [t] }
  bump t.slots

def popV : Asm VType := do
  match (← get).vstack.getLast? with
  | some t =>
    modify fun a => { a with vstack := a.vstack.dropLast }
    bump (-t.slots)
    return t
  | none =>
    bump (-1)
    return .Top

def popNV : ℕ → Asm Unit
  | 0 => return
  | n + 1 => do
    let _ ← popV
    popNV n

def slotsOf (stack : List VType) : ℤ := (stack.map VType.slots).sum

def ensureLocal (n : ℕ) : Asm Unit := modify fun a =>
  { a with maxLocals := max a.maxLocals (u16 (n + 1)) }

/-- Missing slots are `Top`. -/
def resizeSlots (n : ℕ) (slots : List VType) : List VType :=
  slots ++ List.replicate (n - slots.length) .Top

def setSlot (n : ℕ) (t : VType) (slots : List VType) : List VType :=
  (resizeSlots (n + 1) slots).set n t

/-- A snapshot describes the slot at every point of its region. -/
def widenSlot (n : ℕ) (t : VType) (snap : List VType) : List VType :=
  setSlot n (mergeVtype (snap.getD n .Top) t none) snap

/-- A reference in a slot with a declared class has that class. -/
def declaredType (declared : Option String) (t : VType) : VType :=
  match declared, t with
  | some c, .Object _ | some c, .Null => .Object c
  | _, _ => t

def setLocal (n : ℕ) (t : VType) : Asm Unit := do
  modify fun a =>
    let t := declaredType (find n a.localClass) t
    { a with tryLocals := a.tryLocals.map (widenSlot n t), vlocals := setSlot n t a.vlocals }
  ensureLocal n

def setLocalClass (slot : ℕ) (name : String) : Asm Unit :=
  if name.isEmpty then return
  else modify fun a => { a with localClass := insert slot name a.localClass }

def releaseLocalsFrom (n : ℕ) : Asm Unit := modify fun a =>
  { a with
    vlocals := a.vlocals.take n ++ (a.vlocals.drop n).map fun _ => .Top
    localClass := a.localClass.filter fun e => decide (e.1 < n) }

/-- The parameters from slot `i` on; the slot after the last one. -/
def initParams : ℕ → List (List Char) → Asm ℕ
  | i, [] => return i
  | i, d :: descs => do
    let vt := vtypeFromDesc d
    setLocal (u16 i) vt
    if vt.isWide then do
      setLocal (u16 (i + 1)) .Top
      initParams (i + 2) descs
    else initParams (i + 1) descs

def ACC_STATIC : UInt16 := 0x0008

def initMethod (access : UInt16) (name desc thisName : String) : Asm Unit := do
  let isInit : Bool := name == "<init>"
  modify fun a =>
    { a with thisName, isInit, vlocals := if a.vlocals.isEmpty then [.Top] else a.vlocals }
  let isStatic := access &&& ACC_STATIC ≠ 0
  if ¬ isStatic then setLocal 0 (if isInit then .UninitializedThis else .Object thisName)
  match JvmDescriptors.paramDescs desc.toList with
  | none => failure
  | some descs => do
    let i ← initParams (if isStatic then 0 else 1) (descs.map Utf8Lossy.charsLossy)
    modify fun a => { a with maxLocals := max a.maxLocals (u16 i) }

/-! ## Code -/

def recordFrameAt (off : ℕ) (stack locals : List VType) : Asm Unit := modify fun a =>
  if a.dead then a else { a with frames := insert off ⟨locals, stack⟩ a.frames }

/-- A frame here, with the state as it is. -/
def recordFrame : Asm Unit := do
  let a ← get
  recordFrameAt (u16 a.bytes.length) a.vstack a.vlocals
  modify fun a => { a with needFrame := false }

def emitBytes (bytes : List UInt8) : Asm Unit := modify fun a => { a with bytes := a.bytes ++ bytes }

def emitU16 (v : ℕ) : Asm Unit := emitBytes (be2 v)

def emitI32 (v : Int32) : Asm Unit := emitBytes (be4 v.toUInt32.toNat)

def emitOp (op : UInt8) : Asm Unit := do
  let a ← get
  if a.needFrame ∧ ¬ a.dead then recordFrame
  emitBytes [op]

def kill : Asm Unit := modify fun a =>
  { a with
    vstack := []
    stack := 0
    deadStart := if a.dead then a.deadStart else some a.bytes.length
    dead := true
    needFrame := true }

/-- Without the entries at the end that satisfy `p`. -/
def popWhile {α : Type} (p : α → Bool) (l : List α) : List α := (l.reverse.dropWhile p).reverse

def Assembler.dropDead (a : Assembler) : Assembler :=
  match a.deadStart with
  | none => a
  | some start =>
    if a.bytes.length ≤ start then a
    else { a with
      bytes := a.bytes.take start
      patches := a.patches.filter fun p => decide (p.1 < start)
      patchesI32 := a.patchesI32.filter fun p => decide (p.1 < start)
      frames := a.frames.filter fun f => decide (f.1 ≤ u16 start)
      condFrames := popWhile (fun f => decide (u16 start < f.1)) a.condFrames }

def dropDead : Asm Unit := modify Assembler.dropDead

def revive : Asm Unit := modify fun a => { a with dead := false, deadStart := none }

/-! ## Labels -/

def freshLabel : Asm Label := do
  let l := (← get).labels.length
  modify fun a => { a with labels := a.labels ++ [⟨none, none, none, none⟩] }
  return l

def labelState (l : Label) : Asm LabelState := do
  match (← get).labels[l]? with
  | some s => return s
  | none => failure

def setLabel (l : Label) (s : LabelState) : Asm Unit := modify fun a =>
  { a with labels := a.labels.set l s }

def setJoinClass (l : Label) (name : String) : Asm Unit :=
  if name.isEmpty ∨ name = "java/lang/Object" then return
  else do
    let s ← labelState l
    setLabel l { s with join := some name }

/-- A jump in dead code contributes nothing to its label. -/
def saveLabel (l : Label) : Asm Unit := do
  let a ← get
  if a.dead then return
  let s ← labelState l
  setLabel l { s with
    stack := some (match s.stack with
      | some old => mergeStack old a.vstack s.join
      | none => a.vstack)
    locals := some (match s.locals with
      | some old => mergeLocals old a.vlocals
      | none => a.vlocals) }

/-- The state that arrives at a label, from the jumps and from the code before it. -/
def arrive (s : LabelState) : Asm Unit := do
  let a ← get
  if a.dead then
    match s.stack with
    | none => return
    | some st => do
      modify fun a => { a with vstack := st, stack := slotsOf st }
      revive
      modify fun a => { a with vlocals := s.locals.getD a.vlocals }
  else do
    match s.stack with
    | none => pure ()
    | some st => modify fun a =>
      { a with
        vstack := mergeStack a.vstack st s.join
        stack := slotsOf (mergeStack a.vstack st s.join) }
    match s.locals with
    | none => pure ()
    | some loc => modify fun a => { a with vlocals := mergeLocals a.vlocals loc }

def mark (l : Label) : Asm Unit := do
  dropDead
  let off := u16 (← get).bytes.length
  let s ← labelState l
  setLabel l { s with off := some off }
  arrive s
  let a ← get
  if ¬ a.dead ∧ (s.stack.isSome ∨ a.needFrame) then recordFrame
  if ¬ a.dead then saveLabel l

def exception (start stop handler : Label) (catchType : Option String) : Asm Unit := modify fun a =>
  { a with exceptions := a.exceptions ++ [(start, stop, handler, catchType)] }

def captureTryLocals : Asm Unit := modify fun a => { a with tryLocals := a.tryLocals ++ [a.vlocals] }

def releaseTryLocals : Asm Unit := modify fun a => { a with tryLocals := a.tryLocals.dropLast }

/-- The locals with which a handler starts. -/
def Assembler.handlerLocals (a : Assembler) (captured : Bool) : List VType :=
  if captured then a.tryLocals.getLast?.getD a.vlocals else a.vlocals

def enterHandlerWith (captured : Bool) : Asm Unit := do
  dropDead
  revive
  modify fun a => { a with
    vstack := [.Object "java/lang/Throwable"]
    stack := 1
    maxStack := max a.maxStack 1
    vlocals := a.handlerLocals captured }
  recordFrame

def enterHandler : Asm Unit := enterHandlerWith false

def enterHandlerCapturedLocals : Asm Unit := enterHandlerWith true

/-! ## Jumps -/

inductive Branch where
  | goto
  | ifeq | ifne | iflt | ifge | ifgt | ifle
  | if_icmpeq | if_icmpne | if_icmplt | if_icmpge | if_icmpgt | if_icmple
  | if_acmpeq | if_acmpne
  | ifnull | ifnonnull
  deriving DecidableEq, Repr

def Branch.opcode : Branch → UInt8
  | goto => 0xa7
  | ifeq => 0x99
  | ifne => 0x9a
  | iflt => 0x9b
  | ifge => 0x9c
  | ifgt => 0x9d
  | ifle => 0x9e
  | if_icmpeq => 0x9f
  | if_icmpne => 0xa0
  | if_icmplt => 0xa1
  | if_icmpge => 0xa2
  | if_icmpgt => 0xa3
  | if_icmple => 0xa4
  | if_acmpeq => 0xa5
  | if_acmpne => 0xa6
  | ifnull => 0xc6
  | ifnonnull => 0xc7

/-- How many values it takes from the stack. -/
def Branch.pops : Branch → ℕ
  | goto => 0
  | ifeq | ifne | iflt | ifge | ifgt | ifle | ifnull | ifnonnull => 1
  | if_icmpeq | if_icmpne | if_icmplt | if_icmpge | if_icmpgt | if_icmple | if_acmpeq | if_acmpne => 2

/-- The fall-through of a conditional branch may become a branch target. -/
def saveFallThrough : Asm Unit := modify fun a =>
  { a with condFrames := a.condFrames ++ [(u16 a.bytes.length, ⟨a.vlocals, a.vstack⟩)] }

/-- The label has been marked: this is a jump back. -/
def recordTarget (l : Label) : Asm Unit := do
  let s ← labelState l
  match s.off, s.stack, s.locals with
  | some off, some st, some loc => recordFrameAt off st loc
  | _, _, _ => return

def jump (b : Branch) (l : Label) : Asm Unit := do
  let a ← get
  if b = .goto ∧ a.dead then return
  popNV b.pops
  emitOp b.opcode
  modify fun a => { a with patches := a.patches ++ [(a.bytes.length, l)] }
  emitU16 0
  if b ≠ .goto ∧ ¬ a.dead then saveFallThrough
  saveLabel l
  recordTarget l
  if b = .goto then kill

def emitSwitchOffset (l : Label) (opPc : ℕ) : Asm Unit := do
  modify fun a => { a with patchesI32 := a.patchesI32 ++ [(a.bytes.length, l, opPc)] }
  emitI32 0

/-- Up to a multiple of four. -/
def padding (n : ℕ) : ℕ := (4 - n % 4) % 4

def emitPadding : Asm Unit := modify fun a =>
  { a with bytes := a.bytes ++ List.replicate (padding a.bytes.length) 0 }

def tableswitch (default : Label) (low high : Int32) (cases : List Label) : Asm Unit := do
  let opPc := (← get).bytes.length
  emitOp 0xaa
  let _ ← popV
  emitPadding
  emitSwitchOffset default opPc
  emitI32 low
  emitI32 high
  cases.forM fun l => emitSwitchOffset l opPc
  saveLabel default
  cases.forM saveLabel
  kill

def lookupswitch (default : Label) (pairs : List (Int32 × Label)) : Asm Unit := do
  let opPc := (← get).bytes.length
  emitOp 0xab
  let _ ← popV
  emitPadding
  emitSwitchOffset default opPc
  emitI32 (Int32.ofNat pairs.length)
  pairs.forM fun p => do
    emitI32 p.1
    emitSwitchOffset p.2 opPc
  saveLabel default
  pairs.forM fun p => saveLabel p.2
  kill

end ScalaRs.Bytecode
