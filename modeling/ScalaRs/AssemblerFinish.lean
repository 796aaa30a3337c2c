import ScalaRs.AssemblerInstructions
import ScalaRs.ClassEmission
import ScalaRs.WhileLoops

/-! # Finishing the code

Branches that do not reach their labels are widened, offsets are patched in, and the
tables of the method are written. -/
namespace ScalaRs.Bytecode

open Classfile ClassfileCursors OrderedMaps WhileLoops

def MAX_CODE_LENGTH : ℕ := 65535

def i16Bytes (v : ℤ) : List UInt8 := be2 (v % 2 ^ 16).toNat

def i32Bytes (v : ℤ) : List UInt8 := be4 (v % 2 ^ 32).toNat

/-! ## Widening -/

/-- A 16-bit branch: where its opcode stands, and whether it is widened. -/
structure Site where
  pc : ℕ
  label : Label
  op : UInt8
  wide : Bool
  deriving DecidableEq

/-- `MIN_BRANCH..=MAX_BRANCH` -/
def inRange (rel : ℤ) : Bool := decide (-2 ^ 15 ≤ rel) && decide (rel < 2 ^ 15)

/-- The bytes that the wide form adds. -/
def widenedGrowth (op : UInt8) : ℕ := if op = 0xa7 then 4 else 8

/-- The branch that jumps when `op` does not. -/
def invertBranch (op : UInt8) : Option UInt8 :=
  if 0x99 ≤ op ∧ op ≤ 0xa6 then some (if (op - 0x99) % 2 = 0 then op + 1 else op - 1)
  else if op = 0xc6 then some 0xc7
  else if op = 0xc7 then some 0xc6
  else none

def Site.growth (s : Site) : ℕ := if s.wide then widenedGrowth s.op else 0

/-- How much the first `k` sites add, for each `k`. -/
def grown (sites : List Site) : List ℕ := sites.scanl (fun n s => n + s.growth) 0

/-- Where a position moves. -/
def movedPc (sites : List Site) (pc : ℕ) : ℕ :=
  pc + (grown sites).getD (sites.takeWhile fun s => decide (s.pc < pc)).length 0

/-- The sites that do not reach their targets are widened. -/
def widenPass (target : Label → ℕ) (sites : List Site) : List Site :=
  sites.map fun s => { s with
    wide := s.wide || !inRange ((movedPc sites (target s.label) : ℤ) - movedPc sites s.pc) }

def widenBody (target : Label → ℕ) (sites : List Site) : Option (Step (List Site) (List Site)) :=
  if widenPass target sites = sites then some (.done sites) else some (.next (widenPass target sites))

/-- Every pass but the last one widens a site. -/
def widenSites (target : Label → ℕ) (sites : List Site) : Option (List Site) :=
  run (widenBody target) (sites.length + 1) sites

/-- What is written for a branch at `here`. -/
def siteBytes (op : UInt8) (wide : Bool) (here target : ℕ) : Option (List UInt8) :=
  if ¬ wide then some (op :: i16Bytes ((target : ℤ) - here))
  else if op = 0xa7 then some ([0x00, 0x00, 0xc8] ++ i32Bytes ((target : ℤ) - (here + 2)))
  else (invertBranch op).map fun inverse =>
    [0x00, 0x00, 0x00, inverse] ++ i16Bytes 8 ++ 0xc8 :: i32Bytes ((target : ℤ) - (here + 6))

/-- The code with all sites rewritten, of which `copied` bytes are in `out` already. -/
def rewriteSites (bytes : List UInt8) (target : Label → ℕ) :
    List Site → ℕ → List UInt8 → Option (List UInt8)
  | [], copied, out => do
    guard (copied ≤ bytes.length)
    return out ++ bytes.drop copied
  | s :: sites, copied, out => do
    guard (copied ≤ s.pc ∧ s.pc ≤ bytes.length)
    let out := out ++ (bytes.take s.pc).drop copied
    let code ← siteBytes s.op s.wide out.length (target s.label)
    rewriteSites bytes target sites (s.pc + 3) (out ++ code)

def movedType (sites : List Site) : VType → VType
  | .Uninitialized off => .Uninitialized (u16 (movedPc sites off))
  | t => t

def Frame.moved (sites : List Site) (f : Frame) : Frame :=
  ⟨f.locals.map (movedType sites), f.stack.map (movedType sites)⟩

def movedFrames (sites : List Site) (frames : List (ℕ × Frame)) : List (ℕ × Frame) :=
  frames.foldl (fun moved f => insert (u16 (movedPc sites f.1)) (f.2.moved sites) moved) []

/-- The fall-through of a widened conditional branch is a branch target. -/
def addFallThrough (sites : List Site) (condFrames : List (ℕ × Frame)) (frames : List (ℕ × Frame))
    (s : Site) : List (ℕ × Frame) :=
  if ¬ s.wide ∨ s.op = 0xa7 then frames
  else match find (u16 (s.pc + 3)) condFrames with
    | none => frames
    | some f => orInsert (u16 (movedPc sites (u16 (s.pc + 3)))) f frames

namespace Assembler

variable (a : Assembler)

/-- An unmarked label counts as `0`. -/
def target (l : Label) : ℕ := (a.labels[l]?.bind (·.off)).getD 0

/-- All branches, by position. -/
def sites : Option (List Site) :=
  (a.patches.mapM fun p => a.bytes[p.1 - 1]?.map fun op => ⟨p.1 - 1, p.2, op, false⟩).map
    fun sites => sites.mergeSort fun s t => decide (s.pc ≤ t.pc)

/-- Everything that names a position moves with the code. -/
def relocate (sites : List Site) : Assembler :=
  { a with
    labels := a.labels.map fun s => { s with off := s.off.map fun off => u16 (movedPc sites off) }
    patchesI32 := a.patchesI32.map fun p => (movedPc sites p.1, p.2.1, movedPc sites p.2.2)
    frames := sites.foldl (addFallThrough sites a.condFrames) (movedFrames sites a.frames)
    patches := [] }

def widenJumps : Option Assembler :=
  if MAX_CODE_LENGTH < a.bytes.length then some a
  else do
    guard (∀ p ∈ a.patches, p.2 < a.labels.length)
    if a.patches.all fun p => inRange ((a.target p.2 : ℤ) - (p.1 - 1)) then return a
    let sites ← a.sites
    let sites ← widenSites a.target sites
    let out ← rewriteSites a.bytes (fun l => movedPc sites (a.target l)) sites 0 []
    return { a.relocate sites with bytes := out }

/-! ## Patching -/

def setBytes (bytes : List UInt8) (pos : ℕ) (written : List UInt8) : Option (List UInt8) := do
  guard (pos + written.length ≤ bytes.length)
  return bytes.take pos ++ written ++ bytes.drop (pos + written.length)

def patch (bytes : List UInt8) (p : ℕ × Label) : Option (List UInt8) := do
  guard (p.2 < a.labels.length)
  setBytes bytes p.1 (i16Bytes ((a.target p.2 : ℤ) - (p.1 - 1)))

def patchI32 (bytes : List UInt8) (p : ℕ × Label × ℕ) : Option (List UInt8) := do
  guard (p.2.1 < a.labels.length)
  setBytes bytes p.1 (i32Bytes ((a.target p.2.1 : ℤ) - p.2.2))

/-- What is left when the code ends. -/
def trim : Assembler :=
  { a.dropDead with
    frames := a.dropDead.frames.filter fun f => decide (f.1 < a.dropDead.bytes.length) }

def patched : Option Assembler := do
  let bytes ← a.patches.foldlM a.patch a.bytes
  let bytes ← a.patchesI32.foldlM a.patchI32 bytes
  return { a with bytes }

/-- The code of the method, with all offsets, and the frames of its stack map. -/
def complete : Option Assembler := do
  let a ← a.trim.widenJumps
  a.patched

end Assembler

/-! ## Tables -/

/-- The entries whose range is not empty. -/
def writeExceptions : List (Label × Label × Label × Option String) → Asm (List ExceptionEntry)
  | [] => return []
  | (start, stop, handler, catchType) :: rest => do
    let _ ← labelState start
    let _ ← labelState stop
    let _ ← labelState handler
    let a ← get
    if a.target stop ≤ a.target start then writeExceptions rest
    else do
      let catchIndex ← match catchType with
        | some c => onPool (Pool.classRef c)
        | none => pure 0
      let entries ← writeExceptions rest
      return ⟨UInt16.ofNat (a.target start), UInt16.ofNat (a.target stop),
        UInt16.ofNat (a.target handler), UInt16.ofNat catchIndex⟩ :: entries

def writeVtype : VType → Asm (List UInt8)
  | .Top => return [0]
  | .Integer => return [1]
  | .Float => return [2]
  | .Double => return [3]
  | .Long => return [4]
  | .Null => return [5]
  | .UninitializedThis => return [6]
  | .Object name => do
    let i ← onPool (Pool.classRef name)
    return 7 :: be2 i
  | .Uninitialized off => return 8 :: be2 off

def writeVtypes : List VType → Asm (List UInt8)
  | [] => return []
  | t :: types => do
    let bytes ← writeVtype t
    let rest ← writeVtypes types
    return bytes ++ rest

/-- A full frame; `delta` is the distance to the frame before it. -/
def writeFrame (delta : ℤ) (f : Frame) : Asm (List UInt8) := do
  let locals := compactLocals f.locals
  let localBytes ← writeVtypes locals
  let stackBytes ← writeVtypes f.stack
  return 255 :: i16Bytes delta ++ be2 locals.length ++ localBytes ++ be2 f.stack.length ++ stackBytes

/-- The frames after one at `prev`. -/
def writeFrames : Option ℕ → List (ℕ × Frame) → Asm (List UInt8)
  | _, [] => return []
  | prev, (off, f) :: frames => do
    let bytes ← writeFrame (match prev with
      | none => off
      | some p => (off : ℤ) - p - 1) f
    let rest ← writeFrames (some off) frames
    return bytes ++ rest

def encodeStackMap : Asm (Option (List UInt8)) := do
  let frames := (← get).frames
  if frames.isEmpty then return none
  let body ← writeFrames none frames
  return some (be2 frames.length ++ body)

def finishTables : Asm Code := do
  let a ← get
  let exceptions ← writeExceptions a.exceptions
  let stackMap ← encodeStackMap
  return {
    maxStack := UInt16.ofNat (max a.maxStack 1).toNat
    maxLocals := UInt16.ofNat (max a.maxLocals 1)
    bytes := a.bytes
    exceptions
    stackMap }

def Assembler.finish (a : Assembler) : Option (Code × Pool) := do
  let a ← a.complete
  let r ← finishTables a
  return (r.1, r.2.pool)

end ScalaRs.Bytecode
