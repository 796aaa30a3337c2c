import ScalaRs.ConstantPool
import ScalaRs.ByteCodecs
import Mathlib.Data.List.Infix

/-! # Reading the signature of a class file

The reader steps over everything up to the class attributes and takes the first
annotation that looks like a Scala signature. -/
namespace ScalaRs.Classfile
open ClassfileCursors Pickling.ByteCodecs

inductive ClassfileError
  | BadMagic
  | Truncated (part : String)
  | Malformed (part : String)
  deriving DecidableEq

/-- A cursor whose reads fail with an error. -/
abbrev ClassReader (α : Type) := StateT (List UInt8) (Except ClassfileError) α

def orElseError {α : Type} (p : Cursor α) (e : ClassfileError) : ClassReader α := fun bs =>
  match p bs with
  | some r => .ok r
  | none => .error e

/-- This many times. -/
def times {m : Type → Type} [Monad m] : ℕ → m Unit → m Unit
  | 0, _ => pure ()
  | n + 1, p => do
    p
    times n p

def skipAttr : Cursor Unit := do
  let _ ← Cursor.u2
  let len ← Cursor.u4
  let _ ← Cursor.bytes len
  pure ()

def skipAttrs : Cursor Unit := do
  let n ← Cursor.u2
  times n skipAttr

/-- This many strings, in one. -/
def concatTimes : ℕ → Cursor String → Cursor String
  | 0, _ => pure ""
  | n + 1, p => do
    let s ← p
    let rest ← concatTimes n p
    pure (s ++ rest)

variable (cp : Cp)

/-- The string constants of one element value. Every level reads its tag, so the
fuel of a body's length is enough. -/
def readElementValue : ℕ → Cursor String
  | 0 => failure
  | fuel + 1 => do
    let tag ← Cursor.u1
    if tag = 115 then do
      let ui ← Cursor.u2
      match cp.utf8 ui with
      | some s => pure s
      | none => failure
    else if tag ∈ [66, 67, 73, 83, 90, 70, 68, 74, 99] then do
      let _ ← Cursor.u2
      pure ""
    else if tag = 101 then do
      let _ ← Cursor.u2
      let _ ← Cursor.u2
      pure ""
    else if tag = 64 then do
      let _ ← Cursor.u2
      let npairs ← Cursor.u2
      concatTimes npairs do
        let _ ← Cursor.u2
        readElementValue fuel
    else if tag = 91 then do
      let n ← Cursor.u2
      concatTimes n (readElementValue fuel)
    else failure

def contains (s pat : String) : Bool := decide (pat.toList <:+: s.toList)

def isSignature (ty : String) : Bool :=
  contains ty "ScalaSignature" || contains ty "ScalaLongSignature"

/-- The last element named `bytes`, if the annotation is a signature. -/
def readPairs (fuel : ℕ) (isSig : Bool) : ℕ → Option String → Cursor (Option String)
  | 0, found => pure found
  | n + 1, found => do
    let nameI ← Cursor.u2
    let name := (cp.utf8 nameI).getD ""
    let sink ← readElementValue cp fuel
    readPairs fuel isSig n (if isSig ∧ name = "bytes" then some sink else found)

def readAnnotations (fuel : ℕ) : ℕ → Cursor (Option String)
  | 0 => pure none
  | n + 1 => do
    let typeI ← Cursor.u2
    let ty := (cp.utf8 typeI).getD ""
    let npairs ← Cursor.u2
    let found ← readPairs cp fuel (isSignature ty) npairs none
    match found with
    | some s => pure (some s)
    | none => readAnnotations fuel n

/-- The `bytes` of the first signature in an annotations attribute. -/
def signatureString (body : List UInt8) : Option (Option String) :=
  (do
    let nann ← Cursor.u2
    readAnnotations cp body.length nann : Cursor (Option String)).run' body

def classAttributes : ℕ → ClassReader (Option String)
  | 0 => pure none
  | n + 1 => do
    let nameI ← orElseError Cursor.u2 (.Truncated "class attribute")
    let len ← orElseError Cursor.u4 (.Truncated "class attribute")
    let body ← orElseError (Cursor.bytes len) (.Truncated "class attribute body")
    if cp.utf8 nameI ≠ some "RuntimeVisibleAnnotations" then classAttributes n
    else
      match signatureString cp body with
      | none => throw (.Malformed "RuntimeVisibleAnnotations")
      | some (some s) => pure (some s)
      | some none => classAttributes n

def skipMember (part attrs : String) : ClassReader Unit := do
  let _ ← orElseError Cursor.u2 (.Truncated part)
  let _ ← orElseError Cursor.u2 (.Truncated part)
  let _ ← orElseError Cursor.u2 (.Truncated part)
  orElseError skipAttrs (.Truncated attrs)

/-- The encoded signature of a class file. -/
def readSignature : ClassReader (Option String) := do
  let magic ← orElseError Cursor.u4 (.Truncated "magic")
  if magic ≠ 0xCAFEBABE then throw .BadMagic
  else do
    let _ ← orElseError Cursor.u2 (.Truncated "version")
    let _ ← orElseError Cursor.u2 (.Truncated "version")
    let cp ← orElseError parseCp (.Malformed "constant pool")
    let _ ← orElseError Cursor.u2 (.Truncated "class header")
    let _ ← orElseError Cursor.u2 (.Truncated "class header")
    let _ ← orElseError Cursor.u2 (.Truncated "class header")
    let niface ← orElseError Cursor.u2 (.Truncated "interfaces")
    times niface do
      let _ ← orElseError Cursor.u2 (.Truncated "interfaces")
      pure ()
    let nfields ← orElseError Cursor.u2 (.Truncated "fields")
    times nfields (skipMember "field" "field attributes")
    let nmethods ← orElseError Cursor.u2 (.Truncated "methods")
    times nmethods (skipMember "method" "method attributes")
    let nattrs ← orElseError Cursor.u2 (.Truncated "class attributes")
    classAttributes cp nattrs

/-- The pickle of a class file, if it has one. `none` is a panic of the decoder. -/
def scalaSignatureBytesResult (bytes : List UInt8) :
    Option (Except ClassfileError (Option (List UInt8))) :=
  match readSignature.run' bytes with
  | .error e => some (.error e)
  | .ok none => some (.ok none)
  | .ok (some s) => (decodeAnnotationString s).map fun raw => .ok (some raw)

end ScalaRs.Classfile
