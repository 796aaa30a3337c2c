import ScalaRs.CheckedReaders
import ScalaRs.PickleFormat
import ScalaRs.Utf8Lossy
import Mathlib.Algebra.Group.Nat.Defs

/-! # The pickle reader

Every operation of the source that can panic is checked here: additions and
subtractions of positions, shifts by a computed amount, indices and slices. A
shift by a literal amount stays below its width. -/
namespace ScalaRs.Pickling
open CheckedReaders CheckedReaders.CheckedM

/-- A byte slice: no slice is longer than `isize::MAX`. -/
structure Slice where
  bytes : List UInt8
  length_lt : bytes.length < 2 ^ 63

def Slice.length (s : Slice) : ℕ := s.bytes.length

/-- Where and why a pickle could not be read. -/
structure ReadError where
  entry : ℕ
  tag : UInt8
  offset : ℕ
  message : String
  deriving DecidableEq

structure Reader where
  bytes : Slice
  pos : ℕ
  entry : ℕ
  tag : UInt8

/-- `usize::MAX` is the entry of the header. -/
def Reader.new (bytes : Slice) : Reader := ⟨bytes, 0, 2 ^ 64 - 1, 0⟩

abbrev Read := CheckedM Reader ReadError

variable {α : Type} [Build]

/-! ## What can panic -/

def usizeAdd (a b : ℕ) : Read ℕ :=
  if a + b < 2 ^ 64 then pure (a + b)
  else if Build.overflowChecks then panics else pure ((a + b) % 2 ^ 64)

def usizeSub (a b : ℕ) : Read ℕ :=
  if b ≤ a then pure (a - b)
  else if Build.overflowChecks then panics else pure (2 ^ 64 + a - b)

/-- `x << n`; the amount wraps around where overflow is not checked. -/
def shl (x : BitVec 64) (n : ℕ) : Read (BitVec 64) :=
  if n < 64 then pure (x <<< n)
  else if Build.overflowChecks then panics else pure (x <<< (n % 64))

/-- `x >> n`, arithmetically. -/
def shr (x : BitVec 64) (n : ℕ) : Read (BitVec 64) :=
  if n < 64 then pure (x.sshiftRight n)
  else if Build.overflowChecks then panics else pure (x.sshiftRight (n % 64))

omit [Build] in
def indexAt (xs : List α) (i : ℕ) : Read α :=
  match xs[i]? with
  | some x => pure x
  | none => panics

def sliceOf (bytes : Slice) (start fin : ℕ) : Read (List UInt8) :=
  if start ≤ fin ∧ fin ≤ bytes.length then pure ((bytes.bytes.take fin).drop start) else panics

/-! ## The reader -/

def err (message : String) : Read α := do
  let r ← get
  fail ⟨r.entry, r.tag, r.pos, message⟩

def byte : Read UInt8 := do
  let r ← get
  if r.pos ≥ r.bytes.length then err "unexpected end of pickle"
  else
    let b ← indexAt r.bytes.bytes r.pos
    let pos ← usizeAdd r.pos 1
    set { r with pos := pos }
    return b

/-- Up to this many more bytes of a number that starts with `x`. -/
def longNatFrom : ℕ → UInt64 → Read UInt64
  | 0, _ => err "Nat longer than 10 bytes"
  | fuel + 1, x => do
    let b := (← byte).toUInt64
    let x := (x <<< 7) ||| (b &&& 0x7f)
    if b &&& 0x80 = 0 then return x else longNatFrom fuel x

def longNat : Read UInt64 := longNatFrom 10 0

def nat : Read UInt32 := do
  let v ← longNat
  if v > 0xffffffff then err s!"Nat {v} does not fit in u32" else return v.toUInt32

/-- `r.nat()? as usize` -/
def natUsize : Read ℕ := UInt32.toNat <$> nat

/-- `len` more bytes, big-endian. -/
def longBytes : ℕ → BitVec 64 → Read (BitVec 64)
  | 0, x => return x
  | len + 1, x => do
    let b ← byte
    longBytes len ((x <<< 8) ||| b.toBitVec.setWidth 64)

def long (len : ℕ) : Read (BitVec 64) := do
  if len > 8 then err s!"constant of {len} bytes"
  else
    let x ← longBytes len 0
    let leading ← usizeSub 64 (len <<< 3)
    let shifted ← shl x leading
    shr shifted leading

def checkRef (idx : Idx) (nentries : ℕ) : Read Unit :=
  if idx.toNat ≥ nentries then err s!"reference #{idx} out of range ({nentries} entries)"
  else return ()

def readRef (nentries : ℕ) : Read Idx := do
  let i ← nat
  checkRef i nentries
  return i

/-- `while r.pos < end`. -/
def readUntil {β : Type} (fin : ℕ) (body : β → Read β) (acc : β) : Read β :=
  whileDo (fun r => fin - r.pos) (fun r => r.pos < fin) body acc

def readRefsUntil (fin nentries : ℕ) : Read (List Idx) :=
  readUntil fin (fun out => do return out ++ [← readRef nentries]) []

omit [Build] in
def isSymRef (allTags : List UInt8) (i : Idx) : Bool :=
  allTags[i.toNat]?.any fun t => FIRST_SYM_TAG ≤ t && t ≤ LAST_EXT_SYM_TAG

omit [Build] in
def isNameEntry (allTags : List UInt8) (i : Idx) : Bool :=
  allTags[i.toNat]? == some EntryTag.TERMname.code ||
    allTags[i.toNat]? == some EntryTag.TYPEname.code

def readSymInfo (allTags : List UInt8) (nentries : ℕ) : Read SymInfo := do
  let name ← readRef nentries
  let owner ← readRef nentries
  let flags ← longNat
  let first ← readRef nentries
  if isSymRef allTags first then
    let info ← readRef nentries
    return ⟨name, owner, flags, some first, info⟩
  else return ⟨name, owner, flags, none, first⟩

/-- One positional or named argument, added to those before it. -/
def readAnnotArg (allTags : List UInt8) (nentries : ℕ) (info : AnnotInfo) : Read AnnotInfo := do
  let a ← readRef nentries
  if isNameEntry allTags a then
    let v ← readRef nentries
    return { info with assocs := info.assocs ++ [(a, v)] }
  else return { info with args := info.args ++ [a] }

def readAnnotInfo (fin : ℕ) (allTags : List UInt8) (nentries : ℕ) : Read AnnotInfo := do
  let tpe ← readRef nentries
  readUntil fin (readAnnotArg allTags nentries) ⟨tpe, [], []⟩

def readName (fin : ℕ) : Read String := do
  let r ← get
  let raw ← sliceOf r.bytes r.pos fin
  set { r with pos := fin }
  return Utf8Lossy.fromUtf8Lossy raw

/-- A reference that is there only if the body has not ended. -/
def readOptRef (fin n : ℕ) : Read (Option Idx) := do
  if (← get).pos < fin then some <$> readRef n else return none

/-- `read_ref` pushed `count` times. -/
def readRefs (count n : ℕ) : Read (List Idx) :=
  forRange (fun _ out => do return out ++ [← readRef n]) 0 count []

/-- `r.long(end - r.pos)` -/
def readLong (fin : ℕ) : Read (BitVec 64) := do
  let len ← usizeSub fin (← get).pos
  long len

/-- The arms of `read_tree_entry`. -/
def readTree (fin n : ℕ) : TreeTag → Read Tree
  | .EMPTYtree => return .Empty
  | .PACKAGEtree => do
    return .PackageDef (← readRef n) (← readRef n) (← readRef n) (← readRef n)
      (← readRefsUntil fin n)
  | .CLASStree => do
    return .ClassDef (← readRef n) (← readRef n) (← readRef n) (← readRef n)
      (← readRefsUntil fin n)
  | .MODULEtree => return .ModuleDef (← readRef n) (← readRef n) (← readRef n) (← readRef n)
  | .VALDEFtree => do
    return .ValDef (← readRef n) (← readRef n) (← readRef n) (← readRef n)
      (← readRef n)
  | .DEFDEFtree => do
    let sym ← readRef n
    let mods ← readRef n
    let name ← readRef n
    let ntp ← natUsize
    let tparams ← readRefs ntp n
    let nss ← natUsize
    let vparamss ← forRange (fun _ vparamss => do
      let np ← natUsize
      return vparamss ++ [← readRefs np n]) 0 nss []
    let tpt ← readRef n
    let rhs ← readRef n
    return .DefDef sym mods name tparams vparamss tpt rhs
  | .TYPEDEFtree => do
    return .TypeDef (← readRef n) (← readRef n) (← readRef n) (← readRef n)
      (← readRefsUntil fin n)
  | .LABELtree => do
    return .LabelDef (← readRef n) (← readRef n) (← readRef n)
      (← readRefsUntil fin n)
  | .IMPORTtree => do
    let sym ← readRef n
    let expr ← readRef n
    let selectors ← readUntil fin (fun selectors => do
      return selectors ++ [⟨← readRef n, ← readRef n⟩]) []
    return .Import sym expr selectors
  | .DOCDEFtree => return .DocDef (← readRef n) (← readRef n)
  | .TEMPLATEtree => do
    let sym ← readRef n
    let np ← natUsize
    let parents ← readRefs np n
    let self ← readRef n
    let body ← readRefsUntil fin n
    return .Template sym parents self body
  | .BLOCKtree => return .Block (← readRef n) (← readRefsUntil fin n)
  | .CASEtree => return .CaseDef (← readRef n) (← readRef n) (← readRef n)
  | .ALTERNATIVEtree => return .Alternative (← readRefsUntil fin n)
  | .STARtree => return .Star (← readRef n)
  | .BINDtree => return .Bind (← readRef n) (← readRef n) (← readRef n)
  | .UNAPPLYtree => return .UnApply (← readRef n) (← readRefsUntil fin n)
  | .ARRAYVALUEtree => return .ArrayValue (← readRef n) (← readRefsUntil fin n)
  | .FUNCTIONtree => return .Function (← readRef n) (← readRef n) (← readRefsUntil fin n)
  | .ASSIGNtree => return .Assign (← readRef n) (← readRef n)
  | .IFtree => return .If (← readRef n) (← readRef n) (← readRef n)
  | .MATCHtree => return .Match (← readRef n) (← readRefsUntil fin n)
  | .RETURNtree => return .Return (← readRef n) (← readRef n)
  | .TREtree => return .Try (← readRef n) (← readRef n) (← readRefsUntil fin n)
  | .THROWtree => return .Throw (← readRef n)
  | .NEWtree => return .New (← readRef n)
  | .TYPEDtree => return .Typed (← readRef n) (← readRef n)
  | .TYPEAPPLYtree => return .TypeApply (← readRef n) (← readRefsUntil fin n)
  | .APPLYtree => return .Apply (← readRef n) (← readRefsUntil fin n)
  | .APPLYDYNAMICtree => return .ApplyDynamic (← readRef n) (← readRef n) (← readRefsUntil fin n)
  | .SUPERtree => return .Super (← readRef n) (← readRef n) (← readRef n)
  | .THIStree => return .This (← readRef n) (← readRef n)
  | .SELECTtree => return .Select (← readRef n) (← readRef n) (← readRef n)
  | .IDENTtree => return .Ident (← readRef n) (← readRef n)
  | .LITERALtree => return .Literal (← readRef n)
  | .TYPEtree => return .TypeTree
  | .ANNOTATEDtree => return .Annotated (← readRef n) (← readRef n)
  | .SINGLETONTYPEtree => return .SingletonTypeTree (← readRef n)
  | .SELECTFROMTYPEtree => return .SelectFromTypeTree (← readRef n) (← readRef n)
  | .COMPOUNDTYPEtree => return .CompoundTypeTree (← readRef n)
  | .APPLIEDTYPEtree => return .AppliedTypeTree (← readRef n) (← readRefsUntil fin n)
  | .TYPEBOUNDStree => return .TypeBoundsTree (← readRef n) (← readRef n)
  | .EXISTENTIALTYPEtree => return .ExistentialTypeTree (← readRef n) (← readRefsUntil fin n)

def readTreeType (n : ℕ) (tt : UInt8) : Read (Option Idx) :=
  if tt = TreeTag.EMPTYtree.code then pure none else some <$> readRef n

def readTreeOf (fin n : ℕ) (tt : UInt8) : Read Tree :=
  match TreeTag.ofCode tt with
  | some t => readTree fin n t
  | none => err s!"unknown tree tag {tt}"

def readTreeEntry (fin n : ℕ) : Read Entry := do
  let tt ← byte
  let tpe ← readTreeType n tt
  let tree ← readTreeOf fin n tt
  return .Tree tpe tree

/-- The arms of `read_entry`. -/
def readBody (fin : ℕ) (allTags : List UInt8) (n : ℕ) : EntryTag → Read Entry
  | .TERMname => return .TermName (← readName fin)
  | .TYPEname => return .TypeName (← readName fin)
  | .NONEsym => return .NoneSym
  | .EXTref => return .ExtRef (← readRef n) (← readOptRef fin n)
  | .EXTMODCLASSref => return .ExtModClassRef (← readRef n) (← readOptRef fin n)
  | .TYPEsym => return .TypeSym (← readSymInfo allTags n)
  | .ALIASsym => return .AliasSym (← readSymInfo allTags n)
  | .CLASSsym => return .ClassSym (← readSymInfo allTags n) (← readOptRef fin n)
  | .MODULEsym => return .ModuleSym (← readSymInfo allTags n) (← readOptRef fin n)
  | .VALsym => return .ValSym (← readSymInfo allTags n) (← readOptRef fin n)
  | .NOtpe => return .NoTpe
  | .NOPREFIXtpe => return .NoPrefixTpe
  | .THIStpe => return .ThisTpe (← readRef n)
  | .SINGLEtpe => return .SingleTpe (← readRef n) (← readRef n)
  | .SUPERtpe => return .SuperTpe (← readRef n) (← readRef n)
  | .CONSTANTtpe => return .ConstantTpe (← readRef n)
  | .TYPEREFtpe => return .TypeRefTpe (← readRef n) (← readRef n) (← readRefsUntil fin n)
  | .TYPEBOUNDStpe => return .TypeBoundsTpe (← readRef n) (← readRef n)
  | .REFINEDtpe => return .RefinedTpe (← readRef n) (← readRefsUntil fin n)
  | .CLASSINFOtpe => return .ClassInfoTpe (← readRef n) (← readRefsUntil fin n)
  | .METHODtpe => return .MethodTpe (← readRef n) (← readRefsUntil fin n)
  | .IMPLICITMETHODtpe => return .ImplicitMethodTpe (← readRef n) (← readRefsUntil fin n)
  | .POLYtpe => return .PolyTpe (← readRef n) (← readRefsUntil fin n)
  | .EXISTENTIALtpe => return .ExistentialTpe (← readRef n) (← readRefsUntil fin n)
  | .ANNOTATEDtpe => return .AnnotatedTpe (← readRef n) (← readRefsUntil fin n)
  | .DEBRUIJNINDEXtpe => return .DeBruijnIndexTpe (← nat) (← nat)
  | .LITERALunit => return .Literal .Unit
  | .LITERALboolean => return .Literal (.Boolean ((← readLong fin) != 0))
  | .LITERALbyte => return .Literal (.Byte ((← readLong fin).setWidth 8))
  | .LITERALshort => return .Literal (.Short ((← readLong fin).setWidth 16))
  | .LITERALchar => return .Literal (.Char ((← readLong fin).setWidth 32 &&& 0xffff))
  | .LITERALint => return .Literal (.Int ((← readLong fin).setWidth 32))
  | .LITERALlong => return .Literal (.Long (← readLong fin))
  | .LITERALfloat => return .Literal (.Float ((← readLong fin).setWidth 32))
  | .LITERALdouble => return .Literal (.Double (← readLong fin))
  | .LITERALstring => return .Literal (.Str (← readRef n))
  | .LITERALnull => return .Literal .Null
  | .LITERALclass => return .Literal (.Class (← readRef n))
  | .LITERALenum => return .Literal (.Enum (← readRef n))
  | .LITERALsymbol => return .Literal (.Symbol (← readRef n))
  | .SYMANNOT => return .SymAnnot (← readRef n) (← readAnnotInfo fin allTags n)
  | .ANNOTINFO => return .AnnotInfo (← readAnnotInfo fin allTags n)
  | .ANNOTARGARRAY => return .AnnotArgArray (← readRefsUntil fin n)
  | .CHILDREN => return .Children (← readRef n) (← readRefsUntil fin n)
  | .MODIFIERS => do
    let hi ← UInt32.toUInt64 <$> nat
    let lo ← UInt32.toUInt64 <$> nat
    let privateWithin ← readRef n
    return .Modifiers ((hi <<< 32) ||| lo) privateWithin
  | .TREE => readTreeEntry fin n
  | .LITERAL => do
    let tag := (← get).tag
    err s!"unknown pickle tag {tag}"

def readEntry (fin : ℕ) (allTags : List UInt8) (n : ℕ) : Read Entry := do
  let tag := (← get).tag
  match EntryTag.ofCode tag with
  | some t => readBody fin allTags n t
  | none => err s!"unknown pickle tag {tag}"

/-! ## The entry table -/

/-- The offsets, tags and ends of the entries, in table order. -/
structure Table where
  offsets : List ℕ
  entryTags : List UInt8
  ends : List ℕ

/-- One iteration of the first pass. -/
def readTableEntry (i : ℕ) (table : Table) : Read Table := do
  modify fun r => { r with entry := i, tag := 0 }
  let tag ← byte
  modify fun r => { r with tag := tag }
  let len ← natUsize
  let r ← get
  let start := r.pos
  -- `checked_add`
  if start + len < 2 ^ 64 ∧ start + len ≤ r.bytes.length then
    set { r with pos := start + len }
    return ⟨table.offsets ++ [start], table.entryTags ++ [tag], table.ends ++ [start + len]⟩
  else err s!"entry length {len} overruns the pickle"

/-- One iteration of the second pass. -/
def readTableBody (table : Table) (nentries i : ℕ) (entries : List Entry) :
    Read (List Entry) := do
  modify fun r => { r with entry := i }
  let tag ← indexAt table.entryTags i
  modify fun r => { r with tag := tag }
  let offset ← indexAt table.offsets i
  modify fun r => { r with pos := offset }
  let fin ← indexAt table.ends i
  let e ← readEntry fin table.entryTags nentries
  let r ← get
  if r.pos ≠ fin then
    let consumed ← usizeSub r.pos offset
    let length ← usizeSub fin offset
    err s!"entry body not fully consumed ({consumed} of {length} bytes)"
  else return entries ++ [e]

structure Header where
  major : UInt32
  minor : UInt32
  nentries : ℕ

def readHeader : Read Header := do
  let major ← nat
  let minor ← nat
  if major ≠ MAJOR then err s!"unsupported pickle major version {major}"
  else return ⟨major, minor, ← natUsize⟩

/-- The first pass. -/
def readTable (nentries : ℕ) : Read Table := forRange readTableEntry 0 nentries ⟨[], [], []⟩

/-- The second pass. -/
def readEntries (table : Table) (nentries : ℕ) : Read (List Entry) :=
  forRange (readTableBody table nentries) 0 nentries []

def readPickle (bytes : Slice) : Except (Stop ReadError) Pickle :=
  let program : Read Pickle := do
    let header ← readHeader
    let table ← readTable header.nentries
    let entries ← readEntries table header.nentries
    return ⟨header.major, header.minor, entries, table.entryTags, entries.map fun _ => none⟩
  Prod.fst <$> program (Reader.new bytes)

end ScalaRs.Pickling
