import ScalaRs.PickleFormat
import ScalaRs.Utf8Lossy
import Mathlib.Algebra.Group.Nat.Defs

/-! # The subset unpickler

The reader of the backend keeps the entries its classpath needs. It goes on
after a number that cannot be read, from where it stopped. The tags have the
codes of the format. -/
namespace ScalaRs.Pickling.Subset

structure Reader where
  bytes : List UInt8
  pos : ℕ

def Reader.remaining (r : Reader) : Bool := r.pos < r.bytes.length

/-- Reading a value can fail; the reader stays where it stopped. -/
abbrev Read := OptionT (StateM Reader)

section
variable {α β : Type}

theorem bind_of_some {p : Read α} {f : α → Read β} {r r' : Reader} {a : α}
    (h : p r = (some a, r')) : (p >>= f) r = f a r' := by
  simp only [bind, OptionT.bind, OptionT.mk, StateT.bind]
  rw [h]

theorem bind_of_none {p : Read α} {f : α → Read β} {r r' : Reader} (h : p r = (none, r')) :
    (p >>= f) r = (none, r') := by
  simp only [bind, OptionT.bind, OptionT.mk, StateT.bind]
  rw [h]
  rfl

theorem map_apply (f : α → β) (p : Read α) (r : Reader) :
    (f <$> p) r = ((p r).1.map f, (p r).2) := by
  rw [map_eq_pure_bind]
  cases h : p r with
  | mk a r' =>
    cases a with
    | none => exact bind_of_none h
    | some a => exact bind_of_some h

theorem lift_bind_apply (p : StateM Reader α) (f : α → Read β) (r : Reader) :
    ((p : Read α) >>= f) r = f (p r).1 (p r).2 := rfl

theorem get_bind (f : Reader → Read β) (r : Reader) : (get >>= f) r = f r r := rfl

theorem guard_bind_of {c : Prop} [Decidable c] (h : c) (f : Unit → Read β) (r : Reader) :
    (guard c >>= f) r = f () r := by
  delta guard
  rw [if_pos h]
  rfl

end

inductive Entry
  | TermName (s : String)
  | TypeName (s : String)
  | NoneSym
  | TypeSym (name owner info : Idx) (isAlias : Bool)
  | ClassSym (name owner info : Idx) (flags : UInt64)
  | ModuleSym (name owner info : Idx)
  | ValSym (name owner info : Idx) (flags : UInt64)
  | ExtRef (name : Idx) (owner : Option Idx)
  | NoTpe
  | ThisTpe (sym : Idx)
  | SingleTpe (pre sym : Idx)
  | ConstantTpe (const : Idx)
  | LiteralTy (name : String)
  | AnnotatedTpe (tpe : Idx)
  | TypeRef (pre sym : Idx) (args : List Idx)
  | TypeBounds (lo hi : Idx)
  | RefinedTpe (parents : List Idx)
  | ClassInfo (parents : List Idx)
  | MethodTpe (ret : Idx) (params : List Idx)
  | PolyTpe (tparams : List Idx) (rest : Idx)
  | Existential (tpe : Idx)
  | Other
  deriving DecidableEq, Repr

/-! ## Numbers -/

def readByte : Read UInt8 := fun r =>
  match r.bytes[r.pos]? with
  | some b => (some b, { r with pos := r.pos + 1 })
  | none => (none, r)

theorem readByte_eq_some {r r' : Reader} {b : UInt8} (h : readByte r = (some b, r')) :
    r.pos < r.bytes.length ∧ r' = { r with pos := r.pos + 1 } := by
  rw [readByte] at h
  cases hb : r.bytes[r.pos]? with
  | none =>
    rw [hb] at h
    cases h
  | some b' =>
    rw [hb] at h
    cases h
    exact ⟨(List.getElem?_eq_some_iff.mp hb).1, rfl⟩

/-- The bytes left, which every byte that is read lowers. -/
def Reader.left (r : Reader) : ℕ := r.bytes.length - r.pos

theorem readByte_left {r r' : Reader} {b : UInt8} (h : readByte r = (some b, r')) :
    r'.left < r.left := by
  obtain ⟨hpos, rfl⟩ := readByte_eq_some h
  simp only [Reader.left]
  omega

/-- The loop of `read_long_nat`. -/
def readLongNatFrom (x : UInt64) (r : Reader) : Option UInt64 × Reader :=
  match _h : readByte r with
  | (none, r') => (none, r')
  | (some b, r') =>
    let x := (x <<< 7) + (b.toUInt64 &&& 0x7f)
    if b.toUInt64 &&& 0x80 = 0 then (some x, r') else readLongNatFrom x r'
termination_by r.left
decreasing_by exact readByte_left _h

theorem readLongNatFrom_of_some {x : UInt64} {r r' : Reader} {b : UInt8}
    (h : readByte r = (some b, r')) : readLongNatFrom x r =
      if b.toUInt64 &&& 0x80 = 0 then (some ((x <<< 7) + (b.toUInt64 &&& 0x7f)), r')
      else readLongNatFrom ((x <<< 7) + (b.toUInt64 &&& 0x7f)) r' := by
  rw [readLongNatFrom]
  split
  · next hnone =>
    rw [h] at hnone
    cases hnone
  · next hsome =>
    rw [h] at hsome
    cases hsome
    rfl

def readLongNat : Read UInt64 := readLongNatFrom 0

def readNat : Read Idx := UInt64.toUInt32 <$> readLongNat

theorem readLongNatFrom_left (x : UInt64) (r : Reader) : ∀ {v r'},
    readLongNatFrom x r = (some v, r') → r'.left < r.left := by
  induction h : r.left using Nat.strongRecOn generalizing x r with
  | ind n ih =>
    intro v r' hread
    rw [readLongNatFrom] at hread
    split at hread
    · cases hread
    · next b r₁ hbyte =>
      have hlt := readByte_left hbyte
      simp only at hread
      split at hread
      · cases hread
        omega
      · have hrest := ih _ (by omega) _ r₁ rfl hread
        omega

theorem readNat_left {r r' : Reader} {v : Idx} (h : readNat r = (some v, r')) : r'.left < r.left := by
  rw [readNat, map_apply] at h
  cases hlong : readLongNat r with
  | mk v' r₁ =>
    rw [hlong] at h
    cases v' with
    | none => cases h
    | some v' =>
      cases h
      exact readLongNatFrom_left 0 r hlong

/-- `read_nat().unwrap_or(0)` -/
def readNatOrZero : StateM Reader Idx := do return (← readNat.run).getD 0

/-- References up to the end of the body, as far as they can be read. -/
def readNatsUntil (fin : ℕ) (out : List Idx) (r : Reader) : List Idx × Reader :=
  if r.pos < fin then
    match _h : readNat r with
    | (some a, r') => readNatsUntil fin (out ++ [a]) r'
    | (none, r') => (out, r')
  else (out, r)
termination_by r.left
decreasing_by exact readNat_left _h

theorem readNatsUntil_of_ge {fin : ℕ} {r : Reader} (h : fin ≤ r.pos) (out : List Idx) :
    readNatsUntil fin out r = (out, r) := by
  rw [readNatsUntil, if_neg (Nat.not_lt.mpr h)]

theorem readNatsUntil_of_some {fin : ℕ} {r r' : Reader} {a : Idx} (hpos : r.pos < fin)
    (h : readNat r = (some a, r')) (out : List Idx) :
    readNatsUntil fin out r = readNatsUntil fin (out ++ [a]) r' := by
  rw [readNatsUntil, if_pos hpos]
  split
  · next hsome =>
    rw [h] at hsome
    cases hsome
    rfl
  · next hnone =>
    rw [h] at hnone
    cases hnone

theorem readNatsUntil_of_none {fin : ℕ} {r r' : Reader} (hpos : r.pos < fin)
    (h : readNat r = (none, r')) (out : List Idx) : readNatsUntil fin out r = (out, r') := by
  rw [readNatsUntil, if_pos hpos]
  split
  · next hsome =>
    rw [h] at hsome
    cases hsome
  · next hnone =>
    rw [h] at hnone
    cases hnone
    rfl

theorem readNatsUntil_eq (fin : ℕ) (r : Reader) : ∀ out,
    readNatsUntil fin out r = (out ++ (readNatsUntil fin [] r).1, (readNatsUntil fin [] r).2) := by
  induction h : r.left using Nat.strongRecOn generalizing r with
  | ind n ih =>
    intro out
    by_cases hpos : r.pos < fin
    · cases hread : readNat r with
      | mk a r' =>
        cases a with
        | none =>
          rw [readNatsUntil_of_none hpos hread, readNatsUntil_of_none hpos hread, List.append_nil]
        | some a =>
          have hlt := readNat_left hread
          rw [readNatsUntil_of_some hpos hread, readNatsUntil_of_some hpos hread,
            ih _ (by omega) r' rfl (out ++ [a]), ih _ (by omega) r' rfl ([] ++ [a])]
          simp
    · have hge := Nat.not_lt.mp hpos
      rw [readNatsUntil_of_ge hge, readNatsUntil_of_ge hge, List.append_nil]

/-- Trailing fields are skipped. -/
def skipNatsUntil (fin : ℕ) (r : Reader) : Option Unit × Reader :=
  if r.pos < fin then
    match _h : readNat r with
    | (some _, r') => skipNatsUntil fin r'
    | (none, r') => (none, r')
  else (some (), r)
termination_by r.left
decreasing_by exact readNat_left _h

theorem skipNatsUntil_of_ge {fin : ℕ} {r : Reader} (h : fin ≤ r.pos) :
    skipNatsUntil fin r = (some (), r) := by
  rw [skipNatsUntil, if_neg (Nat.not_lt.mpr h)]

theorem skipNatsUntil_of_some {fin : ℕ} {r r' : Reader} {a : Idx} (hpos : r.pos < fin)
    (h : readNat r = (some a, r')) : skipNatsUntil fin r = skipNatsUntil fin r' := by
  rw [skipNatsUntil, if_pos hpos]
  split
  · next hsome =>
    rw [h] at hsome
    cases hsome
    rfl
  · next hnone =>
    rw [h] at hnone
    cases hnone

/-! ## Entries -/

def isPrivateWithin (entryTags : List UInt8) (first : Idx) : Bool :=
  entryTags[first.toNat]?.any fun tag => tag == EntryTag.EXTref.code ||
    tag == EntryTag.EXTMODCLASSref.code || tag == EntryTag.CLASSsym.code ||
    tag == EntryTag.MODULEsym.code

def readInfo (entryTags : List UInt8) (first : Idx) : Read Idx :=
  if isPrivateWithin entryTags first then readNat else pure first

/-- Name, owner, flags and information of a symbol. -/
def readSymbolInfo (fin : ℕ) (entryTags : List UInt8) : Read (Idx × Idx × UInt64 × Idx) := do
  let name ← readNat
  let owner ← readNat
  let flags ← readLongNat
  let first ← readNat
  let info ← readInfo entryTags first
  skipNatsUntil fin
  return (name, owner, flags, info)

/-- `r.pos = end` -/
def endAt (fin : ℕ) : StateM Reader Unit := modify fun r => { r with pos := fin }

def readNameUntil (fin : ℕ) : StateM Reader String := do
  let r ← get
  endAt fin
  return Utf8Lossy.fromUtf8Lossy ((r.bytes.take fin).drop r.pos)

def readOwner (fin : ℕ) : StateM Reader (Option Idx) := do
  if (← get).pos < fin then readNat.run else return none

/-- The arms of the loop that are not symbols. -/
def readOther (fin : ℕ) : EntryTag → StateM Reader Entry
  | .TERMname => return .TermName (← readNameUntil fin)
  | .TYPEname => return .TypeName (← readNameUntil fin)
  | .NONEsym => return .NoneSym
  | .EXTref | .EXTMODCLASSref => return .ExtRef (← readNatOrZero) (← readOwner fin)
  | .NOtpe | .NOPREFIXtpe => return .NoTpe
  | .THIStpe => return .ThisTpe (← readNatOrZero)
  | .SINGLEtpe => return .SingleTpe (← readNatOrZero) (← readNatOrZero)
  | .CONSTANTtpe => return .ConstantTpe (← readNatOrZero)
  | .LITERALunit => return .LiteralTy "Unit"
  | .LITERALboolean => return .LiteralTy "Boolean"
  | .LITERALchar => return .LiteralTy "Char"
  | .LITERALint => return .LiteralTy "Int"
  | .LITERALlong => return .LiteralTy "Long"
  | .LITERALfloat => return .LiteralTy "Float"
  | .LITERALdouble => return .LiteralTy "Double"
  | .LITERALstring => return .LiteralTy "String"
  | .LITERALnull => return .LiteralTy "Null"
  | .ANNOTATEDtpe => return .AnnotatedTpe (← readNatOrZero)
  | .TYPEREFtpe => return .TypeRef (← readNatOrZero) (← readNatOrZero) (← readNatsUntil fin [])
  | .TYPEBOUNDStpe => return .TypeBounds (← readNatOrZero) (← readNatOrZero)
  | .REFINEDtpe => do
    let _refinement ← readNatOrZero
    return .RefinedTpe (← readNatsUntil fin [])
  | .CLASSINFOtpe => do
    let _classsym ← readNatOrZero
    return .ClassInfo (← readNatsUntil fin [])
  | .METHODtpe => return .MethodTpe (← readNatOrZero) (← readNatsUntil fin [])
  | .POLYtpe => do
    let refs ← readNatsUntil fin []
    return .PolyTpe (refs.drop 1) (refs.head?.getD 0)
  | .EXISTENTIALtpe => return .Existential (← readNatOrZero)
  | _ => return .Other

/-- The body of the loop over the entries, which ends at the end of the entry. -/
def readEntryBody (fin : ℕ) (entryTags : List UInt8) (tag : UInt8) : Read Entry := do
  match EntryTag.ofCode tag with
  | some .TYPEsym => do
    let (name, owner, _, info) ← readSymbolInfo fin entryTags
    endAt fin
    return .TypeSym name owner info false
  | some .ALIASsym => do
    let (name, owner, _, info) ← readSymbolInfo fin entryTags
    endAt fin
    return .TypeSym name owner info true
  | some .CLASSsym => do
    let (name, owner, flags, info) ← readSymbolInfo fin entryTags
    endAt fin
    return .ClassSym name owner info flags
  | some .MODULEsym => do
    let (name, owner, _, info) ← readSymbolInfo fin entryTags
    endAt fin
    return .ModuleSym name owner info
  | some .VALsym => do
    let (name, owner, flags, info) ← readSymbolInfo fin entryTags
    endAt fin
    return .ValSym name owner info flags
  | some t => do
    let e ← readOther fin t
    endAt fin
    return e
  | none => do
    endAt fin
    return .Other

/-- One entry of the tag table: its tag; the reader goes to its end. -/
def readTag : Read UInt8 := do
  let tag ← readByte
  let len ← readNat
  let r ← get
  -- `checked_add`
  guard (r.pos + len.toNat < 2 ^ 64)
  guard (r.pos + len.toNat ≤ r.bytes.length)
  set { r with pos := r.pos + len.toNat }
  return tag

def readTags : ℕ → List UInt8 → Read (List UInt8)
  | 0, entryTags => return entryTags
  | n + 1, entryTags => do
    let tag ← readTag
    readTags n (entryTags ++ [tag])

/-- One iteration of the loop over the entries. -/
def readEntry (entryTags : List UInt8) : Read Entry := do
  guard (← get).remaining
  let tag ← readByte
  let len ← readNat
  let r ← get
  -- `saturating_add`
  readEntryBody (min (min (r.pos + len.toNat) (2 ^ 64 - 1)) r.bytes.length) entryTags tag

def readEntries (entryTags : List UInt8) : ℕ → List Entry → Read (List Entry)
  | 0, entries => return entries
  | n + 1, entries => do
    let e ← readEntry entryTags
    readEntries entryTags n (entries ++ [e])

/-- The entries of `unpickle`, from which it then works out the class. -/
def unpickleEntries (bytes : List UInt8) : Option (List Entry) :=
  let program : Read (List Entry) := do
    let major ← readNat
    let _minor ← readNat
    guard (major = MAJOR)
    let nentries ← UInt32.toNat <$> readNat
    guard (nentries ≤ 100000)
    let start ← get
    let entryTags ← readTags nentries []
    set start
    readEntries entryTags nentries []
  if bytes.isEmpty then none else (program ⟨bytes, 0⟩).1

end ScalaRs.Pickling.Subset
