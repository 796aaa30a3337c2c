import ScalaRs.ModifiedUtf8
import ScalaRs.ClassfileCursors
import Mathlib.Logic.Function.Basic

/-! # The constant pool

Each constant is interned under a key of its own. The source's indices are `u16`s:
they agree with the ones here as long as the counter stays below `2^16`. -/
namespace ScalaRs.Classfile
open ModifiedUtf8 ClassfileCursors

/-- A key of one of the pool's hash maps. -/
inductive PoolKey
  | utf8 (s : String)
  | classes (internal : String)
  | string (s : String)
  | nat (name desc : ℕ)
  | refs (tag : UInt8) (owner nat : ℕ)
  | ints (v : UInt32)
  | floats (bits : UInt32)
  | longs (v : UInt64)
  | doubles (bits : UInt64)
  | methodTypes (desc : String)
  | methodHandles (kind : UInt8) (reference : ℕ)
  | invokeDynamics (bootstrap nat : ℕ)
  deriving DecidableEq

structure Pool where
  bytes : List UInt8
  /-- The next index. -/
  count : ℕ
  index : PoolKey → Option ℕ
  bootstraps : List (ℕ × List ℕ)
  bootstrapIndex : ℕ × List ℕ → Option ℕ

def MAX_UTF8_CONST : ℕ := 65535

/-- `none` is a panic: a string is too long for one constant. -/
abbrev PoolM := StateT Pool Option

namespace Pool

def new : Pool := ⟨[], 1, fun _ => none, [], fun _ => none⟩

/-- The index a constant has already, or else what `miss` does. -/
def cached (key : PoolKey) (miss : PoolM ℕ) : PoolM ℕ := fun pool =>
  match pool.index key with
  | some i => some (i, pool)
  | none => miss pool

/-- Appends an entry of this many slots. -/
def add (key : PoolKey) (entry : List UInt8) (slots : ℕ) : PoolM ℕ := fun pool =>
  some (pool.count, { pool with
    bytes := pool.bytes ++ entry
    count := pool.count + slots
    index := Function.update pool.index key (some pool.count) })

def utf8 (s : String) : PoolM ℕ :=
  cached (.utf8 s) do
    let encoded := modifiedUtf8Bytes s
    guard (encoded.length ≤ MAX_UTF8_CONST)
    add (.utf8 s) (1 :: be2 encoded.length ++ encoded) 1

def classRef (internal : String) : PoolM ℕ :=
  cached (.classes internal) do
    let u ← utf8 internal
    add (.classes internal) (7 :: be2 u) 1

def string (s : String) : PoolM ℕ :=
  cached (.string s) do
    let u ← utf8 s
    add (.string s) (8 :: be2 u) 1

def integer (v : UInt32) : PoolM ℕ :=
  cached (.ints v) (add (.ints v) (3 :: be4 v.toNat) 1)

def float (bits : UInt32) : PoolM ℕ :=
  cached (.floats bits) (add (.floats bits) (4 :: be4 bits.toNat) 1)

def be8 (n : ℕ) : List UInt8 := be4 (n / 2 ^ 32) ++ be4 n

/-- Occupies two slots. -/
def long (v : UInt64) : PoolM ℕ :=
  cached (.longs v) (add (.longs v) (5 :: be8 v.toNat) 2)

/-- Occupies two slots. -/
def double (bits : UInt64) : PoolM ℕ :=
  cached (.doubles bits) (add (.doubles bits) (6 :: be8 bits.toNat) 2)

def nat (name desc : String) : PoolM ℕ := do
  let n ← utf8 name
  let d ← utf8 desc
  cached (.nat n d) (add (.nat n d) (12 :: be2 n ++ be2 d) 1)

def memberRef (tag : UInt8) (owner name desc : String) : PoolM ℕ := do
  let c ← classRef owner
  let n ← nat name desc
  cached (.refs tag c n) (add (.refs tag c n) (tag :: be2 c ++ be2 n) 1)

def fieldref (owner name desc : String) : PoolM ℕ := memberRef 9 owner name desc

def methodref (owner name desc : String) : PoolM ℕ := memberRef 10 owner name desc

def ifaceRef (owner name desc : String) : PoolM ℕ := memberRef 11 owner name desc

def methodType (desc : String) : PoolM ℕ :=
  cached (.methodTypes desc) do
    let d ← utf8 desc
    add (.methodTypes desc) (16 :: be2 d) 1

def methodHandle (kind : UInt8) (reference : ℕ) : PoolM ℕ :=
  cached (.methodHandles kind reference)
    (add (.methodHandles kind reference) (15 :: kind :: be2 reference) 1)

/-- A static method, of a class or of an interface. -/
def staticRef (owner name desc : String) (iface : Bool) : PoolM ℕ :=
  if iface then ifaceRef owner name desc else methodref owner name desc

def methodHandleStatic (owner name desc : String) (iface : Bool) : PoolM ℕ := do
  let r ← staticRef owner name desc iface
  methodHandle 6 r

/-- The index in the `BootstrapMethods` attribute, not in the pool. -/
def bootstrap (handle : ℕ) (args : List ℕ) : PoolM ℕ := fun pool =>
  match pool.bootstrapIndex (handle, args) with
  | some i => some (i, pool)
  | none =>
    let i := pool.bootstraps.length % 65536
    some (i, { pool with
      bootstrapIndex := Function.update pool.bootstrapIndex (handle, args) (some i)
      bootstraps := pool.bootstraps ++ [(handle, args)] })

def invokeDynamic (bootstrap : ℕ) (name desc : String) : PoolM ℕ := do
  let nt ← nat name desc
  cached (.invokeDynamics bootstrap nt)
    (add (.invokeDynamics bootstrap nt) (18 :: be2 bootstrap ++ be2 nt) 1)

def nameAndType (name desc : String) : PoolM ℕ := nat name desc

def writeHeader (pool : Pool) : List UInt8 := be2 pool.count ++ pool.bytes

end Pool

/-! ## Reading it back -/

/-- The tag and the data of each slot. Slot `0` and the second slot of a long or
a double have the tag `0`. -/
structure Cp where
  slots : List (UInt8 × List UInt8)
  deriving DecidableEq

def parseData (tag : UInt8) : Cursor (List UInt8) :=
  if tag = 1 then do
    let n ← Cursor.u2
    Cursor.bytes n
  else if tag ∈ [7, 8, 16, 19, 20] then do
    let a ← Cursor.u2
    pure (be2 a)
  else if tag ∈ [3, 4, 9, 10, 11, 12, 17, 18] then do
    let a ← Cursor.u2
    let b ← Cursor.u2
    pure (be2 a ++ be2 b)
  else if tag ∈ [5, 6] then Cursor.bytes 8
  else if tag = 15 then do
    let kind ← Cursor.u1
    let a ← Cursor.u2
    pure (kind :: be2 a)
  else failure

def parseEntry : Cursor (UInt8 × List UInt8) := do
  let tag ← Cursor.u1
  let data ← parseData tag
  pure (tag, data)

/-- This many slots. -/
def parseSlots : ℕ → Cursor (List (UInt8 × List UInt8))
  | 0 => pure []
  | 1 => do
    let e ← parseEntry
    pure [e]
  | n + 2 => do
    let e ← parseEntry
    if e.1 ∈ [5, 6] then do
      let slots ← parseSlots n
      pure (e :: (0, []) :: slots)
    else do
      let slots ← parseSlots (n + 1)
      pure (e :: slots)

def parseCp : Cursor Cp := do
  let cpCount ← Cursor.u2
  if cpCount = 0 then pure ⟨[]⟩
  else do
    let slots ← parseSlots (cpCount - 1)
    pure ⟨(0, []) :: slots⟩

namespace Cp

variable (cp : Cp)

def utf8 (i : ℕ) : Option String :=
  match cp.slots[i]? with
  | some (tag, data) => if i = 0 ∨ tag ≠ 1 then none else modifiedUtf8ToString data
  | none => none

def className (i : ℕ) : Option String :=
  match cp.slots[i]? with
  | some (tag, hi :: lo :: _) =>
    if i = 0 ∨ tag ≠ 7 then none else cp.utf8 (hi.toNat * 256 + lo.toNat)
  | _ => none

end Cp
end ScalaRs.Classfile
