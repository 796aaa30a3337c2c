import ScalaRs.BufferPrograms

/-! # The byte codecs of the pickle annotation

Eight-bit bytes are packed into seven-bit ones, low bits first, and shifted by
one so that no byte is zero. The `i32`s of the source lie between `0` and
`2 ^ 14`, and lengths stay below the `2 ^ 61` bytes at which `srclen * 8` would
leave a `usize`: both are natural numbers here. -/
namespace ScalaRs.Pickling.ByteCodecs
open BufferPrograms BufferPrograms.BufferM

/-- `src[i] as i32` -/
def readInt (i : ℕ) : BufferM UInt8 ℕ := do
  return (← read i).toNat

/-- `dst[j] = value as u8` -/
def writeInt (j value : ℕ) : BufferM UInt8 PUnit := write j (UInt8.ofNat value)

def divCeil (a b : ℕ) : ℕ := if a % b > 0 then a / b + 1 else a / b

/-- The main loop of `encode8to7`, from both indices to both indices. -/
def encodeBlocks (srclen i j : ℕ) : BufferM UInt8 (ℕ × ℕ) :=
  if i + 6 < srclen then do
    let inp ← readInt i
    writeInt j (inp &&& 0x7f)
    let out := inp >>> 7
    let inp ← readInt (i + 1)
    writeInt (j + 1) (out ||| (inp <<< 1) &&& 0x7f)
    let out := inp >>> 6
    let inp ← readInt (i + 2)
    writeInt (j + 2) (out ||| (inp <<< 2) &&& 0x7f)
    let out := inp >>> 5
    let inp ← readInt (i + 3)
    writeInt (j + 3) (out ||| (inp <<< 3) &&& 0x7f)
    let out := inp >>> 4
    let inp ← readInt (i + 4)
    writeInt (j + 4) (out ||| (inp <<< 4) &&& 0x7f)
    let out := inp >>> 3
    let inp ← readInt (i + 5)
    writeInt (j + 5) (out ||| (inp <<< 5) &&& 0x7f)
    let out := inp >>> 2
    let inp ← readInt (i + 6)
    writeInt (j + 6) (out ||| (inp <<< 6) &&& 0x7f)
    let out := inp >>> 1
    writeInt (j + 7) out
    encodeBlocks srclen (i + 7) (j + 8)
  else return (i, j)
termination_by srclen - i

/-- The tail of `encode8to7`, up to its last write: where that goes, and what
it writes. -/
def encodeTail (srclen i j : ℕ) : BufferM UInt8 (ℕ × ℕ) := do
  let inp ← readInt i
  writeInt j (inp &&& 0x7f)
  let j := j + 1
  let out := inp >>> 7
  if i + 1 < srclen then
    let inp ← readInt (i + 1)
    writeInt j (out ||| (inp <<< 1) &&& 0x7f)
    let j := j + 1
    let out := inp >>> 6
    if i + 2 < srclen then
      let inp ← readInt (i + 2)
      writeInt j (out ||| (inp <<< 2) &&& 0x7f)
      let j := j + 1
      let out := inp >>> 5
      if i + 3 < srclen then
        let inp ← readInt (i + 3)
        writeInt j (out ||| (inp <<< 3) &&& 0x7f)
        let j := j + 1
        let out := inp >>> 4
        if i + 4 < srclen then
          let inp ← readInt (i + 4)
          writeInt j (out ||| (inp <<< 4) &&& 0x7f)
          let j := j + 1
          let out := inp >>> 3
          if i + 5 < srclen then
            let inp ← readInt (i + 5)
            writeInt j (out ||| (inp <<< 5) &&& 0x7f)
            let j := j + 1
            let out := inp >>> 2
            return (j, out)
          else return (j, out)
        else return (j, out)
      else return (j, out)
    else return (j, out)
  else return (j, out)

def encode8to7Program (srclen dstlen : ℕ) : BufferM UInt8 PUnit := do
  let (i, j) ← encodeBlocks srclen 0 0
  if i < srclen then
    let (j, out) ← encodeTail srclen i j
    if j < dstlen then writeInt j out

def encode8to7 (src : List UInt8) : Option (List UInt8) := do
  let dstlen := divCeil (src.length * 8) 7
  let (_, dst) ← (encode8to7Program src.length dstlen).apart src (List.replicate dstlen 0)
  return dst

def avoidZero (src : List UInt8) : List UInt8 :=
  src.map fun inp => if inp = 0x7f then 0 else inp + 1

def encodeBytes (src : List UInt8) : Option (List UInt8) := return avoidZero (← encode8to7 src)

/-- Latin-1 characters. -/
def encodeToAnnotationString (src : List UInt8) : Option String := do
  return String.ofList ((← encodeBytes src).map fun b => Char.ofNat b.toNat)

/-- `inp == 0xc0 && i + 1 < srclen && src[i + 1] == 0x80` -/
def isEscaped (srclen i inp : ℕ) : BufferM UInt8 Bool :=
  if inp = 0xc0 ∧ i + 1 < srclen then (· == 0x80) <$> readInt (i + 1) else pure false

def regenerateZeroFrom (srclen i j : ℕ) : BufferM UInt8 ℕ :=
  if i < srclen then do
    let inp ← readInt i
    if ← isEscaped srclen i inp then
      write j 0x7f
      regenerateZeroFrom srclen (i + 2) (j + 1)
    else if inp = 0 then
      write j 0x7f
      regenerateZeroFrom srclen (i + 1) (j + 1)
    else
      write j (UInt8.ofNat inp - 1)
      regenerateZeroFrom srclen (i + 1) (j + 1)
  else return j
termination_by srclen - i

/-- The new length. -/
def regenerateZero (srclen : ℕ) : BufferM UInt8 ℕ := regenerateZeroFrom srclen 0 0

def decodeBlocks (srclen i j : ℕ) : BufferM UInt8 (ℕ × ℕ) :=
  if i + 7 < srclen then do
    let out ← readInt i
    let inp ← readInt (i + 1)
    writeInt j (out ||| (inp &&& 0x01) <<< 7)
    let out := inp >>> 1
    let inp ← readInt (i + 2)
    writeInt (j + 1) (out ||| (inp &&& 0x03) <<< 6)
    let out := inp >>> 2
    let inp ← readInt (i + 3)
    writeInt (j + 2) (out ||| (inp &&& 0x07) <<< 5)
    let out := inp >>> 3
    let inp ← readInt (i + 4)
    writeInt (j + 3) (out ||| (inp &&& 0x0f) <<< 4)
    let out := inp >>> 4
    let inp ← readInt (i + 5)
    writeInt (j + 4) (out ||| (inp &&& 0x1f) <<< 3)
    let out := inp >>> 5
    let inp ← readInt (i + 6)
    writeInt (j + 5) (out ||| (inp &&& 0x3f) <<< 2)
    let out := inp >>> 6
    let inp ← readInt (i + 7)
    writeInt (j + 6) (out ||| inp <<< 1)
    decodeBlocks srclen (i + 8) (j + 7)
  else return (i, j)
termination_by srclen - i

def decodeTail (srclen i j : ℕ) : BufferM UInt8 (ℕ × ℕ) := do
  let out ← readInt i
  if i + 1 < srclen then
    let inp ← readInt (i + 1)
    writeInt j (out ||| (inp &&& 0x01) <<< 7)
    let j := j + 1
    let out := inp >>> 1
    if i + 2 < srclen then
      let inp ← readInt (i + 2)
      writeInt j (out ||| (inp &&& 0x03) <<< 6)
      let j := j + 1
      let out := inp >>> 2
      if i + 3 < srclen then
        let inp ← readInt (i + 3)
        writeInt j (out ||| (inp &&& 0x07) <<< 5)
        let j := j + 1
        let out := inp >>> 3
        if i + 4 < srclen then
          let inp ← readInt (i + 4)
          writeInt j (out ||| (inp &&& 0x0f) <<< 4)
          let j := j + 1
          let out := inp >>> 4
          if i + 5 < srclen then
            let inp ← readInt (i + 5)
            writeInt j (out ||| (inp &&& 0x1f) <<< 3)
            let j := j + 1
            let out := inp >>> 5
            if i + 6 < srclen then
              let inp ← readInt (i + 6)
              writeInt j (out ||| (inp &&& 0x3f) <<< 2)
              let j := j + 1
              return (j, out)
            else return (j, out)
          else return (j, out)
        else return (j, out)
      else return (j, out)
    else return (j, out)
  else return (j, out)

/-- The number of bytes decoded from the first `srclen`, rounded down: nsc's
`(srclen * 7 + 7) / 8` would append a zero. -/
def decode7to8 (srclen : ℕ) : BufferM UInt8 ℕ := do
  let dstlen := srclen * 7 / 8
  let (i, j) ← decodeBlocks srclen 0 0
  if i < srclen then
    let (j, out) ← decodeTail srclen i j
    if j < dstlen then writeInt j out
  return dstlen

def decodeAnnotationString (s : String) : Option (List UInt8) := do
  let buf := s.toList.map fun c => UInt8.ofNat c.toNat
  let (len, buf) ← (regenerateZero buf.length).inPlace buf
  let (n, buf) ← (decode7to8 len).inPlace buf
  return buf.take (min n buf.length)

end ScalaRs.Pickling.ByteCodecs
