import ScalaRs.EnoughFuel
import ScalaRs.JvmSignatures

/-! # The erasure of a signature

The scanner that erases a signature to the descriptor it must agree with. Every function reads a
text and returns what is left of it. -/
namespace ScalaRs.SignatureErasure
open CodeUnits JvmDescriptors

abbrev Bytes := List UInt8

/-- Type variables with their descriptors. -/
abbrev Tvars := List (List Char × List Char)

/-- `std::str::from_utf8` -/
def fromUtf8 (bs : Bytes) : Option (List Char) := (String.fromUTF8? bs.toByteArray).map String.toList

/-- What comes after the next semicolon. -/
def afterSemicolon (s : Bytes) : Option Bytes :=
  match s.dropWhile (· ≠ byte ';') with
  | [] => none
  | _ :: rest => some rest

mutual

/-- Walk past one type signature without erasing it. -/
def skipSig : ℕ → Bytes → Option Bytes
  | 0, _ => none
  | _ + 1, [] => none
  | n + 1, b :: s =>
      if b ∈ baseTypes ∨ b = byte 'V' then some s
      else if b = byte '[' then skipSig n s
      else if b = byte 'T' then afterSemicolon (b :: s)
      else if b = byte 'L' then skipClass n s
      else none

/-- The loop of `skip_sig` over the name of a class. -/
def skipClass : ℕ → Bytes → Option Bytes
  | 0, _ => none
  | _ + 1, [] => none
  | n + 1, b :: s =>
      if b = byte ';' then some s
      else if b = byte '<' then do
        let s ← skipArgs n (b :: s)
        skipClass n s
      else if b ∈ ['[', '+', '*', '>', '(', ')'].map byte then none
      else skipClass n s

def skipArgs : ℕ → Bytes → Option Bytes
  | 0, _ => none
  | n + 1, s => skipArgsLoop n s.tail

def skipArgsLoop : ℕ → Bytes → Option Bytes
  | 0, _ => none
  | _ + 1, [] => none
  | n + 1, b :: s =>
      if b = byte '>' then some s
      else if b = byte '*' then skipArgsLoop n s
      else if b = byte '+' ∨ b = byte '-' then skipArgsLoop n s
      else do
        let s ← skipSig n (b :: s)
        skipArgsLoop n s

end

def lookupTvar (tvars : Tvars) (name : List Char) : Option (List Char) :=
  (tvars.find? (·.1 = name)).map (·.2)

mutual

/-- Erase one type signature. -/
def eraseOne (tvars : Tvars) : ℕ → Bytes → Option (List Char × Bytes)
  | 0, _ => none
  | _ + 1, [] => none
  | n + 1, b :: s =>
      if b ∈ baseTypes then some ([Char.ofNat b.toNat], s)
      else if b = byte '[' then do
        let (e, s) ← eraseOne tvars n s
        some ('[' :: e, s)
      else if b = byte 'T' then do
        let rest ← afterSemicolon s
        let name ← fromUtf8 (s.takeWhile (· ≠ byte ';'))
        let d ← lookupTvar tvars name
        some (d, rest)
      else if b = byte 'L' then eraseClass n [] s
      else none

/-- The loop over the name of a class. -/
def eraseClass : ℕ → List Char → Bytes → Option (List Char × Bytes)
  | 0, _, _ => none
  | _ + 1, _, [] => none
  | n + 1, name, b :: s =>
      if b = byte ';' then if name.isEmpty then none else some ('L' :: name ++ [';'], s)
      else if b = byte '<' then do
        let s ← skipArgs n (b :: s)
        eraseClass n name s
      else if b = byte '.' then eraseClass n (name ++ ['$']) s
      else if b ∈ ['[', '+', '-', '*', '>', '(', ')'].map byte then none
      else eraseClass n (name ++ [Char.ofNat b.toNat]) s

end

/-- The bounds of a formal type parameter, one after each colon. -/
def skipBounds : ℕ → Bytes → Option Bytes
  | 0, _ => none
  | _ + 1, [] => some []
  | n + 1, b :: s =>
      if b = byte ':' then
        if s.head? = some (byte 'L') ∨ s.head? = some (byte 'T') ∨ s.head? = some (byte '[') then do
          let s ← skipSig n s
          skipBounds n s
        else skipBounds n s
      else some (b :: s)

def skipFormalsLoop : ℕ → Bytes → Option Bytes
  | 0, _ => none
  | _ + 1, [] => none
  | n + 1, b :: s =>
      if b = byte '>' then some s
      else
        match (b :: s).dropWhile (· ≠ byte ':') with
        | [] => none
        | rest => do
            let s ← skipBounds n rest
            skipFormalsLoop n s

def skipFormals (n : ℕ) (s : Bytes) : Option Bytes := skipFormalsLoop n s.tail

/-- The formal type parameter section, if any. -/
def skipFormalSection (n : ℕ) (s : Bytes) : Option Bytes :=
  if s.head? = some (byte '<') then skipFormals n s else some s

/-- The loop over the parameters, up to the closing parenthesis. -/
def eraseParams (tvars : Tvars) : ℕ → List Char → Bytes → Option (List Char × Bytes)
  | 0, _, _ => none
  | _ + 1, _, [] => none
  | n + 1, out, b :: s =>
      if b = byte ')' then some (out ++ [')'], s)
      else do
        let (d, s) ← eraseOne tvars n (b :: s)
        eraseParams tvars n (out ++ d) s

/-- The result, after which nothing may follow. -/
def eraseResult (tvars : Tvars) (n : ℕ) (out : List Char) (s : Bytes) : Option (List Char) := do
  let (out, s) ← if s.head? = some (byte 'V') then some (out ++ ['V'], s.tail)
    else do
      let (d, s) ← eraseOne tvars n s
      some (out ++ d, s)
  if s = [] then some out else none

def eraseSignature (n : ℕ) (sig : Bytes) (tvars : Tvars) : Option (List Char) := do
  let s ← skipFormalSection n sig
  let (out, s) ← if s.head? = some (byte '(') then eraseParams tvars n ['('] s.tail else some ([], s)
  eraseResult tvars n out s

/-- `strip_prefix('L')?.strip_suffix(';')?` -/
def stripClass (d : List Char) : Option (List Char) :=
  match d with
  | c :: s => if c = 'L' ∧ s.getLast? = some ';' then some s.dropLast else none
  | [] => none

def eraseSupers (tvars : Tvars) : ℕ → List (List Char) → Bytes → Option (List (List Char))
  | 0, _, _ => none
  | _ + 1, out, [] => some out
  | n + 1, out, b :: s =>
      if b = byte 'L' then do
        let (d, s) ← eraseOne tvars n (b :: s)
        let name ← stripClass d
        eraseSupers tvars n (out ++ [name]) s
      else none

def eraseClassSignature (n : ℕ) (sig : Bytes) (tvars : Tvars) : Option (List (List Char)) := do
  let s ← skipFormalSection n sig
  eraseSupers tvars n [] s

end ScalaRs.SignatureErasure
