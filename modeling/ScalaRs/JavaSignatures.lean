import ScalaRs.JvmSignatures

/-! # The reader of generic Java signatures

The reader of the `Signature` attributes of class files, which the typer takes the generic types of
Java classes from. Every function reads a text and returns what is left of it. -/
namespace ScalaRs.JavaSignatures
open CodeUnits JvmDescriptors

inductive JType
  | void | boolean | byte | short | char | int | long | float | double
  | var (name : List Char)
  | array (elem : JType)
  | cls (jvm : List Char) (args : List JType)
  | star
  | upper (t : JType)
  | lower (t : JType)

structure JParam where
  name : List Char
  bounds : List JType

structure ClassSig where
  tparams : List JParam
  supers : List JType

structure MethodSig where
  tparams : List JParam
  params : List JType
  ret : JType

abbrev Bytes := List UInt8

def eat (c : Char) : Bytes → Option Bytes
  | [] => none
  | b :: s => if b = JvmDescriptors.byte c then some s else none

/-- An ASCII letter or digit, `_` or `$`. -/
def isWord (n : ℕ) : Bool :=
  (48 ≤ n && n ≤ 57) || (65 ≤ n && n ≤ 90) || (97 ≤ n && n ≤ 122) || n == 95 || n == 36

def ident (s : Bytes) : Option (List Char × Bytes) :=
  if s.takeWhile (fun b => isWord (code b)) = [] then none
  else some ((s.takeWhile fun b => isWord (code b)).map fun b => Char.ofNat b.toNat,
    s.dropWhile fun b => isWord (code b))

/-- The letters of `void` and the primitive types. -/
def letterType (b : UInt8) : Option JType :=
  [(JvmDescriptors.byte 'V', JType.void), (JvmDescriptors.byte 'Z', .boolean),
    (JvmDescriptors.byte 'B', .byte), (JvmDescriptors.byte 'C', .char),
    (JvmDescriptors.byte 'I', .int), (JvmDescriptors.byte 'J', .long),
    (JvmDescriptors.byte 'F', .float), (JvmDescriptors.byte 'D', .double),
    (JvmDescriptors.byte 'S', .short)].lookup b

mutual

def parseJavaType : ℕ → Bytes → Option (JType × Bytes)
  | 0, _ => none
  | _ + 1, [] => none
  | n + 1, b :: s =>
      match letterType b with
      | some t => some (t, s)
      | none => parseRef n (b :: s)

def parseRef : ℕ → Bytes → Option (JType × Bytes)
  | 0, _ => none
  | _ + 1, [] => none
  | n + 1, b :: s =>
      if b = JvmDescriptors.byte 'T' then do
        let (name, s) ← ident s
        let s ← eat ';' s
        some (.var name, s)
      else if b = JvmDescriptors.byte '[' then do
        let (t, s) ← parseJavaType n s
        some (.array t, s)
      else if b = JvmDescriptors.byte 'L' then parseClass n (b :: s)
      else if b = JvmDescriptors.byte '*' then some (.star, s)
      else if b = JvmDescriptors.byte '+' then do
        let (t, s) ← parseRef n s
        some (.upper t, s)
      else if b = JvmDescriptors.byte '-' then do
        let (t, s) ← parseRef n s
        some (.lower t, s)
      else none

def parseClass : ℕ → Bytes → Option (JType × Bytes)
  | 0, _ => none
  | n + 1, s => do
      let s ← eat 'L' s
      parseSegments n [] s

/-- The loop of `parse_class`: the name up to the first type arguments. -/
def parseSegments : ℕ → List Char → Bytes → Option (JType × Bytes)
  | 0, _, _ => none
  | n + 1, jvm, s => do
      let (part, s) ← ident s
      let jvm := jvm ++ part
      match s with
      | [] => none
      | b :: rest =>
          if b = JvmDescriptors.byte '/' then parseSegments n (jvm ++ ['/']) rest
          else if b = JvmDescriptors.byte '.' then parseSegments n (jvm ++ ['$']) rest
          else if b = JvmDescriptors.byte '<' then do
            let (args, s) ← parseTypeArgs n s
            parseInner n jvm args s
          else if b = JvmDescriptors.byte ';' then some (.cls jvm [], rest)
          else none

/-- The loop after the first type arguments. -/
def parseInner : ℕ → List Char → List JType → Bytes → Option (JType × Bytes)
  | 0, _, _, _ => none
  | n + 1, jvm, args, s =>
      match eat '.' s with
      | some s => do
          let (part, s) ← ident s
          let jvm := jvm ++ '$' :: part
          if s.head? = some (JvmDescriptors.byte '<') then do
            let (args, s) ← parseTypeArgs n s
            parseInner n jvm args s
          else parseInner n jvm args s
      | none => do
          let s ← eat ';' s
          some (.cls jvm args, s)

def parseTypeArgs : ℕ → Bytes → Option (List JType × Bytes)
  | 0, _ => none
  | n + 1, s => do
      let s ← eat '<' s
      parseArgs n [] s

/-- The loop of `parse_type_args`, up to the closing bracket. -/
def parseArgs : ℕ → List JType → Bytes → Option (List JType × Bytes)
  | 0, _, _ => none
  | n + 1, args, s =>
      match eat '>' s with
      | some s => some (args, s)
      | none => do
          let (arg, s) ← parseTypeArg n s
          parseArgs n (args ++ [arg]) s

def parseTypeArg : ℕ → Bytes → Option (JType × Bytes)
  | 0, _ => none
  | _ + 1, [] => none
  | n + 1, b :: s =>
      if b = JvmDescriptors.byte '*' then some (.star, s)
      else if b = JvmDescriptors.byte '+' then do
        let (t, s) ← parseRef n s
        some (.upper t, s)
      else if b = JvmDescriptors.byte '-' then do
        let (t, s) ← parseRef n s
        some (.lower t, s)
      else parseRef n (b :: s)

end

/-- The bound that may follow the first colon. -/
def parseFirstBound (n : ℕ) (s : Bytes) : Option (List JType × Bytes) :=
  if s.head? = some (JvmDescriptors.byte 'L') ∨ s.head? = some (JvmDescriptors.byte 'T') ∨
      s.head? = some (JvmDescriptors.byte '[') then do
    let (t, s) ← parseRef n s
    some ([t], s)
  else some ([], s)

/-- The bounds that follow a colon each. -/
def parseBounds : ℕ → List JType → Bytes → Option (List JType × Bytes)
  | 0, _, _ => none
  | n + 1, bounds, s =>
      match eat ':' s with
      | some s => do
          let (t, s) ← parseRef n s
          parseBounds n (bounds ++ [t]) s
      | none => some (bounds, s)

def parseTparamsLoop : ℕ → List JParam → Bytes → Option (List JParam × Bytes)
  | 0, _, _ => none
  | n + 1, names, s =>
      match eat '>' s with
      | some s => some (names, s)
      | none => do
          let (name, s) ← ident s
          let s ← eat ':' s
          let (bounds, s) ← parseFirstBound n s
          let (bounds, s) ← parseBounds n bounds s
          parseTparamsLoop n (names ++ [⟨name, bounds⟩]) s

def parseTparams (n : ℕ) (s : Bytes) : Option (List JParam × Bytes) :=
  match eat '<' s with
  | some s => parseTparamsLoop n [] s
  | none => some ([], s)

def parseSupers : ℕ → List JType → Bytes → Option (List JType)
  | 0, _, _ => none
  | n + 1, supers, s =>
      if s = [] then some supers
      else do
        let (t, s) ← parseClass n s
        parseSupers n (supers ++ [t]) s

def parseClassSig (n : ℕ) (s : Bytes) : Option ClassSig := do
  let (tparams, s) ← parseTparams n s
  let supers ← parseSupers n [] s
  some ⟨tparams, supers⟩

def parseFieldSig (n : ℕ) (s : Bytes) : Option JType := do
  let (t, s) ← parseJavaType n s
  if s = [] then some t else none

def parseParams : ℕ → List JType → Bytes → Option (List JType × Bytes)
  | 0, _, _ => none
  | n + 1, params, s =>
      match eat ')' s with
      | some s => some (params, s)
      | none => do
          let (t, s) ← parseJavaType n s
          parseParams n (params ++ [t]) s

/-- What follows the result is not looked at. -/
def parseMethodSig (n : ℕ) (s : Bytes) : Option MethodSig := do
  let (tparams, s) ← parseTparams n s
  let s ← eat '(' s
  let (params, s) ← parseParams n [] s
  let (ret, _) ← parseJavaType n s
  some ⟨tparams, params, ret⟩

end ScalaRs.JavaSignatures
