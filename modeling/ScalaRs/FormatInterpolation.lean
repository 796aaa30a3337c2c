import ScalaRs.FormatStrings

/-! # The f interpolator

The format string for the parts of an `f` interpolation: the specifiers at the front of the parts
are checked and written again, a part without one gets `%s`, and the rest of a part is kept. -/
namespace ScalaRs.FormatInterpolation

/-- A width and a precision are `u32` numbers. -/
structure FSpec where
  flags : List Char
  width : Option ℕ
  precision : Option ℕ
  conv : Char
deriving DecidableEq

def FSpec.pattern (spec : FSpec) : List Char :=
  '%' :: (spec.flags ++ (match spec.width with
    | some w => Nat.toDigits 10 w
    | none => []) ++ (match spec.precision with
    | some p => '.' :: Nat.toDigits 10 p
    | none => []) ++ [spec.conv])

inductive FConvKind
  | general | character | integral | floating | unsupported
deriving DecidableEq

/-- Java `Formatter` conversion kind used for type checks. -/
def FSpec.kind (spec : FSpec) : FConvKind :=
  if spec.conv ∈ ['b', 'B', 'h', 'H', 's', 'S'] then .general
  else if spec.conv ∈ ['c', 'C'] then .character
  else if spec.conv ∈ ['d', 'o', 'x', 'X'] then .integral
  else if spec.conv ∈ ['e', 'E', 'f', 'g', 'G', 'a', 'A'] then .floating
  else .unsupported

inductive FInterpError
  | unsupported (text : String)
  | message (text : String)
deriving DecidableEq

def isEscape (c : Char) : Bool := c ∈ ['%', 'n', 'N']

def checkLiteral : List Char → Except FInterpError (List Char)
  | [] => .ok []
  | c :: s =>
      if c = '%' then
        match s with
        | n :: rest =>
            if isEscape n then do
              let out ← checkLiteral rest
              .ok ('%' :: n :: out)
            else .error (.message
              "f interpolator: stray % in string part (use %% for a literal percent)")
        | [] => .error (.message
            "f interpolator: stray % in string part (use %% for a literal percent)")
      else do
        let out ← checkLiteral s
        .ok (c :: out)

def isSpecFlag (c : Char) : Bool := c ∈ ['-', '#', '+', ' ', '0', ',', '(']

def u32Max : ℕ := 4294967295

/-- `n.saturating_mul(10).saturating_add(digit)` -/
def pushDigit (n : ℕ) (c : Char) : ℕ :=
  min (min (n * 10) u32Max + (c.toNat - '0'.toNat)) u32Max

def specNumber (digits : List Char) : ℕ := digits.foldl pushDigit 0

/-- The first UTF-8 byte of a character, read as a character. -/
def byteChar (c : Char) : Char := Char.ofNat ((String.utf8EncodeChar c).headD 0).toNat

def specWidth (s : List Char) : Option ℕ × List Char :=
  if s.takeWhile Char.isDigit = [] then (none, s)
  else (some (specNumber (s.takeWhile Char.isDigit)), s.dropWhile Char.isDigit)

def specPrecision (s : List Char) : Except FInterpError (Option ℕ × List Char) :=
  match s with
  | '.' :: t =>
      if t.takeWhile Char.isDigit = [] then
        .error (.message "f interpolator: expected precision digits after '.'")
      else .ok (some (specNumber (t.takeWhile Char.isDigit)), t.dropWhile Char.isDigit)
  | _ => .ok (none, s)

/-- The conversion character, which ends a specifier. -/
def specConv : List Char → Except FInterpError (Char × List Char)
  | [] => .error (.message "f interpolator: truncated conversion")
  | c :: after =>
      let conv := byteChar c
      if conv = 't' ∨ conv = 'T' then
        .error (.unsupported ("f interpolator: date/time conversion %" ++
          String.ofList [conv] ++ " is not supported"))
      else if conv.isAlpha then .ok (conv, after)
      else .error (.message ("f interpolator: illegal conversion %" ++ String.ofList [conv]))

def leadingSpec (part : List Char) : Except FInterpError (Option FSpec × List Char) :=
  match part with
  | '%' :: s =>
      if (s.head?.map isEscape).getD false then .ok (none, part)
      else if s.head? = some '<' then
        .error (.unsupported "f interpolator: relative argument index %< is not supported")
      else if (s.dropWhile Char.isDigit).head? = some '$' then
        .error (.unsupported "f interpolator: explicit argument index is not supported")
      else do
        let flags := s.takeWhile isSpecFlag
        let (width, s) := specWidth (s.dropWhile isSpecFlag)
        let (precision, s) ← specPrecision s
        let (conv, after) ← specConv s
        .ok (some ⟨flags, width, precision, conv⟩, after)
  | _ => .ok (none, part)

/-- What a part without a specifier gets. -/
def defaultSpec : FSpec := ⟨[], none, none, 's'⟩

def checkSpec (spec : FSpec) : Except FInterpError Unit :=
  if spec.kind = .unsupported then
    .error (.unsupported ("f interpolator: unsupported conversion %" ++ String.ofList [spec.conv]))
  else if spec.precision.isSome ∧
      spec.conv ∈ ['d', 'o', 'x', 'X', 'c', 'C', 'b', 'B', 'h', 'H'] then
    .error (.message ("f interpolator: precision not allowed for %" ++ String.ofList [spec.conv]))
  else .ok ()

/-- Parts beyond the holes are text. -/
def assembleText : List (List Char) → Except FInterpError (List Char)
  | [] => .ok []
  | p :: parts => do
      let text ← checkLiteral p
      let out ← assembleText parts
      .ok (text ++ out)

/-- The text for `nargs` holes, each with the part after it, and the specifiers. -/
def assembleHoles : ℕ → List (List Char) → Except FInterpError (List Char × List FSpec)
  | 0, parts => do
      let out ← assembleText parts
      .ok (out, [])
  | n + 1, parts => do
      let (spec, after) ← leadingSpec (parts.headD [])
      let spec := spec.getD defaultSpec
      checkSpec spec
      let text ← checkLiteral after
      let (out, specs) ← assembleHoles n parts.tail
      .ok (spec.pattern ++ text ++ out, spec :: specs)

/-- Build the `String.format` pattern and one spec per interpolator hole. -/
def assembleF (parts : List (List Char)) (nargs : ℕ) :
    Except FInterpError (List Char × List FSpec) :=
  match parts with
  | [] => .ok ([], [])
  | p :: parts => do
      let text ← checkLiteral p
      let (out, specs) ← assembleHoles nargs parts
      .ok (text ++ out, specs)

end ScalaRs.FormatInterpolation
