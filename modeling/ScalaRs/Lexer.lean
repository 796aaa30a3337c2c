import ScalaRs.LexerEscapes

/-! # The lexer

One token or one literal part of an interpolated string at a time. A lexing function
answers `none` where the source would panic. -/
namespace ScalaRs.Lexing
open WhileLoops

/-! ## Comments and operators -/

/-- What a block comment takes of the text, nested `depth` deep, and whether it is
terminated. -/
def blockComment : ℕ → List Char → ℕ × Bool
  | 0, _ => (0, true)
  | _ + 1, [] => (0, false)
  | depth + 1, '/' :: '*' :: cs =>
    let r := blockComment (depth + 2) cs
    (r.1 + 2, r.2)
  | depth + 1, '*' :: '/' :: cs =>
    let r := blockComment depth cs
    (r.1 + 2, r.2)
  | depth + 1, _ :: cs =>
    let r := blockComment (depth + 1) cs
    (r.1 + 1, r.2)

/-- The characters of an operator that follow `last`. -/
def operatorRest : Option Char → List Char → List Char
  | _, [] => []
  | last, c :: cs =>
    if !isOpChar c then []
    -- XML closers do not glue to the next tag or entity
    else if last = some '>' ∧ (c = '<' ∨ c = '&') then []
    -- what follows starts a comment
    else if last.isSome ∧ c = '/' ∧ (cs.head? = some '/' ∨ cs.head? = some '*') then []
    else c :: operatorRest (some c) cs

def operatorKind (text : List Char) : TokenKind :=
  if text = "=>".toList ∨ text = "⇒".toList then .arrow
  else if text = "<-".toList ∨ text = "←".toList then .leftArrow
  else if text = "<:".toList then .subtype
  else if text = ">:".toList then .supertype
  else if text = "<%".toList then .viewBound
  else if text = "=".toList then .equals
  else if text = ":".toList then .colon
  else if text = "@".toList then .at
  else if text = "#".toList then .hash
  else .ident text

/-! ## Numbers -/

inductive NumSuffix where
  | none | long | float | doubleForced
deriving DecidableEq

def isNumSuffix (c : Char) : Bool := c ∈ ['l', 'L', 'f', 'F', 'd', 'D']

def isDigitOrUnderscore (c : Char) : Bool := isAsciiDigit c || c = '_'

/-- `u64::from_str_radix`. -/
def parseU64 (radix : ℕ) (digits : List Char) : Option ℕ :=
  let isDigit := if radix = 16 then isAsciiHexdigit else isAsciiDigit
  let value := digits.foldl (fun n c => radix * n + hexValue c) 0
  if digits ≠ [] ∧ digits.all isDigit ∧ value < 2 ^ 64 then some value else none

/-- The texts that begin with a digit and that `f64::from_str` accepts. -/
def isFloatText (body : List Char) : Bool :=
  let afterInt := body.dropWhile isAsciiDigit
  let afterFraction := match afterInt with
    | '.' :: cs => cs.dropWhile isAsciiDigit
    | cs => cs
  match afterFraction with
  | [] => true
  | c :: cs =>
    let digits := match cs with
      | '+' :: ds => ds
      | '-' :: ds => ds
      | ds => ds
    (c = 'e' || c = 'E') && digits ≠ [] && digits.all isAsciiDigit

namespace Lexer
variable (s : Lexer)

def skipLineComment : Lexer := s.skipWhile (· ≠ '\n')

def skipBlockComment : Lexer :=
  let r := blockComment 1 (s.rest.drop 2)
  let after := s.skip (r.1 + 2)
  if r.2 then after else after.errorFrom (asU32 s.pos) "unterminated block comment"

def lexOperator : Lexer :=
  if s.peek = some '<' ∧ (s.peekAt 1 = some '!' ∨ s.peekAt 1 = some '?') then
    s.bump.emitFrom (asU32 s.pos) (.ident ['<'])
  else
    let text := operatorRest none s.rest
    (s.skip text.length).emitFrom (asU32 s.pos) (operatorKind text)

def eatNumSuffix : NumSuffix × Lexer :=
  match s.peek with
  | some 'l' | some 'L' => (.long, s.bump)
  | some 'f' | some 'F' => (.float, s.bump)
  | some 'd' | some 'D' => (.doubleForced, s.bump)
  | _ => (.none, s)

def emitIntFromRadix (digits : List Char) (suffix : NumSuffix) (lo : UInt32) : Lexer :=
  match suffix with
  | .long =>
    match parseU64 16 digits with
    | some v => s.emitFrom lo (.longLit (BitVec.ofNat 64 v))
    | none => s.errorFrom lo "hex literal out of range"
  | .none =>
    match parseU64 16 digits with
    | some v =>
      if v ≤ 2 ^ 32 - 1 then s.emitFrom lo (.intLit (BitVec.ofNat 32 v))
      else s.errorFrom lo "hex literal out of range"
    | none => s.errorFrom lo "hex literal out of range"
  | _ => s.errorFrom lo "invalid suffix on hex literal"

def lexHexNumber : Lexer :=
  let digits := s.skip 2
  let after := digits.skipWhile fun c => isAsciiHexdigit c || c = '_'
  if after.pos = digits.pos then after.errorFrom (asU32 s.pos) "invalid hex literal"
  else
    let raw := (after.textSince digits).filter (· ≠ '_')
    let (suffix, after) := after.eatNumSuffix
    after.emitIntFromRadix raw suffix (asU32 s.pos)

/-- The fraction, if a digit follows the point. -/
def skipFraction : Lexer :=
  if s.peek = some '.' ∧ (s.peekAt 1).any isAsciiDigit then s.bump.skipWhile isDigitOrUnderscore
  else s

def skipExponent : Lexer :=
  if s.peek = some 'e' ∨ s.peek = some 'E' then
    let s := s.bump
    let s := if s.peek = some '+' ∨ s.peek = some '-' then s.bump else s
    s.skipWhile isDigitOrUnderscore
  else s

/-- The token of a decimal number with these digits, which begins at `lo`. -/
def emitNumber (body : List Char) (suffix : NumSuffix) (lo : UInt32) : Lexer :=
  match suffix with
  | .long =>
    match parseU64 10 body with
    | some v =>
      if v ≤ 2 ^ 63 then s.emitFrom lo (.longLit (BitVec.ofNat 64 v))
      else (s.errorFrom lo "integer number too large").emitFrom lo (.longLit 0)
    | none => (s.errorFrom lo "integer number too large").emitFrom lo (.longLit 0)
  | .float =>
    if isFloatText body then s.emitFrom lo (.floatLit body)
    else s.errorFrom lo "invalid float literal"
  | .doubleForced =>
    if isFloatText body then s.emitFrom lo (.doubleLit body)
    else s.errorFrom lo "invalid double literal"
  | .none =>
    if '.' ∈ body ∨ 'e' ∈ body ∨ 'E' ∈ body then
      if isFloatText body then s.emitFrom lo (.doubleLit body)
      else s.errorFrom lo "invalid double literal"
    else
      match parseU64 10 body with
      | some v =>
        if v ≤ 2 ^ 31 then s.emitFrom lo (.intLit (BitVec.ofNat 32 v))
        else (s.errorFrom lo "integer number too large").emitFrom lo (.intLit 0)
      | none => (s.errorFrom lo "integer number too large").emitFrom lo (.intLit 0)

def lexNumber : Lexer :=
  if s.startsWith "0x" ∨ s.startsWith "0X" then s.lexHexNumber
  else
    let digits := ((s.skipWhile isDigitOrUnderscore).skipFraction).skipExponent
    let (suffix, after) := digits.eatNumSuffix
    let text := after.textSince s
    let body := (text.reverse.dropWhile isNumSuffix).reverse.filter (· ≠ '_')
    after.emitNumber body suffix (asU32 s.pos)

/-! ## Characters, symbols and backquoted names -/

def unterminatedCharacter (lo : UInt32) : Lexer := s.errorFrom lo "unterminated character literal"

/-- The closing quote of a character literal. -/
def closeCharacter (c : Char) (lo : UInt32) : Lexer :=
  if s.peek = some '\'' then s.bump.emitFrom lo (.charLit c) else s.unterminatedCharacter lo

def lexCharOrSymbol [CharTables] : Lexer :=
  let lo := asU32 s.pos
  let s := s.bump
  match s.peek with
  | none => s.unterminatedCharacter lo
  | some c =>
    if isIdStart c then
      if s.bump.peek = some '\'' then s.bump.closeCharacter c lo
      else
        let after := s.skipWhile isIdPart
        after.emitFrom lo (.symbolLit (after.textSince s))
    else if c = '\\' then
      match s.bump.readEscape lo with
      | (some ch, s) => s.closeCharacter ch lo
      | (none, s) => s
    else s.bump.closeCharacter c lo

/-- A name being read, after its opening backquote. -/
structure BacktickScan where
  text : List Char
  lexer : Lexer

def backtickBody (lo : UInt32) (scan : BacktickScan) : Option (Step Lexer BacktickScan) :=
  let s := scan.lexer
  match s.peek with
  | none => some (.done (s.errorFrom lo "unterminated backquoted identifier"))
  | some c =>
    if c = '`' then
      if scan.text = [] then some (.done (s.bump.errorFrom lo "empty quoted identifier"))
      else some (.done (s.bump.emitFrom lo (.ident scan.text)))
    else if c = '\n' ∨ c = '\r' ∨ c = '\x0c' then
      some (.done (s.errorFrom lo "unterminated backquoted identifier"))
    else if c = '\\' then
      let escapeLo := asU32 s.pos
      let s := s.bump
      if s.peek = some '$' then
        some (.done (s.error escapeLo (asU32 s.pos + 1) "invalid escape \\$".toList))
      else
        match s.readEscape escapeLo with
        | (some ch, s) => some (.next ⟨scan.text ++ [ch], s⟩)
        | (none, s) => some (.done s)
    else some (.next ⟨scan.text ++ [c], s.bump⟩)

def lexBacktick : Option Lexer :=
  run (backtickBody (asU32 s.pos)) (s.rest.length + 1) ⟨[], s.bump⟩

/-! ## Strings -/

/-- A string being read, after its opening quotes. -/
structure StringScan where
  buf : List Char
  lexer : Lexer

def singleStringBody (scan : StringScan) : Option (Step (Option (List Char) × Lexer) StringScan) :=
  let s := scan.lexer
  match s.peek with
  | none => some (.done (none, s))
  | some c =>
    if c = '"' then some (.done (some scan.buf, s.bump))
    else if c = '\n' then some (.done (none, s))
    else if c = '\\' then
      match s.bump.readEscape (asU32 s.pos) with
      | (some ch, s) => some (.next ⟨scan.buf ++ [ch], s⟩)
      | (none, s) => some (.done (none, s))
    else some (.next ⟨scan.buf ++ [c], s.bump⟩)

def readSingleString : Option (Option (List Char) × Lexer) :=
  run singleStringBody (s.rest.length + 1) ⟨[], s⟩

/-- What a string in triple quotes holds, which begins with `rest`, and what it takes of the
text: extra quotes before the closing ones are part of it. -/
def tripleString : List Char → Option (List Char × ℕ)
  | [] => none
  | c :: cs =>
    if "\"\"\"".toList.isPrefixOf (c :: cs) then
      let quotes := (cs.drop 2).takeWhile (· = '"')
      some (quotes, 3 + quotes.length)
    else (tripleString cs).map fun r => (c :: r.1, r.2 + 1)

def readTripleString : Option (List Char) × Lexer :=
  match tripleString s.rest with
  | none => (none, s.skip s.rest.length)
  | some (buf, n) => (some buf, s.skip n)

/-- A finished literal part of an interpolation, as the interpolator receives it. -/
def finishInterpPart (buf : List Char) (lo : UInt32) : List Char × Lexer :=
  match s.interpStack with
  | [] => (buf, s)
  | frame :: _ =>
    match frame.escapes, frame.triple with
    | .unicode, _ =>
      let r := s.processUnicode buf lo
      (r.1, r.2.unicodeEscapeDeprecation buf r.1 lo
        "Unicode escapes in raw interpolations are deprecated; use literal characters instead"
        .typer)
    | .standard, true => s.processEscapes buf lo
    | _, _ => (buf, s)

/-- The end of an interpolated string, whose closing quotes have been read. -/
def endInterp (buf : List Char) (lo : UInt32) : Lexer :=
  let r := s.finishInterpPart buf lo
  (r.2.emitFrom lo (.interpEnd r.1)).popFrame

/-- A literal part that ends before a hole. -/
def endPart (buf : List Char) (lo : UInt32) : Lexer :=
  let r := s.finishInterpPart buf lo
  r.2.emitFrom lo (.stringPart r.1)

/-- A literal part being read. -/
structure InterpScan where
  buf : List Char
  /-- A `\"` kept the literal open. -/
  seenEscapedQuote : Bool
  lexer : Lexer

def unterminatedInterp (seenEscapedQuote : Bool) : String :=
  if seenEscapedQuote then
    "unclosed string literal; note that `\\\"` no longer closes single-quoted interpolated " ++
      "string literals since 2.13.6, you can use a triple-quoted string instead"
  else "unterminated interpolated string"

def invalidInterpolation (what : List Char) : List Char :=
  "invalid string interpolation ".toList ++ what ++
    ", expected: $$, $\", $identifier or $\x7bexpression\x7d".toList

/-- At a `$` in a literal part. -/
def interpDollar [CharTables] (triple : Bool) (lo : UInt32) (scan : InterpScan) :
    Option (Step Lexer InterpScan) :=
  let s := scan.lexer
  if s.startsWith "$$" ∨ s.startsWith "$\"" then
    some (.next { scan with buf := scan.buf ++ (s.peekAt 1).toList, lexer := s.skip 2 })
  else if s.startsWith "$_" then
    some (.done (((s.endPart scan.buf lo).bump).lexSingle .underscore))
  else if s.startsWith "$\x7b" then
    -- the hole is a block: its braces are ordinary tokens
    let s := (s.endPart scan.buf lo).bump
    let s := (s.addBrace 1).lexSingle .lBrace
    some (.done (s.setHoleBrace s.braceDepth))
  else if (s.peekAt 1).any isInterpIdStart then
    let id := (s.endPart scan.buf lo).bump
    let after := id.bump.skipWhile isInterpIdPart
    -- `&self.src[id_lo as usize..self.pos]`
    (after.slice (asU32 id.pos).toNat).map fun name =>
      .done (after.emitFrom (asU32 id.pos) (.interpId name))
  else
    -- the `$` is kept as a literal
    let dollar := asU32 s.pos
    let after := s.bump
    let what := match after.peek with
      | some c => if triple ∧ after.startsWith "\"\"\"" then ['$'] else ['$', c]
      | none => ['$']
    let after := after.error dollar (dollar + 1) (invalidInterpolation what)
    some (.next { scan with buf := scan.buf ++ ['$'], lexer := after })

/-- At a backslash in a literal part. -/
def interpBackslash (triple : Bool) (scan : InterpScan) : Option (Step Lexer InterpScan) :=
  let s := scan.lexer
  let escapes := (s.interpStack.head?.map InterpFrame.escapes).getD .verbatim
  let after := s.bump
  let seen := scan.seenEscapedQuote || after.peek = some '"'
  if escapes = .standard ∧ !triple then
    match after.readEscape (asU32 s.pos) with
    | (some ch, s) => some (.next ⟨scan.buf ++ [ch], seen, s⟩)
    | (none, s) => some (.done s)
  else if !triple ∧ (after.peek = some '"' ∨ after.peek = some '\\') then
    -- copied as a pair, so that `\"` does not close the literal
    some (.next ⟨scan.buf ++ '\\' :: after.peek.toList, seen, after.bump⟩)
  else some (.next { scan with buf := scan.buf ++ ['\\'], lexer := after })

def interpBody [CharTables] (triple : Bool) (lo : UInt32) (scan : InterpScan) :
    Option (Step Lexer InterpScan) :=
  let s := scan.lexer
  match s.peek with
  | none =>
    some (.done ((s.errorFrom lo (unterminatedInterp scan.seenEscapedQuote)).popFrame))
  | some c =>
    if !triple ∧ c = '\n' then
      some (.done ((s.errorFrom lo (unterminatedInterp scan.seenEscapedQuote)).popFrame))
    else if triple ∧ s.startsWith "\"\"\"" then
      let quotes := ((s.rest.drop 3).takeWhile (· = '"'))
      some (.done ((s.skip (3 + quotes.length)).endInterp (scan.buf ++ quotes) lo))
    else if !triple ∧ c = '"' then some (.done (s.bump.endInterp scan.buf lo))
    else if c = '$' then interpDollar triple lo scan
    else if c = '\\' then interpBackslash triple scan
    else some (.next { scan with buf := scan.buf ++ [c], lexer := s.bump })

def lexInterpString [CharTables] : Option Lexer :=
  match s.interpStack with
  | [] => some s
  | frame :: _ =>
    run (interpBody frame.triple (asU32 s.pos)) (s.rest.length + 1) ⟨[], false, s⟩

def interpEscapes (interpolator : List Char) : InterpEscapes :=
  if interpolator = ['s'] ∨ interpolator = ['f'] then .standard
  else if interpolator = "raw".toList ∧ !s.unicodeEscapesRaw then .unicode
  else .verbatim

/-- The content of a literal in triple quotes that opens at `lo`. -/
def emitTriple (content : List Char) (lo : UInt32) : Lexer :=
  if s.unicodeEscapesRaw then s.emitFrom lo (.stringLit content)
  else
    let r := s.processUnicode content lo
    (r.2.unicodeEscapeDeprecation content r.1 (lo + 3)
      "Unicode escapes in triple quoted strings are deprecated; use the literal character instead"
      .parser).emitFrom lo (.stringLit r.1)

def lexString [CharTables] (interpolator : Option (List Char)) : Option Lexer :=
  let lo := asU32 s.pos
  let triple := s.startsWith "\"\"\""
  let opened := if triple then s.skip 3 else s.bump
  match interpolator with
  | some text =>
    ((opened.emitFrom lo (.interpStart text triple)).pushFrame
      { triple, holeBrace := -1, escapes := s.interpEscapes text }).lexInterpString
  | none =>
    if triple then
      match opened.readTripleString with
      | (some content, s) => some (s.emitTriple content lo)
      | (none, s) => some (s.errorFrom lo "unterminated triple-quoted string")
    else
      opened.readSingleString.map fun
        | (some content, s) => s.emitFrom lo (.stringLit content)
        | (none, s) => s.errorFrom lo "unterminated string literal"

/-! ## Names -/

def lexIdentOrKw [CharTables] : Option Lexer :=
  let first := if s.peek.any isIdStart then s.bump else s
  let letters := first.skipWhile isIdPart
  let text := letters.textSince s
  -- a lone `_` does not swallow the operator characters that follow it
  let after :=
    if 1 < byteLength text ∧ text.getLast? = some '_' then letters.skipWhile isOpChar else letters
  let text := after.textSince s
  if after.peek = some '"' then after.lexString (some text)
  else some (after.emitFrom (asU32 s.pos) ((keywordKind text).getD (.ident text)))

/-! ## One step -/

def closesHole : Bool :=
  match s.interpStack with
  | [] => false
  | frame :: _ => !frame.holeBrace.slt 0 && s.braceDepth = frame.holeBrace

def lexRBrace : Lexer :=
  let after := (s.addBrace (-1)).lexSingle .rBrace
  if s.closesHole then after.setHoleBrace (-1) else after

def lexUnderscore [CharTables] : Option Lexer :=
  let after := s.bump
  if after.peek.any isIdPart ∨ after.peek.any isOpChar then
    -- `self.pos = lo as usize`
    (after.seek (asU32 s.pos).toNat).bind fun s => s.lexIdentOrKw
  else some (after.emitFrom (asU32 s.pos) .underscore)

/-- A character that is a token unless an operator goes on after it. -/
def lexSingleOrOperator (kind : TokenKind) : Lexer :=
  if (s.peekAt 1).any isOpChar then s.lexOperator else s.lexSingle kind

def unexpectedCharacter [CharTables] (c : Char) : Lexer :=
  s.bump.error (asU32 s.pos) (asU32 s.bump.pos)
    ("unexpected character ".toList ++ CharTables.debug c)

def lexNormal [CharTables] : Option Lexer :=
  match s.peek with
  | none => some s
  | some c =>
    if c = ' ' ∨ c = '\t' ∨ c = '\r' ∨ c = '\x0c' then some s.bump
    else if c = '\n' then some (s.lexSingle .newline)
    else if c = '/' then
      if s.startsWith "//" then some s.skipLineComment
      else if s.startsWith "/*" then some s.skipBlockComment
      else some s.lexOperator
    else if c = '"' then s.lexString none
    else if c = '\'' then some s.lexCharOrSymbol
    else if c = '`' then s.lexBacktick
    else if isAsciiDigit c then some s.lexNumber
    else if c = '(' then some (s.lexSingle .lParen)
    else if c = ')' then some (s.lexSingle .rParen)
    else if c = '[' then some (s.lexSingle .lBracket)
    else if c = ']' then some (s.lexSingle .rBracket)
    else if c = '{' then some ((s.addBrace 1).lexSingle .lBrace)
    else if c = '}' then some s.lexRBrace
    else if c = ',' then some (s.lexSingle .comma)
    else if c = '.' then some (s.lexSingle .dot)
    else if c = ';' then some (s.lexSingle .semi)
    else if c = '_' then s.lexUnderscore
    else if c = '@' then some (s.lexSingleOrOperator .at)
    else if c = '#' then some (s.lexSingleOrOperator .hash)
    else if isIdStart c then s.lexIdentOrKw
    else if isOpChar c then some s.lexOperator
    else some (s.unexpectedCharacter c)

/-- The innermost interpolated string is in its string part. -/
def inStringPart : Bool := s.interpStack.head?.any fun frame => frame.holeBrace.slt 0

/-- One turn of the loop of `tokenize_all`. -/
def tokenizeBody [CharTables] (s : Lexer) : Option (Step Lexer Lexer) :=
  if s.inStringPart then s.lexInterpString.map .next
  else if s.rest = [] then some (.done s)
  else s.lexNormal.map .next

/-- `tokenize_all`, when `fuel` turns suffice. -/
def tokenizeAll [CharTables] (fuel : ℕ) : Option Lexer :=
  (run tokenizeBody fuel s).map fun s => s.emitFrom (asU32 s.pos) .eof

end Lexer
end ScalaRs.Lexing
