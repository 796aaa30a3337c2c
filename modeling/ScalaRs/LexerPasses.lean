import ScalaRs.Lexer

/-! # The passes over the tokens

They decide which line breaks separate statements, and drop commas and semicolons that do
not count. -/
namespace ScalaRs.Lexing

inductive Region where
  | paren | bracket | brace
deriving DecidableEq

/-- The regions that are open after a token, the innermost first. -/
def regionsAfter (regions : List Region) : TokenKind → List Region
  | .lParen => .paren :: regions
  | .lBracket => .bracket :: regions
  | .lBrace => .brace :: regions
  | .rParen | .rBracket | .rBrace => regions.tail
  | _ => regions

def canEndStatement : TokenKind → Bool
  | .ident _ | .intLit _ | .longLit _ | .floatLit _ | .doubleLit _ | .charLit _ | .stringLit _
  | .interpEnd _ | .symbolLit _ | .thisKw | .nullKw | .trueKw | .falseKw | .returnKw | .underscore
  | .typeKw | .rParen | .rBracket | .rBrace => true
  | _ => false

def canBeginStatement : TokenKind → Bool
  | .eof | .catchKw | .elseKw | .extendsKw | .finallyKw | .forSomeKw | .matchKw | .withKw | .yieldKw
  | .comma | .semi | .newline | .dot | .colon | .equals | .arrow | .leftArrow | .subtype
  | .supertype | .viewBound | .hash | .rParen | .rBracket | .rBrace | .lBracket => false
  | _ => true

def Token.isNewline (t : Token) : Bool := t.kind = .newline

/-- `;` followed by `else` is `else`. -/
def dropSemiBeforeElse : List Token → List Token
  | [] => []
  | t :: ts =>
    let next := (ts.find? fun n => !n.isNewline).map Token.kind
    if t.kind = .semi ∧ next = some .elseKw then dropSemiBeforeElse ts
    else t :: dropSemiBeforeElse ts

/-- The loop over the tokens that are left; `out` holds those put out, the last first, and
`fuel` is at least their number. -/
def dropNewlinesLoop : ℕ → List Token → List Region → List Token → List Token
  | 0, _, _, out => out.reverse
  | _ + 1, [], _, out => out.reverse
  | fuel + 1, t :: ts, regions, out =>
    let regions := regionsAfter regions t.kind
    if !t.isNewline then dropNewlinesLoop fuel ts regions (t :: out)
    else
      let breaks := (t :: ts).takeWhile Token.isNewline
      match (t :: ts).dropWhile Token.isNewline with
      -- a line break in parentheses or brackets never separates
      | next :: rest =>
        let nextRegions := regionsAfter regions next.kind
        if regions.head? = some .paren ∨ regions.head? = some .bracket then
          dropNewlinesLoop fuel rest nextRegions ({ next with nlBefore := true } :: out)
        else
          let before := out.find? fun t => !t.isNewline
          if before.any (canEndStatement ·.kind) ∧ canBeginStatement next.kind then
            let kept := { t with blankLine := breaks.any Token.blankLine }
            dropNewlinesLoop fuel (next :: rest) regions (kept :: out)
          else dropNewlinesLoop fuel rest nextRegions ({ next with nlBefore := true } :: out)
      | [] => dropNewlinesLoop fuel [] regions out

def dropNonSeparatingNewlines (tokens : List Token) : List Token :=
  dropNewlinesLoop (tokens.length + 1) tokens [] []

/-- A comma before a line break and the `)` or `]` that closes the group. -/
def isTrailingComma (t : Token) (next : Option Token) : Bool :=
  t.kind = .comma &&
    next.any fun n => n.nlBefore && (n.kind = .rParen || n.kind = .rBracket)

def dropTrailingCommas : List Token → List Token
  | [] => []
  | t :: ts =>
    if isTrailingComma t ts.head? then dropTrailingCommas ts else t :: dropTrailingCommas ts

def postProcess (tokens : List Token) : List Token :=
  dropTrailingCommas (dropNonSeparatingNewlines (dropSemiBeforeElse tokens))

/-- The tokens and diagnostics of a text, when `fuel` turns suffice. -/
def tokenizeOpts [CharTables] (fuel : ℕ) (src : List Char) (fileIndex : ℕ)
    (unicodeEscapesRaw : Bool) : Option (List Token × List Diagnostic) :=
  ((Lexer.start src fileIndex unicodeEscapesRaw).tokenizeAll fuel).map fun s =>
    (postProcess s.tokens, s.diags)

def tokenize [CharTables] (fuel : ℕ) (src : List Char) (fileIndex : ℕ) :
    Option (List Token × List Diagnostic) :=
  tokenizeOpts fuel src fileIndex false

end ScalaRs.Lexing
