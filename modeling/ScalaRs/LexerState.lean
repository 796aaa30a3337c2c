import Mathlib.Data.BitVec
import ScalaRs.WhileLoops
import ScalaRs.TokenKinds
import ScalaRs.LexerCharacters

/-! # The state of the lexer

Positions count bytes; `rest` is the text from the current position on. -/
namespace ScalaRs.Lexing

def byteLength (cs : List Char) : ℕ := (cs.map Char.utf8Size).sum

/-- A text cut at a byte position, which has to be a character boundary. -/
def splitBytes : ℕ → List Char → Option (List Char × List Char)
  | 0, cs => some ([], cs)
  | _ + 1, [] => none
  | n + 1, c :: cs =>
    if c.utf8Size ≤ n + 1 then (splitBytes (n + 1 - c.utf8Size) cs).map fun p => (c :: p.1, p.2)
    else none

def asU32 (n : ℕ) : UInt32 := UInt32.ofNat n

/-- What an interpolator does with a backslash in its literal parts. -/
inductive InterpEscapes where
  /-- `s` and `f`. -/
  | standard
  /-- `raw`: unicode escapes alone. -/
  | unicode
  | verbatim
deriving DecidableEq

structure InterpFrame where
  triple : Bool
  /-- Brace depth at which the hole started; -1 if currently in the string part. -/
  holeBrace : BitVec 32
  escapes : InterpEscapes
deriving DecidableEq

structure Lexer where
  src : List Char
  rest : List Char
  pos : ℕ
  fileIndex : ℕ
  tokens : List Token
  diags : List Diagnostic
  /-- Brace depth in normal mode. -/
  braceDepth : BitVec 32
  /-- The innermost interpolated string comes first. -/
  interpStack : List InterpFrame
  unicodeEscapesRaw : Bool
deriving DecidableEq

namespace Lexer

def start (src : List Char) (fileIndex : ℕ) (unicodeEscapesRaw : Bool) : Lexer :=
  { src, rest := src, pos := 0, fileIndex, tokens := [], diags := [], braceDepth := 0,
    interpStack := [], unicodeEscapesRaw }

variable (s : Lexer)

def peek : Option Char := s.rest.head?

/-- Only asked after characters of one byte each. -/
def peekAt (offset : ℕ) : Option Char := s.rest[offset]?

def startsWith (t : String) : Bool := t.toList.isPrefixOf s.rest

/-- Past `n` characters, or to the end of the text. -/
def skip (n : ℕ) : Lexer :=
  { s with rest := s.rest.drop n, pos := s.pos + byteLength (s.rest.take n) }

def bump : Lexer := s.skip 1

def skipWhile (p : Char → Bool) : Lexer := s.skip (s.rest.takeWhile p).length

/-- `self.pos = p`, followed by reading at `p`. -/
def seek (p : ℕ) : Option Lexer :=
  (splitBytes p s.src).map fun cut => { s with rest := cut.2, pos := p }

/-- `&self.src[lo..self.pos]`. -/
def slice (lo : ℕ) : Option (List Char) :=
  (splitBytes lo s.src).bind fun cut => (splitBytes (s.pos - lo) cut.2).map Prod.fst

/-- The text between an earlier state of the lexer and this one. -/
def textSince (earlier : Lexer) : List Char :=
  earlier.rest.take (earlier.rest.length - s.rest.length)

/-- The line which ends at a position holds nothing but whitespace. -/
def endsBlankLine (at_ : UInt32) : Bool :=
  match splitBytes at_.toNat s.src with
  | none => false
  | some (before, _) =>
    (before.reverse.dropWhile fun c => c ∈ [' ', '\t', '\r', '\x0c']).head? = some '\n'

def emit (kind : TokenKind) (lo hi : UInt32) : Lexer :=
  { s with tokens := s.tokens ++
      [{ kind, span := ⟨lo, hi⟩, nlBefore := false,
         blankLine := kind = .newline && s.endsBlankLine lo }] }

def error (lo hi : UInt32) (msg : List Char) : Lexer :=
  { s with diags := s.diags ++ [Diagnostic.error s.fileIndex ⟨lo, hi⟩ msg] }

/-- An error that spans the text from `lo` to the current position. -/
def errorFrom (lo : UInt32) (msg : String) : Lexer := s.error lo (asU32 s.pos) msg.toList

/-- A token that spans the text from `lo` to the current position. -/
def emitFrom (lo : UInt32) (kind : TokenKind) : Lexer := s.emit kind lo (asU32 s.pos)

/-- A token of one character. -/
def lexSingle (kind : TokenKind) : Lexer := s.bump.emitFrom (asU32 s.pos) kind

def pushFrame (frame : InterpFrame) : Lexer := { s with interpStack := frame :: s.interpStack }

def popFrame : Lexer := { s with interpStack := s.interpStack.tail }

/-- Set where the hole of the innermost interpolated string started. -/
def setHoleBrace (depth : BitVec 32) : Lexer :=
  match s.interpStack with
  | [] => s
  | frame :: frames => { s with interpStack := { frame with holeBrace := depth } :: frames }

def addBrace (n : BitVec 32) : Lexer := { s with braceDepth := s.braceDepth + n }

/-- A unicode escape that nsc deprecates: reported at the first character which the
processing changed. -/
def unicodeEscapeDeprecation (raw processed : List Char) (contentLo : UInt32) (msg : String)
    (phase : Phase) : Lexer :=
  if raw = processed then s
  else
    let same := ((raw.zip processed).takeWhile fun p => p.1 = p.2).map Prod.fst
    let at_ := contentLo + asU32 (byteLength same)
    { s with diags := s.diags ++
        [{ Diagnostic.warning s.fileIndex ⟨at_, at_ + 1⟩ msg.toList with
           category := .deprecation "2.13.2".toList, phase }] }

end Lexer
end ScalaRs.Lexing
