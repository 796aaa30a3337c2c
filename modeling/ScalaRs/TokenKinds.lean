import Mathlib.Data.List.Basic
import Mathlib.Data.Nat.Notation

/-! # Tokens of the Scala 2.13 lexer -/
namespace ScalaRs.Lexing

/-- Byte positions are `u32`. -/
structure Span where
  lo : UInt32
  hi : UInt32
deriving DecidableEq, Repr

/-- Floating point literals keep the text that is parsed as their value. -/
inductive TokenKind where
  | eof | newline | semi | comma | dot | colon | equals | arrow | leftArrow | subtype | supertype
  | viewBound | hash | at | lParen | rParen | lBracket | rBracket | lBrace | rBrace | underscore
  | ident (text : List Char)
  | intLit (value : BitVec 32)
  | longLit (value : BitVec 64)
  | doubleLit (body : List Char)
  | floatLit (body : List Char)
  | charLit (c : Char)
  | stringLit (text : List Char)
  | symbolLit (text : List Char)
  | trueKw | falseKw | nullKw | abstractKw | caseKw | catchKw | classKw | defKw | doKw | elseKw
  | extendsKw | finalKw | finallyKw | forKw | forSomeKw | ifKw | implicitKw | importKw | lazyKw
  | macroKw | matchKw | newKw | objectKw | overrideKw | packageKw | privateKw | protectedKw
  | returnKw | sealedKw | superKw | thisKw | throwKw | traitKw | tryKw | typeKw | valKw | varKw
  | whileKw | withKw | yieldKw
  | interpStart (interpolator : List Char) (triple : Bool)
  | stringPart (text : List Char)
  | interpId (text : List Char)
  | interpEnd (text : List Char)
deriving DecidableEq, Repr

structure Token where
  kind : TokenKind
  span : Span
  /-- A line break preceded this token but did not separate statements. -/
  nlBefore : Bool
  /-- On a `newline`: at least one blank line stands here. -/
  blankLine : Bool
deriving DecidableEq, Repr

def KEYWORDS : List (List Char × TokenKind) := [
  ("abstract".toList, .abstractKw), ("case".toList, .caseKw), ("catch".toList, .catchKw),
  ("class".toList, .classKw), ("def".toList, .defKw), ("do".toList, .doKw),
  ("else".toList, .elseKw), ("extends".toList, .extendsKw), ("false".toList, .falseKw),
  ("final".toList, .finalKw), ("finally".toList, .finallyKw), ("for".toList, .forKw),
  ("forSome".toList, .forSomeKw), ("if".toList, .ifKw), ("implicit".toList, .implicitKw),
  ("import".toList, .importKw), ("lazy".toList, .lazyKw), ("macro".toList, .macroKw),
  ("match".toList, .matchKw), ("new".toList, .newKw), ("null".toList, .nullKw),
  ("object".toList, .objectKw), ("override".toList, .overrideKw), ("package".toList, .packageKw),
  ("private".toList, .privateKw), ("protected".toList, .protectedKw),
  ("return".toList, .returnKw), ("sealed".toList, .sealedKw), ("super".toList, .superKw),
  ("this".toList, .thisKw), ("throw".toList, .throwKw), ("trait".toList, .traitKw),
  ("true".toList, .trueKw), ("try".toList, .tryKw), ("type".toList, .typeKw),
  ("val".toList, .valKw), ("var".toList, .varKw), ("while".toList, .whileKw),
  ("with".toList, .withKw), ("yield".toList, .yieldKw)]

def keywordKind (text : List Char) : Option TokenKind := KEYWORDS.lookup text

inductive Level where
  | error | warning
deriving DecidableEq, Repr

/-- The phase that would have issued a diagnostic. -/
inductive Phase where
  | parser | typer
deriving DecidableEq, Repr

inductive WarnCategory where
  | other
  | deprecation (since : List Char)
deriving DecidableEq, Repr

structure Diagnostic where
  level : Level
  message : List Char
  span : Span
  fileIndex : ℕ
  phase : Phase
  category : WarnCategory
deriving DecidableEq, Repr

namespace Diagnostic

def error (fileIndex : ℕ) (span : Span) (message : List Char) : Diagnostic :=
  { level := .error, message, span, fileIndex, phase := .typer, category := .other }

def warning (fileIndex : ℕ) (span : Span) (message : List Char) : Diagnostic :=
  { level := .warning, message, span, fileIndex, phase := .typer, category := .other }

end Diagnostic
end ScalaRs.Lexing
