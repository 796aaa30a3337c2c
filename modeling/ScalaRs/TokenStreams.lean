import ScalaRs.LexerState
import ScalaRs.SyntaxTrees

/-! # The tokens in front of the parser -/
namespace ScalaRs.Parsing
open Lexing

/-- What the parser reads from the tables of the standard library. -/
class TokenTables where
  /-- What `{:?}` prints for a token, in lower case. -/
  debug : TokenKind → List Char

/-- For texts whose tokens are all expected. -/
@[reducible] def plainTables : TokenTables := ⟨fun _ => []⟩

/-- The state of the parser. `others` holds the fields that only productions outside this
development use. -/
structure Parser (σ : Type*) where
  src : List Char
  fileIndex : ℕ
  tokens : List Token
  ends : tokens.getLast?.map Token.kind = some .eof
  pos : ℕ
  diags : List Diagnostic
  others : σ

def tokenName [TokenTables] : TokenKind → List Char
  | .eof => "end of file".toList
  | .ident s => ['`'] ++ s ++ ['`']
  | .newline => "newline".toList
  | other => TokenTables.debug other

namespace Parser
variable {σ : Type*} (p : Parser σ)

theorem tokens_ne_nil : p.tokens ≠ [] := by
  intro h
  have hends := p.ends
  rw [h] at hends
  cases hends

/-- The token some places ahead, which is the last one beyond the end. -/
def tokAt (n : ℕ) : Token := (p.tokens[p.pos + n]?).getD (p.tokens.getLast p.tokens_ne_nil)

def kindAt (n : ℕ) : TokenKind := (p.tokAt n).kind

def kind : TokenKind := p.kindAt 0

def span : Span := (p.tokAt 0).span

def bump : Parser σ := { p with pos := if p.pos + 1 < p.tokens.length then p.pos + 1 else p.pos }

/-- `self.pos = pos`. -/
def reset (pos : ℕ) : Parser σ := { p with pos }

def prevSpan : Span :=
  if p.pos = 0 then p.span else ((p.tokens[p.pos - 1]?).map Token.span).getD p.span

def skipNl : Parser σ :=
  { p with pos := p.pos + ((p.tokens.drop p.pos).takeWhile fun t => t.kind = .newline).length }

def identText : Option (List Char) :=
  match p.kind with
  | .ident s => some s
  | _ => none

def errorSpan (span : Span) (msg : List Char) : Parser σ :=
  { p with diags := p.diags ++ [Diagnostic.error p.fileIndex span msg] }

def errorHere (msg : List Char) : Parser σ := p.errorSpan p.span msg

def deprecation (span : Span) (msg since : List Char) : Parser σ :=
  { p with diags := p.diags ++ [{ Diagnostic.warning p.fileIndex span msg with
      category := .deprecation since, phase := .parser }] }

/-- An identifier was written with backquotes, which its token does not say. -/
def isBackquoted (sp : Span) : Bool :=
  ((splitBytes sp.lo.toNat p.src).bind fun cut => cut.2.head?) = some '`'

/-- `self.source.src.get(lo..hi)`, or nothing. -/
def sourceText (sp : Span) : List Char :=
  ((splitBytes sp.lo.toNat p.src).bind fun cut =>
    (splitBytes (sp.hi.toNat - sp.lo.toNat) cut.2).map Prod.fst).getD []

def expect [TokenTables] (what : String) (kind : TokenKind) : Parser σ :=
  let p := p.skipNl
  if p.kind = kind then p.bump
  else p.errorHere ("expected ".toList ++ what.toList ++ ", found ".toList ++ tokenName p.kind)

def expectIdent : (List Char × Span) × Parser σ :=
  let p := p.skipNl
  match p.kind with
  | .ident s => ((s, p.span), p.bump)
  | .thisKw => (("this".toList, p.span), p.bump)
  | _ => (("<error>".toList, p.span), p.errorHere "expected identifier".toList)

variable {p}

theorem skipNl_of_kind_ne (h : p.kind ≠ .newline) : p.skipNl = p := by
  have htake : (p.tokens.drop p.pos).takeWhile (fun t => t.kind = .newline) = [] := by
    cases hdrop : p.tokens.drop p.pos with
    | nil => rfl
    | cons t ts =>
      have htok : p.tokens[p.pos]? = some t := by
        rw [← List.head?_drop, hdrop, List.head?_cons]
      have hkind : t.kind ≠ .newline := by
        rw [kind, kindAt, tokAt, Nat.add_zero, htok, Option.getD_some] at h
        exact h
      rw [List.takeWhile_cons, if_neg (by simpa using hkind)]
  rw [skipNl, htake, List.length_nil, Nat.add_zero]

end Parser
end ScalaRs.Parsing
