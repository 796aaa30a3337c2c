import ScalaRs.TokenStreams
import ScalaRs.OperatorNames

/-! # Prefix and infix expressions

The productions of simple expressions that are not literals or names are parameters. -/
namespace ScalaRs.Parsing
open Lexing

/-- Other productions of the parser. A result of `none` is one that never returns. -/
structure Productions (σ : Type*) where
  xmlLiteral : Parser σ → Option (Tree × Parser σ)
  newExpr : Parser σ → Option (Tree × Parser σ)
  blockExpr : Parser σ → Option (Tree × Parser σ)
  parenExpr : Parser σ → Option (Tree × Parser σ)
  interpolated : List Char → Parser σ → Option (Tree × Parser σ)
  freshPlaceholder : Parser σ → Option (Tree × Parser σ)
  /-- Selections and applications after a tree, which may be applied or not. -/
  simpleExprRest : Tree → Bool → Parser σ → Option (Tree × Parser σ)

def isExprIntro : TokenKind → Bool
  | .ident _ | .intLit _ | .longLit _ | .doubleLit _ | .floatLit _ | .charLit _ | .stringLit _
  | .symbolLit _ | .interpStart .. | .trueKw | .falseKw | .nullKw | .thisKw | .superKw | .ifKw
  | .forKw | .newKw | .underscore | .tryKw | .whileKw | .doKw | .returnKw | .throwKw | .lParen
  | .lBrace => true
  | _ => false

def looksLikePrefixStart : TokenKind → Bool
  | .newKw | .lBrace | .lParen | .thisKw | .superKw | .underscore | .ident _ | .trueKw | .falseKw
  | .nullKw | .intLit _ | .longLit _ | .floatLit _ | .doubleLit _ | .charLit _ | .stringLit _
  | .symbolLit _ | .interpStart .. => true
  | _ => false

namespace Parser
variable {σ : Type*} (p : Parser σ)

/-- A tree for the token, which is passed. -/
def literal (lit : Lit) : Tree × Parser σ := (.literal p.span lit, p.bump)

def identTree : Tree × Parser σ :=
  let r := p.expectIdent
  (.ident r.1.2 none r.1.1 false false, r.2)

/-- The digits 2147483648 are in range as the operand of a unary `-` alone; a hexadecimal literal
of the same value is legal on its own. -/
def rejectUnnegatedMinValue (sp : Span) : Parser σ :=
  let text := p.sourceText sp
  if !("0x".toList.isPrefixOf text) && !("0X".toList.isPrefixOf text) then
    p.errorSpan sp "integer number too large".toList
  else p

/-- An integer literal that stands on its own, `min` being the least value of its type. -/
def integerLiteral (lit min : Lit) : Tree × Parser σ :=
  let sp := p.span
  let p := p.bump
  (.literal sp lit, if lit = min then p.rejectUnnegatedMinValue sp else p)

/-- `super`, with the parent that `[name]` selects. -/
def superRef [TokenTables] : Tree × Parser σ :=
  let sp := p.span
  let p := p.bump
  if p.kind = .lBracket then
    let r := p.bump.expectIdent
    let p := r.2.expect "]" .rBracket
    (.super (sp.merge p.prevSpan) none (some r.1.1), p)
  else (.super (sp.merge p.prevSpan) none none, p)

def symbolDeprecation (s : List Char) : List Char :=
  "symbol literal is deprecated; use Symbol(\"".toList ++ s ++ "\") instead [quickfixable]".toList

/-- What a simple expression begins with, and whether it may be applied. -/
def simpleExprStart [TokenTables] (prods : Productions σ) : Option (Tree × Bool × Parser σ) :=
  let applicable (r : Tree × Parser σ) : Tree × Bool × Parser σ := (r.1, true, r.2)
  let inapplicable (r : Tree × Parser σ) : Tree × Bool × Parser σ := (r.1, false, r.2)
  match p.kind with
  | .newKw => (prods.newExpr p).map inapplicable
  | .lBrace => (prods.blockExpr p).map inapplicable
  | .lParen => (prods.parenExpr p).map applicable
  | .thisKw => some (.this p.span none, true, p.bump)
  | .superKw => some (applicable p.superRef)
  | .underscore => (prods.freshPlaceholder p).map applicable
  | .ident s =>
    if s = ['<'] then (prods.xmlLiteral p).map applicable
    else if s = ['_'] then (prods.freshPlaceholder p).map applicable
    else some (applicable p.identTree)
  | .trueKw => some (applicable (p.literal (.boolean true)))
  | .falseKw => some (applicable (p.literal (.boolean false)))
  | .nullKw => some (applicable (p.literal .null))
  | .intLit n => some (applicable (p.integerLiteral (.int n) (.int (BitVec.intMin 32))))
  | .longLit n => some (applicable (p.integerLiteral (.long n) (.long (BitVec.intMin 64))))
  | .doubleLit n => some (applicable (p.literal (.double false n)))
  | .floatLit n => some (applicable (p.literal (.float false n)))
  | .charLit c => some (applicable (p.literal (.char c)))
  | .stringLit s => some (applicable (p.literal (.string s)))
  | .symbolLit s =>
    some (applicable ((p.deprecation p.span (symbolDeprecation s) "2.13.0".toList).literal
      (.symbol s)))
  | .interpStart interpolator _ => (prods.interpolated interpolator p).map applicable
  | other =>
    let failed := p.errorHere ("expected expression, found ".toList ++ tokenName other)
    some (.empty p.span, true, failed.bump)

def parseSimpleExpr [TokenTables] (prods : Productions σ) : Option (Tree × Parser σ) :=
  (p.skipNl.simpleExprStart prods).bind fun r => prods.simpleExprRest r.1 r.2.1 r.2.2

attribute [local instance] lawfulOperators

/-- The name of a prefix operator: written without backquotes, and before an expression. -/
def prefixOperator : Option (List Char) :=
  match p.identText with
  | some name =>
    if name ∈ [['+'], ['-'], ['!'], ['~']] ∧ !p.isBackquoted p.span ∧ isExprIntro (p.kindAt 1) then
      some name
    else none
  | none => none

end Parser

/-- A number right after `-` is a negative literal. The lexer stores the magnitude wrapped. -/
def negativeLiteral : TokenKind → Option Lit
  | .intLit n => some (.int (-n))
  | .doubleLit d => some (.double true d)
  | .floatLit f => some (.float true f)
  | .longLit n => some (.long (-n))
  | _ => none

section
variable {σ : Type*} [TokenTables] (prods : Productions σ)

/-- At most `fuel` prefix operators before an expression. -/
def parsePrefixExpr : ℕ → Parser σ → Option (Tree × Parser σ)
  | 0, _ => none
  | fuel + 1, p =>
    let p := p.skipNl
    match p.prefixOperator with
    | none => p.parseSimpleExpr prods
    | some name =>
      let sp := p.span
      let p := p.bump
      match if name = ['-'] then negativeLiteral p.kind else none with
      | some lit => prods.simpleExprRest (.literal (sp.merge p.span) lit) true p.bump
      | none =>
        (parsePrefixExpr fuel p).map fun r =>
          (.apply (sp.merge r.1.span) (.select sp r.1 ("unary_".toList ++ name)) [], r.2)

/-- An infix operation as a selection from the receiver and its application. -/
def infixTree (op : List Char) (opSpan : Span) (left right : Tree) : Tree :=
  if isRightAssociative op then
    let sel := Tree.select (right.span.merge opSpan) right op
    .apply (left.span.merge sel.span) sel [left]
  else
    let sel := Tree.select (left.span.merge opSpan) left op
    .apply (sel.span.merge right.span) sel [right]

variable [NameTables]

/-- The least precedence of the operators in the right operand of an operator. -/
def nextMinPrec (op : List Char) : ℤ :=
  if isRightAssociative op then opPrecedence op else opPrecedence op + 1

/-- The loop of `parse_infix_expr`. -/
def infixLoop : ℕ → ℤ → Tree → Parser σ → Option (Tree × Parser σ)
  | 0, _, _, _ => none
  | fuel + 1, minPrec, left, p =>
    match p.identText with
    | none => some (left, p)
    | some op =>
      if opPrecedence op < minPrec then some (left, p)
      else
        -- a newline after the operator does not end the expression if an operand follows
        let after := if p.bump.kind = .newline then p.bump.skipNl else p.bump
        -- without one the name is a postfix operator
        if !looksLikePrefixStart after.kind then some (left, after.reset p.pos)
        else
          (parsePrefixExpr prods fuel after).bind fun operand =>
            (infixLoop fuel (nextMinPrec op) operand.1 operand.2).bind fun right =>
              infixLoop fuel minPrec (infixTree op p.span left right.1) right.2

def parseInfixExpr (fuel : ℕ) (minPrec : ℤ) (p : Parser σ) : Option (Tree × Parser σ) :=
  (parsePrefixExpr prods fuel p).bind fun left => infixLoop prods fuel minPrec left.1 left.2

end
end ScalaRs.Parsing
