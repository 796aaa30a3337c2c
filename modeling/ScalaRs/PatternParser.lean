import ScalaRs.ExpressionParser

/-! # Patterns -/
namespace ScalaRs.Parsing
open Lexing

/-- The productions that patterns use. -/
structure PatternProductions (σ : Type*) where
  /-- A type in which `|` is no operator. -/
  patternType : Parser σ → Option (Tree × Parser σ)
  interpolatedPattern : List Char → Parser σ → Option (Tree × Parser σ)

def looksLikePatternStart : TokenKind → Bool
  | .ident _ | .thisKw | .underscore | .lParen | .trueKw | .falseKw | .nullKw | .intLit _
  | .longLit _ | .doubleLit _ | .floatLit _ | .charLit _ | .stringLit _ => true
  | _ => false

/-- The types of a compound type, each of which a typed pattern tests. -/
def compoundParents : Tree → List Tree
  | .compoundType _ parents refinements =>
    if 1 < parents.length ∧ refinements = [] then parents else []
  | _ => []

/-- `t: tpt`, with an ascription around it for each parent of a compound type. -/
def typedPattern (t tpt : Tree) : Tree :=
  let span := t.span.merge tpt.span
  (compoundParents tpt).foldl (fun out parent => .typed span out parent) (.typed span t tpt)

namespace Parser
variable {σ : Type*} (p : Parser σ)

/-- At `*` closing the last argument of an extractor pattern. -/
def atTrailingPatternStar : Bool :=
  p.kind = .ident ['*'] && (p.tokens[p.pos + 1]?).map Token.kind = some .rParen

/-- That `*`, as in `name @ _*`; an error unless the source level is 3. -/
def finishPatternStar (source3 : Bool) (nameSpan : Span) (name : List Char) : Tree × Parser σ :=
  let starSpan := p.span
  let p := p.bump
  let p :=
    if source3 then p
    else p.errorSpan starSpan "bad simple pattern: use _* to match a sequence".toList
  (.bind (nameSpan.merge starSpan) none name (.star starSpan (.wildcard starSpan)), p)

/-- What follows a path, at most `fuel` selections. -/
def parsePathRest : ℕ → Tree → Parser σ → Option (Tree × Parser σ)
  | 0, _, _ => none
  | fuel + 1, t, p =>
    if p.kind ≠ .dot then some (t, p)
    else
      let p := p.bump.skipNl
      match p.kind with
      | .thisKw => parsePathRest fuel (.this (t.span.merge p.span) t.name) p.bump
      | .superKw => parsePathRest fuel (.super (t.span.merge p.span) t.name none) p.bump
      | .typeKw => some (.singletonType (t.span.merge p.span) t, p.bump)
      | _ =>
        let r := p.expectIdent
        parsePathRest fuel (.select (t.span.merge r.1.2) t r.1.1) r.2

def parsePath (fuel : ℕ) : Option (Tree × Parser σ) :=
  let start := if p.kind = .thisKw then (.this p.span none, p.bump) else p.identTree
  parsePathRest fuel start.1 start.2

/-- `_`, or `_*`. -/
def wildcardPattern : Tree × Parser σ :=
  let sp := p.span
  let p := p.bump
  if p.kind = .ident ['*'] then
    let p := p.bump
    (.star (sp.merge p.prevSpan) (.wildcard sp), p)
  else (.wildcard sp, p)

/-- `-` right before a numeric literal is part of it. -/
def negativePattern : Option (Tree × Parser σ) :=
  if p.kind = .ident ['-'] then
    (negativeLiteral (p.kindAt 1)).map fun lit =>
      let next := p.bump.bump
      (.literal (p.span.merge next.prevSpan) lit, next)
  else none

end Parser

/-- A name written with backquotes is a stable identifier however it is spelled. -/
def markStable (backquoted : Bool) : Tree → Tree
  | .ident span sym name stablePat scalaRef =>
    .ident span sym name (backquoted || stablePat) scalaRef
  | t => t

/-- What becomes of a path in a pattern, once the arguments after it are read. -/
def finishPath {σ : Type*} (source3 : Bool) (t : Tree) (p : Parser σ) : Tree × Parser σ :=
  match t with
  | .ident span _ name _ _ =>
    if name = ['_'] ∧ p.kind = .ident ['*'] then
      let p := p.bump
      (.star (span.merge p.prevSpan) (.wildcard span), p)
    else if p.atTrailingPatternStar then p.finishPatternStar source3 span name
    else (t, p)
  | _ => (t, p)

/-- `()`, the pattern in parentheses, or a tuple. -/
def parenPattern (lo : Span) (last : Span) (ps : List Tree) : Tree :=
  match ps with
  | [t] => t
  | ps =>
    .apply (lo.merge last)
      (.ident lo none ("Tuple".toList ++ (toString ps.length).toList) false true) ps

section
variable {σ : Type*} [TokenTables] [NameTables] (prods : PatternProductions σ) (source3 : Bool)

mutual

/-- Alternatives. -/
def parsePattern : ℕ → Parser σ → Option (Tree × Parser σ)
  | 0, _ => none
  | fuel + 1, p =>
    (parsePattern1 fuel p).bind fun first =>
      (alternativesLoop fuel [first.1] first.2).map fun r =>
        match r.1 with
        | [_] => (first.1, r.2)
        | alts => (.alternative (first.1.span.merge r.2.prevSpan) alts, r.2)

def alternativesLoop : ℕ → List Tree → Parser σ → Option (List Tree × Parser σ)
  | 0, _, _ => none
  | fuel + 1, alts, p =>
    let p := p.skipNl
    if p.kind = .ident ['|'] then
      (parsePattern1 fuel p.bump).bind fun r => alternativesLoop fuel (alts ++ [r.1]) r.2
    else some (alts, p)

/-- A pattern that may be typed. -/
def parsePattern1 : ℕ → Parser σ → Option (Tree × Parser σ)
  | 0, _ => none
  | fuel + 1, p =>
    (parsePattern2 fuel p).bind fun r =>
      let p := r.2.skipNl
      if p.kind = .colon then (prods.patternType p.bump).map fun s => (typedPattern r.1 s.1, s.2)
      else some (r.1, p)

/-- A pattern that may be bound to a name. -/
def parsePattern2 : ℕ → Parser σ → Option (Tree × Parser σ)
  | 0, _ => none
  | fuel + 1, p =>
    let named := p.expectIdent
    let next := named.2.skipNl
    if p.identText.isSome ∧ next.kind = .at then
      (infixPattern fuel 0 next.bump).map fun r =>
        (.bind (named.1.2.merge r.1.span) none named.1.1 r.1, r.2)
    else
      (infixPattern fuel 0 p).bind fun r =>
        match r.1 with
        | .ident span _ name _ _ =>
          if r.2.kind = .at then
            (infixPattern fuel 0 r.2.bump).map fun s =>
              (.bind (span.merge s.1.span) none name s.1, s.2)
          else some r
        | .wildcard _ => if r.2.kind = .at then infixPattern fuel 0 r.2.bump else some r
        | _ => some r

/-- `p op q` is the extractor call `op(p, q)`. -/
def infixPattern : ℕ → ℤ → Parser σ → Option (Tree × Parser σ)
  | 0, _, _ => none
  | fuel + 1, minPrec, p =>
    (parseSimplePattern fuel p).bind fun left => infixPatternLoop fuel minPrec left.1 left.2

def infixPatternLoop : ℕ → ℤ → Tree → Parser σ → Option (Tree × Parser σ)
  | 0, _, _, _ => none
  | fuel + 1, minPrec, left, p =>
    let at_ := if p.kind = .newline then p.skipNl else p
    match at_.identText with
    | none => some (left, at_.reset p.pos)
    | some op =>
      -- `|` is alternation, and a `*` right before `)` closes a sequence pattern
      if op = ['|'] ∨ at_.atTrailingPatternStar ∨ opPrecedence op < minPrec ∨
          (at_.pos ≠ p.pos ∧ !isOperatorName op) then some (left, at_.reset p.pos)
      else
        let after := if isOperatorName op then at_.bump.skipNl else at_.bump
        if !looksLikePatternStart after.kind then some (left, after.reset p.pos)
        else
          (infixPattern fuel (nextMinPrec op) after).bind fun right =>
            infixPatternLoop fuel minPrec
              (.apply (left.span.merge right.1.span) (.ident at_.span none op false false)
                [left, right.1]) right.2

def parseSimplePattern : ℕ → Parser σ → Option (Tree × Parser σ)
  | 0, _ => none
  | fuel + 1, p =>
    let p := p.skipNl
    match p.negativePattern with
    | some r => some r
    | none =>
      match p.kind with
      | .underscore => some p.wildcardPattern
      | .ident _ | .thisKw =>
        let backquoted := p.identText.isSome && p.isBackquoted p.span
        (p.parsePath fuel).bind fun path =>
          let t := markStable backquoted path.1
          let p := path.2.skipNl
          if p.kind = .lParen then
            (patternArgs fuel p).map fun r =>
              finishPath source3 (.apply (t.span.merge r.2.prevSpan) t r.1) r.2
          else some (finishPath source3 t p)
      | .lParen =>
        let lo := p.span
        let p := p.bump
        if p.kind = .rParen then
          let p := p.bump
          some (.literal (lo.merge p.prevSpan) .unit, p)
        else
          (parsePattern fuel p).bind fun first =>
            (tupleLoop fuel [first.1] first.2).map fun r =>
              let p := r.2.expect ")" .rParen
              (parenPattern lo p.prevSpan r.1, p)
      | .trueKw => some (p.literal (.boolean true))
      | .falseKw => some (p.literal (.boolean false))
      | .nullKw => some (p.literal .null)
      | .intLit n => some (p.literal (.int n))
      | .longLit n => some (p.literal (.long n))
      | .doubleLit n => some (p.literal (.double false n))
      | .floatLit n => some (p.literal (.float false n))
      | .charLit c => some (p.literal (.char c))
      | .stringLit s => some (p.literal (.string s))
      | .interpStart interpolator _ => prods.interpolatedPattern interpolator p
      | other =>
        let failed := p.errorHere ("expected pattern, found ".toList ++ tokenName other)
        some (.wildcard p.span, failed.bump)

def tupleLoop : ℕ → List Tree → Parser σ → Option (List Tree × Parser σ)
  | 0, _, _ => none
  | fuel + 1, ps, p =>
    if p.kind = .comma then
      (parsePattern fuel p.bump).bind fun r => tupleLoop fuel (ps ++ [r.1]) r.2
    else some (ps, p)

def patternArgs : ℕ → Parser σ → Option (List Tree × Parser σ)
  | 0, _ => none
  | fuel + 1, p =>
    let p := p.bump.skipNl
    (if p.kind = .rParen then some ([], p) else argsLoop fuel [] p).map fun r =>
      (r.1, r.2.expect ")" .rParen)

def argsLoop : ℕ → List Tree → Parser σ → Option (List Tree × Parser σ)
  | 0, _, _ => none
  | fuel + 1, args, p =>
    (patternArg fuel p).bind fun r =>
      let p := r.2.skipNl
      if p.kind = .comma then argsLoop fuel (args ++ [r.1]) p.bump.skipNl
      else some (args ++ [r.1], p)

/-- An argument, which may be named. -/
def patternArg : ℕ → Parser σ → Option (Tree × Parser σ)
  | 0, _ => none
  | fuel + 1, p =>
    let named := p.expectIdent
    let next := named.2.skipNl
    if p.identText.isSome ∧ next.kind = .equals then
      (parsePattern fuel next.bump.skipNl).map fun rhs =>
        (.assign (named.1.2.merge rhs.1.span) (.ident named.1.2 none named.1.1 false false) rhs.1,
          rhs.2)
    else parsePattern fuel p

end

end
end ScalaRs.Parsing
