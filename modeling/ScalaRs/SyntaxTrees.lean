import Mathlib.Data.BitVec
import ScalaRs.TokenKinds

/-! # Trees of the parser

Of the trees, what the productions for patterns and for operators build or look at. -/
namespace ScalaRs.Lexing.Span

def isDummy (s : Span) : Bool := s.lo = 0 && s.hi = 0

def merge (s other : Span) : Span :=
  if s.isDummy then other
  else if other.isDummy then s
  else ⟨min s.lo other.lo, max s.hi other.hi⟩

end ScalaRs.Lexing.Span

namespace ScalaRs.Parsing
open Lexing

/-- A floating point literal keeps the text that is parsed as its magnitude. -/
inductive Lit where
  | unit
  | boolean (value : Bool)
  | int (value : BitVec 32)
  | long (value : BitVec 64)
  | float (negated : Bool) (body : List Char)
  | double (negated : Bool) (body : List Char)
  | char (c : Char)
  | string (text : List Char)
  | symbol (text : List Char)
  | null
deriving DecidableEq, Repr

/-- A symbol is set by the typer; the parser leaves it out. -/
inductive Tree where
  | empty (span : Span)
  /-- `stablePat`: written with backquotes in a pattern. `scalaRef`: made up for a member of
  package `scala`. -/
  | ident (span : Span) (sym : Option ℕ) (name : List Char) (stablePat scalaRef : Bool)
  | literal (span : Span) (lit : Lit)
  | select (span : Span) (qual : Tree) (name : List Char)
  | apply (span : Span) (func : Tree) (args : List Tree)
  | typed (span : Span) (expr tpt : Tree)
  | bind (span : Span) (sym : Option ℕ) (name : List Char) (body : Tree)
  | star (span : Span) (elem : Tree)
  | alternative (span : Span) (trees : List Tree)
  | wildcard (span : Span)
  | assign (span : Span) (lhs rhs : Tree)
  | this (span : Span) (qual : Option (List Char))
  | super (span : Span) (qual mix : Option (List Char))
  | singletonType (span : Span) (ref : Tree)
  /-- A type of several parents, with its refinements. -/
  | compoundType (span : Span) (parents refinements : List Tree)
  /-- A tree that only other productions look into. -/
  | other (span : Span) (kind : ℕ)
deriving Repr

namespace Tree

def span : Tree → Span
  | .empty span | .ident span .. | .literal span _ | .select span .. | .apply span ..
  | .typed span .. | .bind span .. | .star span _ | .alternative span _ | .wildcard span
  | .assign span .. | .this span _ | .super span .. | .singletonType span _
  | .compoundType span .. | .other span _ => span

def name : Tree → Option (List Char)
  | .ident _ _ name _ _ | .select _ _ name | .bind _ _ name _ => some name
  | _ => none

end Tree
end ScalaRs.Parsing
