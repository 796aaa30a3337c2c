import Mathlib.Data.Int.Notation
import ScalaRs.LexerCharacters

/-! # Names of operators and variables -/
namespace ScalaRs.Parsing
open Lexing

/-- The tables of the standard library that names are classified with. -/
class NameTables extends CharTables where
  /-- `char::is_lowercase`, beyond ASCII. -/
  isLowercase : Char → Bool
  /-- `char::is_numeric`, beyond ASCII. -/
  isNumeric : Char → Bool

/-- The tables of names in ASCII. -/
@[reducible] def asciiNames : NameTables := { asciiTables with
  isLowercase _ := false
  isNumeric _ := false }

/-- nsc `Chars.isOperatorPart`. -/
def isOperatorPart (c : Char) : Bool :=
  c ∈ ['~', '!', '@', '#', '%', '^', '*', '+', '-', '<', '>', '?', ':', '=', '&', '|', '/', '\\'] ||
    (!isAscii c && isUnicodeSymbol c)

theorem lawfulOperators : LawfulBEq (List Char) := inferInstance

attribute [local instance] lawfulOperators

/-- An operator that ends in `=`, does not start with `=` or a letter, and is not a comparison. -/
def isOpAssignmentName (op : List Char) : Bool :=
  match op with
  | [] => false
  | first :: rest =>
    rest ≠ [] && rest.getLast? = some '=' && first ≠ '=' && isOperatorPart first &&
      !(op ∈ [['!', '='], ['<', '='], ['>', '=']])

section
variable [NameTables]

def isAlphabetic (c : Char) : Bool :=
  if isAscii c then isAsciiAlphabetic c else CharTables.isAlphabetic c

def isLowercase (c : Char) : Bool :=
  if isAscii c then 'a' ≤ c && c ≤ 'z' else NameTables.isLowercase c

def isNumeric (c : Char) : Bool :=
  if isAscii c then isAsciiDigit c else NameTables.isNumeric c

def opPrecedence (op : List Char) : ℤ :=
  if isOpAssignmentName op then 0
  else
    match op.head?.getD '\x00' with
    | '|' => 2
    | '^' => 3
    | '&' => 4
    | '=' | '!' => 5
    | '<' | '>' => 6
    | ':' => 7
    | '+' | '-' => 8
    | '*' | '/' | '%' => 9
    | c => if isAlphabetic c || c = '_' || c = '$' then 1 else 10

/-- An identifier pattern with such a name binds instead of comparing. -/
def isVariableName (name : List Char) : Bool :=
  match name with
  | [] => false
  | c :: _ => c = '_' || (isLowercase c && isAlphabetic c && !isNumeric c)

end

def isOperatorName (s : List Char) : Bool := s.head?.any isOpChar

/-- An operator that ends in `:` takes its right operand as the receiver. -/
def isRightAssociative (op : List Char) : Bool := op.getLast? = some ':'

end ScalaRs.Parsing
