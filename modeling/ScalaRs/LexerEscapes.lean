import Mathlib.Data.List.Infix
import ScalaRs.LexerState

/-! # Escapes in literals

Two decoders: `readEscape` reads one escape from the source, `processEscapes` replaces
those of a part that was read raw. -/
namespace ScalaRs.Lexing

def fromHex (digits : List Char) : ℕ := digits.foldl (fun n c => 16 * n + hexValue c) 0

def readSimpleEscape : Char → Option Char
  | 'n' => some '\n'
  | 't' => some '\t'
  | 'r' => some '\r'
  | 'b' => some '\x08'
  | 'f' => some '\x0c'
  | '\\' => some '\\'
  | '"' => some '"'
  | '\'' => some '\''
  | _ => none

namespace Lexer

/-- Reads `n` more digits. -/
def readHexDigits : ℕ → List Char → Lexer → Option (List Char) × Lexer
  | 0, hex, s => (some hex, s)
  | n + 1, hex, s =>
    match s.peek with
    | some c => if isAsciiHexdigit c then readHexDigits n (hex ++ [c]) s.bump else (none, s)
    | none => (none, s)

/-- The escape after a backslash, which is at `lo`. -/
def readEscape (s : Lexer) (lo : UInt32) : Option Char × Lexer :=
  match s.peek with
  | none => (none, s.errorFrom lo "unterminated escape")
  | some c =>
    match readSimpleEscape c with
    | some ch => (some ch, s.bump)
    | none =>
      if c = 'u' then
        match readHexDigits 4 [] s.bump with
        | (none, s) => (none, s.errorFrom lo "invalid unicode escape")
        | (some hex, s) =>
          match fromU32 (fromHex hex) with
          | some ch => (some ch, s)
          | none => (none, s.errorFrom lo "invalid unicode code point")
      else
        -- the literal is read on
        (some c, s.bump.error lo (asU32 s.bump.pos) ("invalid escape \\".toList ++ [c]))

end Lexer

def processSimpleEscape : Char → Option Char
  | 'b' => some '\x08'
  | 't' => some '\t'
  | 'n' => some '\n'
  | 'f' => some '\x0c'
  | 'r' => some '\r'
  | '"' => some '"'
  | '\'' => some '\''
  | '\\' => some '\\'
  | _ => none

/-- The character of a unicode escape whose first `u` the text begins with, and how many
characters the `u`s and the digits are. -/
def decodeUnicode (cs : List Char) : Option (Char × ℕ) :=
  let us := (cs.takeWhile (· = 'u')).length
  let hex := (cs.drop us).take 4
  if hex.length = 4 ∧ hex.all isAsciiHexdigit then
    (fromU32 (fromHex hex)).map fun c => (c, us + 4)
  else none

def terminalEscapeMessage (i : ℕ) (s : List Char) : List Char :=
  "invalid escape at terminal index ".toList ++ (toString i).toList ++ " in \"".toList ++ s ++
    "\". Use \\\\ for literal \\.".toList

def invalidEscapeMessage (c : Char) (i : ℕ) (s : List Char) : List Char :=
  "invalid escape '\\".toList ++ [c] ++
    "' not one of [\\b, \\t, \\n, \\f, \\r, \\\\, \\\", \\', \\uxxxx] at index ".toList ++
    (toString i).toList ++ " in \"".toList ++ s ++ "\". Use \\\\ for literal \\.".toList

/-- The part from index `i` on, of which `skip` characters belong to an escape that has
been replaced; with the error that ended it, if there was one. -/
def processEscapesFrom (s : List Char) : ℕ → ℕ → List Char → List Char × Option (List Char)
  | _, _, [] => ([], none)
  | skip + 1, i, _ :: cs => processEscapesFrom s skip (i + 1) cs
  | 0, i, c :: cs =>
    if c ≠ '\\' then
      let r := processEscapesFrom s 0 (i + 1) cs
      (c :: r.1, r.2)
    else
      match cs.head? with
      | none => ([], some (terminalEscapeMessage i s))
      | some e =>
        match processSimpleEscape e with
        | some ch =>
          let r := processEscapesFrom s 1 (i + 1) cs
          (ch :: r.1, r.2)
        | none =>
          if e = 'u' then
            match decodeUnicode cs with
            | some (ch, n) =>
              let r := processEscapesFrom s n (i + 1) cs
              (ch :: r.1, r.2)
            | none => ([], some "invalid unicode escape".toList)
          else ([], some (invalidEscapeMessage e i s))

/-- The part with its unicode escapes replaced, and how many of them are invalid; `skip`
as above. -/
def processUnicodeFrom : ℕ → List Char → List Char × ℕ
  | _, [] => ([], 0)
  | skip + 1, _ :: cs => processUnicodeFrom skip cs
  | 0, c :: cs =>
    if c ≠ '\\' then
      let r := processUnicodeFrom 0 cs
      (c :: r.1, r.2)
    else
      -- all but the last backslash of a run are plain characters
      let run := (cs.takeWhile (· = '\\')).length + 1
      let plain := List.replicate (run - 1) '\\'
      let after := cs.drop (run - 1)
      if run % 2 = 1 ∧ after.head? = some 'u' then
        match decodeUnicode after with
        | some (ch, n) =>
          let r := processUnicodeFrom (run - 1 + n) cs
          (plain ++ ch :: r.1, r.2)
        | none =>
          let r := processUnicodeFrom (run - 1) cs
          (plain ++ '\\' :: r.1, r.2 + 1)
      else
        let r := processUnicodeFrom (run - 1) cs
        (plain ++ '\\' :: r.1, r.2)

namespace Lexer

def processEscapes (s : Lexer) (part : List Char) (lo : UInt32) : List Char × Lexer :=
  if '\\' ∉ part then (part, s)
  else
    match processEscapesFrom part 0 0 part with
    | (out, none) => (out, s)
    | (out, some msg) => (out, s.error lo (asU32 s.pos) msg)

def processUnicode (s : Lexer) (part : List Char) (lo : UInt32) : List Char × Lexer :=
  if "\\u".toList <:+: part then
    let r := processUnicodeFrom 0 part
    (r.1, (List.range r.2).foldl (fun s _ => s.errorFrom lo "invalid unicode escape") s)
  else (part, s)

end Lexer
end ScalaRs.Lexing
