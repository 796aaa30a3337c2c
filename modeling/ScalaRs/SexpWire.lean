import ScalaRs.CodeUnits
import Mathlib.Data.Int.Notation
import Mathlib.Data.List.TakeDrop
import Mathlib.Logic.Function.Basic

/-! # The wire format of the macro engine, twice

The compiler reads UTF-8 by recursive descent; a cursor into the text is the rest
of the text here. The engine reads UTF-16 into a table of spans in preorder and
makes the nodes when they are asked for. -/
namespace ScalaRs.Wire
open CodeUnits

/-- Atoms, quoted strings and lists. -/
inductive Sexp (U : Type)
  | atom (a : List U)
  | str (s : List U)
  | list (items : List (Sexp U))

section Compiler

variable {U : Type} [CodeUnit U]

/-! ## The compiler's parser -/

inductive ParseError
  | tooLarge | trailingInput | emptyReply | tooDeep | unterminated | unterminatedEscape
  | unknownEscape | unterminatedString | unexpectedParen

def skipSpaces (s : List U) : List U := s.dropWhile fun c => code c == 32

/-- Spaces and parentheses end an atom. -/
def inAtom (c : U) : Bool := !(code c == 32 || code c == 40 || code c == 41)

/-- What an escaped unit stands for. -/
def unescape (e : U) : Option U :=
  if code e = 110 then some (ofCode 10)
  else if code e = 116 then some (ofCode 9)
  else if code e = 114 then some (ofCode 13)
  else if code e = 34 ∨ code e = 92 then some e
  else none

/-- The rest of a quoted string, of which `run` has not been copied to `out` yet. -/
def parseStr (out run : List U) : List U → Except ParseError (List U × List U)
  | [] => .error .unterminatedString
  | c :: s =>
    if code c = 34 then .ok (out ++ run, s)
    else if code c ≠ 92 then parseStr out (run ++ [c]) s
    else match s with
      | [] => .error .unterminatedEscape
      | e :: s => match unescape e with
        | some u => parseStr (out ++ run ++ [u]) [] s
        | none => .error .unknownEscape

omit [CodeUnit U] in
theorem length_lt_of_suffix {s rest : List U} {c : U} (h : c :: rest <:+ s) :
    rest.length < s.length := h.length_le

theorem length_skipSpaces {s rest : List U} {c : U} (h : skipSpaces s = c :: rest) :
    rest.length < s.length := by
  apply length_lt_of_suffix (c := c)
  rw [← h]
  exact List.dropWhile_suffix _

/-- An item, the text after it, and the items of the lists around it. -/
abbrev Parsed (U : Type) := Sexp U × List U × List (Sexp U)

mutual
/-- `scratch` holds the items of the lists being parsed, innermost last. -/
def parseAt (maxDepth : ℕ) (s : List U) (depth : ℕ) (scratch : List (Sexp U)) :
    Except ParseError (Parsed U) :=
  match _h : skipSpaces s with
  | [] => .error .emptyReply
  | c :: rest =>
    if code c = 40 then
      if depth ≥ maxDepth then .error .tooDeep
      else parseItems maxDepth rest depth scratch.length scratch
    else if code c = 34 then
      (parseStr [] [] rest).map fun r => (.str r.1, r.2, scratch)
    else if code c = 41 then .error .unexpectedParen
    else .ok (.atom ((c :: rest).takeWhile inAtom), (c :: rest).dropWhile inAtom, scratch)
termination_by (s.length, 0)
decreasing_by exact Prod.Lex.left _ _ (length_skipSpaces _h)

/-- The rest of a list whose items are those of `scratch` from `start` on. -/
def parseItems (maxDepth : ℕ) (s : List U) (depth start : ℕ) (scratch : List (Sexp U)) :
    Except ParseError (Parsed U) :=
  match _h : skipSpaces s with
  | [] => .error .unterminated
  | c :: rest =>
    if code c = 41 then .ok (.list (scratch.drop start), rest, scratch.take start)
    else
      match parseAt maxDepth (c :: rest) (depth + 1) scratch with
      | .error e => .error e
      | .ok (item, s', scratch) =>
        -- always: no item is empty
        if _hlt : s'.length < s.length then
          parseItems maxDepth s' depth start (scratch ++ [item])
        else .error .unterminated
termination_by (s.length, 1)
decreasing_by
  · have hlt := length_skipSpaces _h
    rcases Nat.lt_or_eq_of_le (show (c :: rest).length ≤ s.length from hlt) with hlt | heq
    · exact Prod.Lex.left _ _ hlt
    · rw [heq]
      exact Prod.Lex.right _ Nat.zero_lt_one
  · exact Prod.Lex.left _ _ _hlt
end

def parseWithLimits (maxBytes maxDepth : ℕ) (s : List U) : Except ParseError (Sexp U) :=
  if s.length > maxBytes then .error .tooLarge
  else
    match parseAt maxDepth s 0 [] with
    | .error e => .error e
    | .ok (v, rest, _) => if (skipSpaces rest).isEmpty then .ok v else .error .trailingInput

/-! ## What the compiler writes -/

def escapeOf (c : U) : Option (List U) :=
  if code c = 34 then some [ofCode 92, ofCode 34]
  else if code c = 92 then some [ofCode 92, ofCode 92]
  else if code c = 10 then some [ofCode 92, ofCode 110]
  else if code c = 9 then some [ofCode 92, ofCode 116]
  else if code c = 13 then some [ofCode 92, ofCode 114]
  else none

/-- The rest of `quote_into`; `run` has not been copied to `out` yet. -/
def quoteFrom (out run : List U) : List U → List U
  | [] => out ++ run ++ [ofCode 34]
  | c :: s => match escapeOf c with
    | some escaped => quoteFrom (out ++ run ++ escaped) [] s
    | none => quoteFrom out (run ++ [c]) s

def quoteInto (out s : List U) : List U := quoteFrom (out ++ [ofCode 34]) [] s

/-- Lists are written with single spaces between their items. -/
def write (quote : List U → List U) : Sexp U → List U
  | .atom a => a
  | .str s => quote s
  | .list items =>
    [ofCode 40] ++ [ofCode 32].intercalate (items.map (write quote)) ++ [ofCode 41]

/-- `Display for Sexp` -/
def display (t : Sexp U) : List U := write (quoteInto []) t

end Compiler

/-! ## The engine's parser -/

section Engine

variable {U : Type} [CodeUnit U]

inductive PacketError
  | tooLarge | trailingInput | empty | tooDeep | unterminatedList | unterminatedEscape
  | unknownEscape | unterminatedString | unexpectedParen

/-- A negative number of children stands for an atom or a quoted string. -/
structure Span where
  start : ℕ
  fin : ℕ
  next : ℕ
  children : ℤ

structure Packet (U : Type) where
  text : List U
  spans : List Span
  position : ℕ

/-- The position after the spaces at a position. -/
def spacesEnd (cs : List U) (pos : ℕ) : ℕ :=
  pos + ((cs.drop pos).takeWhile fun c => code c == 32).length

def atomEnd (cs : List U) (pos : ℕ) : ℕ := pos + ((cs.drop pos).takeWhile inAtom).length

def isEscape (e : U) : Bool :=
  code e == 110 || code e == 116 || code e == 114 || code e == 34 || code e == 92

/-- The position after the closing quote; `pos` is that of the units given. -/
def stringEnd (pos : ℕ) : List U → Except PacketError ℕ
  | [] => .error .unterminatedString
  | c :: cs =>
    if code c = 34 then .ok (pos + 1)
    else if code c = 92 then match cs with
      | [] => .error .unterminatedEscape
      | e :: cs => if isEscape e then stringEnd (pos + 2) cs else .error .unknownEscape
    else stringEnd (pos + 1) cs

namespace Packet

/-- Reserves the slot of a node that starts at `start`. -/
def reserve (p : Packet U) (start : ℕ) : Packet U :=
  { p with spans := p.spans ++ [⟨start, 0, 0, 0⟩] }

/-- Fills the slot of a node that ends at `fin`. -/
def fill (p : Packet U) (slot fin : ℕ) (children : ℤ) : Packet U :=
  { p with
    position := fin
    spans := p.spans.modify slot fun sp =>
      { sp with fin := fin, next := p.spans.length, children := children } }

end Packet

omit [CodeUnit U] in
theorem sub_lt_of_getElem? {cs : List U} {pos : ℕ} {c : U} (h : cs[pos]? = some c) {pos' : ℕ}
    (hlt : pos < pos') : cs.length - pos' < cs.length - pos := by
  have hpos := (List.getElem?_eq_some_iff.mp h).1
  omega

theorem le_spacesEnd (cs : List U) (pos : ℕ) : pos ≤ spacesEnd cs pos := Nat.le_add_right _ _

mutual
def scan (maxDepth : ℕ) (p : Packet U) (depth : ℕ) : Except PacketError (Packet U) :=
  match _h : p.text[spacesEnd p.text p.position]? with
  | none => .error .empty
  | some c =>
    if code c = 40 then
      if depth ≥ maxDepth then .error .tooDeep
      else
        match scanItems maxDepth (p.reserve (spacesEnd p.text p.position))
            (spacesEnd p.text p.position + 1) depth 0 with
        | .error e => .error e
        | .ok (q, fin, children) => .ok (q.fill p.spans.length fin children)
    else if code c = 34 then
      match stringEnd (spacesEnd p.text p.position + 1)
          (p.text.drop (spacesEnd p.text p.position + 1)) with
      | .error e => .error e
      | .ok fin => .ok ((p.reserve (spacesEnd p.text p.position)).fill p.spans.length fin (-1))
    else if code c = 41 then .error .unexpectedParen
    else .ok ((p.reserve (spacesEnd p.text p.position)).fill p.spans.length
      (atomEnd p.text (spacesEnd p.text p.position)) (-2))
termination_by (p.text.length - p.position, 0)
decreasing_by
  exact Prod.Lex.left _ _ (Nat.lt_of_lt_of_le
    (sub_lt_of_getElem? _h (Nat.lt_succ_self _)) (Nat.sub_le_sub_left (le_spacesEnd _ _) _))

/-- The items of a list from `pos` on, after `children` others: the packet, the
position after the list, and the number of children. -/
def scanItems (maxDepth : ℕ) (p : Packet U) (pos depth : ℕ) (children : ℤ) :
    Except PacketError (Packet U × ℕ × ℤ) :=
  match _h : p.text[spacesEnd p.text pos]? with
  | none => .error .unterminatedList
  | some c =>
    if code c = 41 then .ok (p, spacesEnd p.text pos + 1, children)
    else
      match scan maxDepth { p with position := spacesEnd p.text pos } (depth + 1) with
      | .error e => .error e
      | .ok q =>
        -- always: no item is empty, and the text stays
        if _hlt : q.text.length - q.position < p.text.length - pos then
          scanItems maxDepth q q.position depth (children + 1)
        else .error .unterminatedList
termination_by (p.text.length - pos, 1)
decreasing_by
  · rcases Nat.lt_or_eq_of_le
      (Nat.sub_le_sub_left (le_spacesEnd p.text pos) p.text.length) with hlt | heq
    · exact Prod.Lex.left _ _ hlt
    · simp only [heq]
      exact Prod.Lex.right _ Nat.zero_lt_one
  · exact Prod.Lex.left _ _ _hlt
end

/-! ## The engine's nodes -/

/-- The children of a list, with the child that was last asked for. -/
structure Children where
  first : ℕ
  length : ℕ
  cursor : ℕ
  cursorIndex : ℕ

/-- A list knows where it is in the text. -/
inductive Node (U : Type)
  | text (atom : List U)
  | list (start fin : ℕ) (items : Children)

/-- The nodes made so far, by their places in the table. -/
abbrev Nodes (U : Type) := ℕ → Option (Node U)

/-- The rest of a quoted string; `run` has not been appended to `decoded` yet. -/
def decode (decoded run : List U) : List U → List U
  | [] => decoded ++ run
  | c :: s =>
    if code c ≠ 92 then decode decoded (run ++ [c]) s
    else match s with
      | [] => decoded ++ run
      | e :: s =>
        decode (decoded ++ run ++ [if code e = 110 then ofCode 10
          else if code e = 116 then ofCode 9 else if code e = 114 then ofCode 13 else e]) [] s

/-- `text.substring(start, end)` -/
def substring (text : List U) (start fin : ℕ) : List U := (text.take fin).drop start

namespace Packet

/-- The node at a place in the table, when it is first asked for. -/
def makeNode (p : Packet U) (index : ℕ) : Option (Node U) :=
  p.spans[index]?.map fun sp =>
    if sp.children ≥ 0 then
      .list sp.start sp.fin ⟨index + 1, sp.children.toNat, index + 1, 0⟩
    else if sp.children = -2 then .text (substring p.text sp.start sp.fin)
    else .text (decode [] [] (substring p.text (sp.start + 1) (sp.fin - 1)))

def node (p : Packet U) (nodes : Nodes U) (index : ℕ) : Option (Node U × Nodes U) :=
  match nodes index with
  | some known => some (known, nodes)
  | none => (p.makeNode index).map fun value => (value, Function.update nodes index (some value))

/-- `steps` siblings on. -/
def advance (p : Packet U) : ℕ → ℕ → Option ℕ
  | 0, cursor => some cursor
  | steps + 1, cursor => p.spans[cursor]?.bind fun sp => advance p steps sp.next

/-- Moves the cursor to a child. -/
def seek (p : Packet U) (items : Children) (index : ℕ) : Option Children :=
  let items := if index < items.cursorIndex then { items with cursor := items.first, cursorIndex := 0 }
    else items
  (p.advance (index - items.cursorIndex) items.cursor).map fun cursor =>
    { items with cursor := cursor, cursorIndex := index }

/-- `items.get(index)` of the list at `list`: the place of the child, and the nodes. -/
def get (p : Packet U) (nodes : Nodes U) (list index : ℕ) : Option (ℕ × Nodes U) :=
  match nodes list with
  | some (.list start fin items) =>
    if index ≥ items.length then none
    else (p.seek items index).bind fun items =>
      (p.node (Function.update nodes list (some (.list start fin items))) items.cursor).map fun r =>
        (items.cursor, r.2)
  | _ => none

end Packet

/-- The packet with the table of a text, and the root. -/
def parsePacket (maxChars maxDepth : ℕ) (s : List U) :
    Except PacketError (Packet U × Nodes U) :=
  if s.length > maxChars then .error .tooLarge
  else
    match scan maxDepth ⟨s, [], 0⟩ 0 with
    | .error e => .error e
    | .ok packet =>
      if spacesEnd packet.text packet.position ≠ s.length then .error .trailingInput
      else match packet.node (fun _ => none) 0 with
        | some (_, nodes) => .ok (packet, nodes)
        | none => .error .empty

/-! ## What the engine writes -/

/-- `Sexp.quote` -/
def quote (s : List U) : List U :=
  [ofCode 34] ++ s.flatMap (fun c =>
    if code c = 34 ∨ code c = 92 then [ofCode 92, c]
    else if code c = 10 then [ofCode 92, ofCode 110]
    else if code c = 9 then [ofCode 92, ofCode 116]
    else if code c = 13 then [ofCode 92, ofCode 114]
    else [c]) ++ [ofCode 34]

end Engine
end ScalaRs.Wire
