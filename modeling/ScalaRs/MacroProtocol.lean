import ScalaRs.SexpAgreement
import Mathlib.Logic.Function.Basic
import Mathlib.Algebra.GroupWithZero.Nat

/-! # Macro requests and their back-references

The compiler and the engine take turns. An expansion may ask questions, and the
compiler may send other requests before it answers. What a request leaves out
because it was sent before is what the engine has to find. -/
namespace ScalaRs.MacroProtocol
open Wire

abbrev Text := List Char

/-- `str::len` -/
def utf8Length (text : Text) : ℕ := (text.map Char.utf8Size).sum

/-- What does not change while the compiler runs. -/
structure CompilerRun where
  settings : List Text
  sources : ℕ → Option Text
  paths : ℕ → Text

/-! ## Requests -/

inductive Settings
  | settings (options : List Text)
  | settingsSame
  deriving DecidableEq

inductive Position
  | none
  | src (index : ℕ) (text : Option Text) (path : Text)
  deriving DecidableEq

/-- The text of a receiver. What a reference stands for is not sent. -/
inductive Compact
  | whole (text : Text)
  | cachedPrefixRef (before : Text) (id : ℕ) (elided after : Text)

inductive Receiver
  | no
  | orig (built : Text)
  | cachedPrefix (id : ℕ) (compact : Compact)

/-- `nesting` is how deep the lists of the line are nested. -/
structure Request where
  pfx : Receiver
  position : Position
  settings : Settings
  nesting : ℕ

/-- A macro call: its file, its receiver if it has one that can be sent, and how deep
and how long its line gets. -/
structure Call where
  file : ℕ
  pfx : Option Text
  nesting : ℕ
  bytes : ℕ

inductive Reply
  | ok | err | abort
  deriving DecidableEq

/-! ## The compiler -/

/-- `macro_expansion`, waiting for its reply -/
structure Conversation where
  cacheTopLevel : Bool
  cachedPrefix : Option (ℕ × Text)

structure Compiler where
  settingsSent : Bool
  sourcesSent : List ℕ
  cachedPrefix : Option (ℕ × Text)
  nextPrefixId : ℕ
  macroDepth : ℕ
  conversations : List Conversation

/-- `str::find`, in characters -/
def find (haystack needle : Text) : Option ℕ :=
  (List.range (haystack.length + 1)).find? fun i => needle.isPrefixOf (haystack.drop i)

/-- The leading characters that fit in so many bytes. -/
def leadingSlice : ℕ → Text → Text
  | _, [] => []
  | bytes, c :: text => if c.utf8Size ≤ bytes then c :: leadingSlice (bytes - c.utf8Size) text else []

/-- Where `key`, a leading slice of the needle, is found, the needle is checked in full. -/
def findKeyed (haystack needle key : Text) (start : ℕ) : Option ℕ :=
  match find (haystack.drop start) key with
  | none => none
  | some offset =>
    if needle.isPrefixOf (haystack.drop (start + offset)) then some (start + offset)
    -- always: the key is not empty
    else if start < haystack.length then findKeyed haystack needle key (start + offset + 1)
    else none
termination_by haystack.length - start

def findLarge (haystack needle : Text) : Option ℕ :=
  if utf8Length needle > utf8Length haystack then none
  else
    match leadingSlice 48 needle with
    | [] => some 0
    | key => findKeyed haystack needle key 0

namespace Compiler

/-- `macro_engine_busy` -/
def busy (c : Compiler) : Bool := !c.conversations.isEmpty

/-- A receiver with the cached one replaced by a reference. -/
def compact (c : Compiler) (built : Text) : Compact :=
  match c.cachedPrefix with
  | none => .whole built
  | some (previousId, previous) =>
    match findLarge built previous with
    | none => .whole built
    | some i => .cachedPrefixRef (built.take i) previousId previous (built.drop (i + previous.length))

/-- The request and the prefix to cache with its reply. -/
def expansionRequest (run : CompilerRun) (c : Compiler) (call : Call) :
    Compiler × Request × Option (ℕ × Text) :=
  let position := match run.sources call.file with
    | some _ => Position.src call.file none (run.paths call.file)
    | none => .none
  match call.pfx with
  | none => (c, ⟨.no, position, .settings run.settings, call.nesting⟩, none)
  | some built =>
    if utf8Length built ≥ 4096 ∧ c.macroDepth = 0 ∧ c.busy = false then
      ({ c with nextPrefixId := c.nextPrefixId + 1 },
        ⟨.cachedPrefix c.nextPrefixId (c.compact built), position, .settings run.settings,
          call.nesting⟩,
        some (c.nextPrefixId, built))
    else (c, ⟨.orig built, position, .settings run.settings, call.nesting⟩, none)

/-- Inserts the text of a file the first time. -/
def fillSourceText (run : CompilerRun) (c : Compiler) (r : Request) : Compiler × Request :=
  match r.position with
  | .none => (c, r)
  | .src index _ path =>
    if index ∈ c.sourcesSent then (c, r)
    else ({ c with sourcesSent := index :: c.sourcesSent },
      { r with position := .src index (run.sources index) path })

/-- Replaces the settings once they have been sent. -/
def elideSentSettings (c : Compiler) (r : Request) : Compiler × Request :=
  if c.settingsSent then (c, { r with settings := .settingsSame })
  else ({ c with settingsSent := true }, r)

/-- `macro_expansion` until it waits for the reply -/
def beginExpansion (run : CompilerRun) (c : Compiler) (call : Call) : Compiler × Request :=
  let cacheTopLevel := c.macroDepth == 0 && !c.busy
  let built := c.expansionRequest run call
  let filled := built.1.fillSourceText run built.2.1
  let elided := filled.1.elideSentSettings filled.2
  ({ elided.1 with conversations := ⟨cacheTopLevel, built.2.2⟩ :: c.conversations }, elided.2)

/-- `macro_expansion` from the reply on -/
def endExpansion (c : Compiler) (reply : Reply) : Compiler :=
  match c.conversations with
  | [] => c
  | v :: rest =>
    { c with
      conversations := rest
      cachedPrefix := if v.cacheTopLevel then
          if reply = .ok then v.cachedPrefix else none
        else c.cachedPrefix }

end Compiler

/-! ## The engine -/

/-- `handling`: before `expand` has recorded what the request carries; `recorded`: before
the prefix is built; `failed`: an exception is on its way to the reply. -/
inductive Phase
  | handling | recorded | built | failed
  deriving DecidableEq

/-- An expansion, with the settings its `ExpansionFrame` restores if it is nested. -/
structure Expansion where
  request : Request
  phase : Phase
  frame : Option (List Text)

/-- The cached prefix is known by the text it was built from. -/
structure Engine where
  settings : List Text
  sources : ℕ → Option (Text × Text)
  cachedPrefix : Option (ℕ × Text)
  expansions : List Expansion

/-- An exception out of `query`. Only the macro implementation can catch it. -/
def Expansion.throwInto (x : Expansion) : Expansion :=
  { x with phase := if x.phase = .built then .built else .failed }

/-- The text of a receiver with its reference resolved. -/
def resolve (cachedPrefix : Option (ℕ × Text)) : Compact → Option Text
  | .whole text => some text
  | .cachedPrefixRef before id _ after =>
    cachedPrefix.bind fun held => if held.1 = id then some (before ++ held.2 ++ after) else none

namespace Engine

/-- An exception where the engine reads a line: in the main loop it is the reply, in
`query` it is thrown into the expansion that asked. -/
def throwLine (e : Engine) : Engine × Option Reply :=
  match e.expansions with
  | [] => (e, some .err)
  | x :: rest => ({ e with expansions := x.throwInto :: rest }, none)

/-- The engine reads `(expand ...)`. -/
def expandLine (e : Engine) (r : Request) : Engine × Option Reply :=
  if r.nesting > maxWireDepth then e.throwLine
  else
    let frame := if e.expansions.isEmpty then none else some e.settings
    ({ e with expansions := ⟨r, .handling, frame⟩ :: e.expansions }, none)

/-- The engine reads `(a ...)`, which the main loop does not know. -/
def answerLine (e : Engine) : Engine × Option Reply :=
  match e.expansions with
  | [] => (e, some .err)
  | _ :: _ => (e, none)

/-- `expand` records what the request carries. -/
def record (e : Engine) (x : Expansion) (rest : List Expansion) : Engine :=
  let settings := match x.request.settings with
    | .settings options => options
    | .settingsSame => e.settings
  let sources := match x.request.position with
    | .src index (some text) path => Function.update e.sources index (some (text, path))
    | _ => e.sources
  let phase := match x.request.position with
    | .src index _ _ => if (sources index).isSome then Phase.recorded else .failed
    | .none => .recorded
  { e with settings := settings, sources := sources, expansions := { x with phase := phase } :: rest }

/-- `buildTree` of the prefix -/
def buildPrefix (e : Engine) (x : Expansion) (rest : List Expansion) : Engine :=
  match x.request.pfx with
  | .cachedPrefix id compact =>
    match resolve e.cachedPrefix compact with
    | some text =>
      { e with cachedPrefix := some (id, text), expansions := { x with phase := .built } :: rest }
    | none => { e with expansions := { x with phase := .failed } :: rest }
  | _ => { e with expansions := { x with phase := .built } :: rest }

/-- The reply of an expansion; a nested one restores the settings. -/
def finish (e : Engine) (x : Expansion) (rest : List Expansion) : Engine :=
  { e with settings := x.frame.getD e.settings, expansions := rest }

end Engine

/-! ## Runs -/

/-- A run until a line that is too long ends the session. -/
structure State where
  compiler : Compiler
  engine : Engine
  engineTurn : Bool
  ended : Bool

def State.start : State where
  compiler := ⟨false, [], none, 0, 0, []⟩
  engine := ⟨[], fun _ => none, none, []⟩
  engineTurn := false
  ended := false

/-- The engine has read a line: it has the turn unless it replies at once. -/
def State.read (s : State) (c : Compiler) (r : Engine × Option Reply) : State :=
  match r.2 with
  | none => { s with compiler := c, engine := r.1, engineTurn := true }
  | some reply => { s with compiler := c.endExpansion reply, engine := r.1, engineTurn := false }

inductive Event
  | typing (macroDepth : ℕ)
  | request (call : Call)
  | answer
  | refuse
  | query
  | record
  | build
  | reply (r : Reply)

/-- The compiler sends a request when it types or answers a question. The engine asks
in any phase, and replies with an error unless the prefix is built. -/
def step (run : CompilerRun) (s : State) : Event → Option State
  | .typing macroDepth =>
    if s.ended || s.engineTurn then none
    else some { s with compiler := { s.compiler with macroDepth := macroDepth } }
  | .request call =>
    if s.ended || s.engineTurn then none
    else
      let sent := s.compiler.beginExpansion run call
      if call.bytes + 1 > maxWireBytes then some { s with compiler := sent.1, ended := true }
      else some (s.read sent.1 (s.engine.expandLine sent.2))
  | .answer =>
    if s.ended || s.engineTurn || s.compiler.conversations.isEmpty then none
    else some (s.read s.compiler s.engine.answerLine)
  | .refuse =>
    if s.ended || s.engineTurn || s.compiler.conversations.isEmpty then none
    else some (s.read s.compiler s.engine.throwLine)
  | .query =>
    match s.engineTurn, s.engine.expansions with
    | true, x :: _ => if x.phase = .failed then none else some { s with engineTurn := false }
    | _, _ => none
  | .record =>
    match s.engineTurn, s.engine.expansions with
    | true, x :: rest =>
      if x.phase = .handling then some { s with engine := s.engine.record x rest } else none
    | _, _ => none
  | .build =>
    match s.engineTurn, s.engine.expansions with
    | true, x :: rest =>
      if x.phase = .recorded then some { s with engine := s.engine.buildPrefix x rest } else none
    | _, _ => none
  | .reply r =>
    match s.engineTurn, s.engine.expansions with
    | true, x :: rest =>
      if x.phase = .built ∨ (r = .err ∧ x.phase ≠ .handling) then
        some { s with
          compiler := s.compiler.endExpansion r
          engine := s.engine.finish x rest
          engineTurn := false }
      else none
    | _, _ => none

/-- The back-references of the request that the engine handles next resolve. -/
def Resolves (run : CompilerRun) (s : State) : Event → Prop
  | .record => ∀ x ∈ s.engine.expansions.head?,
    (x.request.settings = .settingsSame → s.engine.settings = run.settings) ∧
    ∀ index path, x.request.position = .src index none path →
      ∃ text, run.sources index = some text ∧
        s.engine.sources index = some (text, run.paths index)
  | .build => ∀ x ∈ s.engine.expansions.head?, ∀ id before previousId elided after,
    x.request.pfx = .cachedPrefix id (.cachedPrefixRef before previousId elided after) →
      s.engine.cachedPrefix = some (previousId, elided)
  | _ => True

end ScalaRs.MacroProtocol
