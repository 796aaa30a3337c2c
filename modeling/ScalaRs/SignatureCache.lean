import ScalaRs.ClassSignatures
import Mathlib.Data.List.Sort

/-! # The signature cache

Signatures are shared: a reference is an address, and what the cache holds stays
allocated as long as the cache does. The walk that linearizes a class is written
over any monad in which the signature of a class can be asked for. -/
namespace ScalaRs.Signatures
open Pickling

/-- A reference to an allocated signature. -/
structure Rc where
  ptr : ℕ
  val : ClassSig

/-- A position is recorded for a key that has none yet. -/
def insertFirst (index : ClassKey → Option ℕ) (entry : ClassKey × ℕ) : ClassKey → Option ℕ :=
  Function.update index entry.1 ((index entry.1).or (some entry.2))

/-- Where the first signature with each key is. -/
def firstPositions (keys : List ClassKey) : ClassKey → Option ℕ :=
  keys.zipIdx.foldl insertFirst fun _ => none

private theorem foldl_insertFirst (keys : List ClassKey) (key : ClassKey) (k : ℕ)
    (index : ClassKey → Option ℕ) :
    (keys.zipIdx k).foldl insertFirst index key =
      (index key).or ((keys.idxOf? key).map (· + k)) := by
  induction keys generalizing k index with
  | nil => simp
  | cons other keys ih =>
    rw [List.zipIdx_cons, List.foldl_cons, ih, List.idxOf?_cons, insertFirst]
    by_cases h : key = other
    · subst h
      cases index key <;> simp
    · have hne : (other == key) = false := by simpa using Ne.symm h
      rw [Function.update_of_ne h, hne]
      cases index key <;> cases keys.idxOf? key <;> simp
      omega

theorem firstPositions_eq (keys : List ClassKey) (key : ClassKey) :
    firstPositions keys key = keys.idxOf? key := by
  rw [firstPositions, foldl_insertFirst]
  simp

theorem firstPositions_lt {keys : List ClassKey} {key : ClassKey} {at_ : ℕ}
    (h : firstPositions keys key = some at_) : at_ < keys.length := by
  rw [firstPositions_eq] at h
  obtain ⟨hlt, -⟩ := List.idxOf?_eq_some_iff.mp h
  exact hlt

/-- The signatures of one class file's pickle, and where each class is in them. -/
structure PickleSigs where
  sigs : List Rc
  index : ClassKey → Option ℕ
  inRange : ∀ {key at_}, index key = some at_ → at_ < sigs.length

inductive FileSigs
  | Sigs (pickle : PickleSigs)
  /-- The class file exists and has no `ScalaSignature`. -/
  | NoSignature

/-- What class files held, decoded once, and every signature allocated so far:
the address of a signature is its position in the heap. -/
structure Files where
  sigs : String → Option FileSigs
  heap : List ClassSig

def Files.insert (files : Files) (c : String) (f : FileSigs) : Files :=
  { files with sigs := Function.update files.sigs c (some f) }

def allocate (heap : List ClassSig) (sigs : List ClassSig) : List Rc :=
  sigs.zipIdx.map fun (sig, i) => ⟨heap.length + i, sig⟩


def PickleSigs.new (heap : List ClassSig) (sigs : List ClassSig) : PickleSigs where
  sigs := allocate heap sigs
  index := firstPositions (sigs.map ClassSig.key)
  inRange h := by simpa [allocate] using firstPositions_lt h

/-- The signature of a class among those of a pickle. -/
def PickleSigs.find (pickle : PickleSigs) (key : ClassKey) : Option Rc :=
  match h : pickle.index key with
  | some at_ => some (pickle.sigs.get ⟨at_, pickle.inRange h⟩)
  | none => none

/-- What opening a candidate file finds. -/
inductive Opened
  | Missing
  | NoSignature
  | BadPickle (e : ReadError)
  | Sigs (pickle : PickleSigs)

variable (src : ClassSource)

def openFile (c : String) (files : Files) : Opened × Files :=
  match files.sigs c with
  | some (.Sigs pickle) => (.Sigs pickle, files)
  | some .NoSignature => (.NoSignature, files)
  | none =>
    match src.classBytes c with
    | none => (.Missing, files)
    | some bytes =>
      match src.scalaSignatureBytes bytes with
      | none => (.NoSignature, files.insert c .NoSignature)
      | some raw =>
        match src.classSigs raw with
        | .ok sigs =>
          let pickle := PickleSigs.new files.heap sigs
          (.Sigs pickle, { files with heap := files.heap ++ sigs }.insert c (.Sigs pickle))
        -- a pickle that does not parse is read again the next time
        | .error e => (.BadPickle e, files)

/-- The candidates in turn; `last` is the reason the ones before gave. -/
def loadFrom (key : ClassKey) : List String → LoadError → Files → Except LoadError Rc × Files
  | [], last, files => (.error last, files)
  | c :: candidates, last, files =>
    match openFile src c files with
    | (.Missing, files) => loadFrom key candidates last files
    | (.NoSignature, files) => loadFrom key candidates (.NoSignature key.1) files
    | (.BadPickle e, files) => loadFrom key candidates (.BadPickle key.1 e) files
    | (.Sigs pickle, files) =>
      match pickle.find key with
      | some sig => (.ok sig, files)
      | none => loadFrom key candidates (.NoSuchClass key.1) files

def load (fullName : String) (module : Bool) (files : Files) : Except LoadError Rc × Files :=
  loadFrom src (fullName, module) (pickleFilesFor fullName module) (.NotFound fullName) files

/-- One class in a linearization, with the substitution that expresses its type
parameters in the queried class's vocabulary. -/
structure LinStep where
  className : String
  module : Bool
  subst : Subst

def LinStep.key (step : LinStep) : ClassKey := (step.className, step.module)

def LIN_BUDGET : ℕ := 4096
def LIN_MAX_DEPTH : ℕ := 32

/-- Bookkeeping for one linearization walk. `cut` is not in the source and
nothing reads it: it tells whether a limit has stopped the walk. -/
structure LinWalk where
  budget : ℕ
  errs : List LoadError
  cut : Bool

def LinWalk.start : LinWalk := ⟨LIN_BUDGET, [], false⟩

/-- One member found by a lookup, its type substituted into the queried class's
vocabulary. -/
structure MemberHit where
  owner : String
  ownerModule : Bool
  declarationIndex : ℕ
  member : Member

/-- The arguments a child passes to its parent's type parameters. -/
def bindings (tparams : List TParam) (args : List SigType) : Subst :=
  (tparams.zip args).foldl (fun next (tp, arg) => Function.update next tp.name (some arg))
    emptySubst

/-- A placed step, with the substitution a later parent has for its class. -/
def takeOver (plin : List LinStep) (existing : LinStep) : LinStep :=
  match plin.find? fun e => e.key = existing.key with
  | some later => { existing with subst := later.subst }
  | none => existing

/-- A later parent's steps before the ones already placed, which keep their
position and take over the later substitution. -/
def mergeParent (plin acc : List LinStep) : List LinStep :=
  let acc := acc.map (takeOver plin)
  plin.filter (fun e => e.key ∉ acc.map LinStep.key) ++ acc

/-- The steps of `acc` whose class comes for the first time. -/
def dropSeen : List ClassKey → List LinStep → List LinStep
  | _, [] => []
  | seen, e :: acc =>
    if e.key ∈ seen then dropSeen seen acc else e :: dropSeen (seen ++ [e.key]) acc

section Walk

variable {m : Type → Type} [Monad m] (classSig : String → Bool → m (Except LoadError ClassSig))

/-- What a parent that names a class adds to the steps, given the walk of it. -/
def addParent (visit : String → Subst → LinWalk → m (List LinStep × LinWalk)) (subst : Subst) :
    List LinStep × LinWalk → SigType → m (List LinStep × LinWalk)
  | (acc, walk), .Ref sym args =>
    let sym := parentName sym
    if isDotted sym then do
      let lifted := args.map fun a => src.applySubst a subst
      let psig ← classSig sym false
      let next := match psig with
        | .ok psig => bindings psig.tparams lifted
        | .error _ => emptySubst
      let (plin, walk) ← visit sym next walk
      pure (mergeParent plin acc, walk)
    else pure (acc, walk)
  | (acc, walk), _ => pure (acc, walk)

/-- `room` is how many more levels the walk may descend, this one included. -/
def linOf : ℕ → String → Bool → Subst → LinWalk → m (List LinStep × LinWalk)
  | 0, className, module, subst, walk =>
    pure ([⟨className, module, subst⟩], { walk with cut := true })
  | room + 1, className, module, subst, walk =>
    let here : LinStep := ⟨className, module, subst⟩
    if walk.budget = 0 then pure ([here], { walk with cut := true })
    else do
      let walk := { walk with budget := walk.budget - 1 }
      let sig ← classSig className module
      match sig with
      | .error e => pure ([here], { walk with errs := walk.errs ++ [e] })
      | .ok sig => do
        let (acc, walk) ← sig.parents.foldlM
          (addParent src classSig (fun sym next walk => linOf room sym false next walk) subst)
          ([], walk)
        pure (here :: dropSeen [here.key] acc, walk)

/-- The walk of a class from the start. -/
def linWalk (fullName : String) (module : Bool) : m (List LinStep × LinWalk) :=
  linOf src classSig (LIN_MAX_DEPTH + 1) fullName module emptySubst LinWalk.start

end Walk

/-- Where each member name is declared. -/
abbrev MemberIndex := String → Option (List ℕ)

structure SigCache where
  cache : String → Option (Except LoadError Rc)
  files : Files
  linearizations : ClassKey → Option (List LinStep × List LoadError)
  memberIndexes : ℕ → Option MemberIndex

namespace SigCache

def new : SigCache := ⟨fun _ => none, ⟨fun _ => none, []⟩, fun _ => none, fun _ => none⟩

def cacheKey (fullName : String) (module : Bool) : String :=
  if module then fullName ++ "$" else fullName

def classSig (fullName : String) (module : Bool) : StateM SigCache (Except LoadError Rc) :=
  fun c =>
    let key := cacheKey fullName module
    match c.cache key with
    | some hit => (hit, c)
    | none =>
      let (got, files) := load src fullName module c.files
      (got, { c with files := files, cache := Function.update c.cache key (some got) })

/-- The signature itself, whatever its address. -/
def sigOf (fullName : String) (module : Bool) : StateM SigCache (Except LoadError ClassSig) :=
  fun c =>
    let (got, c) := classSig src fullName module c
    (got.map Rc.val, c)

/-- The linearization and the errors it appends to its caller's. -/
def linearization (fullName : String) (module : Bool) :
    StateM SigCache (List LinStep × List LoadError) := fun c =>
  match c.linearizations (fullName, module) with
  | some answer => (answer, c)
  | none =>
    let (result, c) := linWalk src (sigOf src) fullName module c
    let got := (result.1, result.2.errs)
    (got, { c with
      linearizations := Function.update c.linearizations (fullName, module) (some got) })

end SigCache

/-- A member's position comes last among those of its name. -/
def MemberIndex.push (index : MemberIndex) (entry : Member × ℕ) : MemberIndex :=
  Function.update index entry.1.name (some ((index entry.1.name).getD [] ++ [entry.2]))

def memberIndex (members : List Member) : MemberIndex :=
  members.zipIdx.foldl MemberIndex.push fun _ => none

/-- The positions of a name's declarations, by a linear scan. -/
def scanPositions (members : List Member) (name : String) : List ℕ :=
  let encoded := src.encodeMethodName name
  (members.zipIdx.filter fun (m, _) => m.name = name ∨ m.name = encoded).map Prod.snd

/-- The positions of a name's declarations, through an index of the members. -/
def indexedPositions (index : MemberIndex) (name : String) : List ℕ :=
  let encoded := src.encodeMethodName name
  let positions := (index name).getD []
  if encoded ≠ name then (positions ++ (index encoded).getD []).mergeSort else positions

def hitOf (step : LinStep) (position : ℕ) (m : Member) : MemberHit :=
  { owner := step.className
    ownerModule := step.module
    declarationIndex := position
    member := { m with ty := src.applySubst m.ty step.subst } }

/-- The hits at positions of a class's members. -/
def hitsAt (step : LinStep) (members : List Member) (positions : List ℕ) : List MemberHit :=
  positions.filterMap fun position => members[position]?.map (hitOf src step position)

namespace SigCache

/-- The positions of a name's declarations in a class: classes with 128 members
or more are indexed by the address of their signature. -/
def memberPositions (sig : Rc) (name : String) : StateM SigCache (List ℕ) := fun c =>
  if sig.val.members.length < 128 then (scanPositions src sig.val.members name, c)
  else
    let index := (c.memberIndexes sig.ptr).getD (memberIndex sig.val.members)
    (indexedPositions src index name,
      { c with memberIndexes := Function.update c.memberIndexes sig.ptr (some index) })

/-- What one step of the linearization adds to the hits. -/
def addHits (name : String) (found : List MemberHit) (step : LinStep) :
    StateM SigCache (List MemberHit) := do
  let sig ← classSig src step.className step.module
  match sig with
  | .error _ => pure found
  | .ok sig => do
    let positions ← memberPositions src sig name
    pure (found ++ hitsAt src step sig.val.members positions)

def lookup (fullName : String) (module : Bool) (name : String) :
    StateM SigCache (List MemberHit × List LoadError) := do
  let lin ← linearization src fullName module
  let found ← lin.1.foldlM (addHits src name) []
  pure (found, lin.2)

end SigCache
end ScalaRs.Signatures
