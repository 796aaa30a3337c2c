import ScalaRs.PickleReader
import Mathlib.Logic.Function.Basic

/-! # Class signatures and where their pickles are

A signature is self-contained: every reference of the pickle it was read from is
resolved into a name or a type tree. -/
namespace ScalaRs.Signatures
open Pickling

structure Deprecation where
  message : String
  since : String
  deriving DecidableEq

inductive MemberKind
  | Def | Val | AbstractType | TypeAlias | Class | Module
  deriving DecidableEq

mutual
/-- A type recovered from a pickle. `Ref` names a class by its dotted full name,
a type parameter or an abstract type member by its plain name. -/
inductive SigType
  | None
  | This (sym : String)
  | Single (pre : SigType) (sym : String)
  | Constant (value : Pickling.Constant)
  | StringConstant (value : String)
  | Ref (sym : String) (args : List SigType)
  | Bounds (lo hi : SigType)
  | Refined (parents : List SigType) (decls : List Member)
  | Method (params : List Param) (isImplicit : Bool) (result : SigType)
  | Poly (tparams : List TParam) (result : SigType)
  | Existential (quantified : List TParam) (result : SigType)
  | Annotated (tpe : SigType)
  | Super (thisTpe superTpe : SigType)

structure Param where
  name : String
  ty : SigType
  byName : Bool
  flags : UInt64

structure TParam where
  name : String
  bounds : SigType
  variance : Int8

/-- Where a macro's implementation lives. -/
structure MacroImpl where
  className : String
  methodName : String
  isBundle : Bool
  isBlackbox : Bool
  signature : List (List Int32)
  targs : List SigType

structure Member where
  name : String
  kind : MemberKind
  flags : UInt64
  ty : SigType
  aliasPrefix : Option SigType
  resultPrefix : Option SigType
  macroImpl : Option MacroImpl
  privateWithin : Option String
  hasPrivateWithin : Bool
  deprecated : Option Deprecation
end

structure ClassSig where
  fullName : String
  isModule : Bool
  declaringOwnerIsModule : Bool
  flags : UInt64
  tparams : List TParam
  parents : List SigType
  members : List Member
  unresolved : List String
  deprecated : Option Deprecation
  children : List (String × Bool)

/-- A class by its dotted name, or the module class of that name. -/
abbrev ClassKey := String × Bool

def ClassSig.key (sig : ClassSig) : ClassKey := (sig.fullName, sig.isModule)

/-- Why a class could not be supplied from pickles. -/
inductive LoadError
  | NotFound (name : String)
  | NoSignature (name : String)
  | BadPickle (name : String) (e : ReadError)
  | NoSuchClass (name : String)
  deriving DecidableEq

/-- A map from type parameters to types. -/
abbrev Subst := String → Option SigType

def emptySubst : Subst := fun _ => none

/-- A pure class source, together with the code of other files that loading and
looking up classes call: the `ScalaSignature` attribute of a class file, the
signatures of a pickle (`class_sigs` after `read_pickle`), substitution and the
encoding of operator names. -/
structure ClassSource where
  classBytes : String → Option (List UInt8)
  scalaSignatureBytes : List UInt8 → Option (List UInt8)
  classSigs : List UInt8 → Except ReadError (List ClassSig)
  applySubst : SigType → Subst → SigType
  encodeMethodName : String → String

/-- Both class files of a base name that `out` does not list yet. -/
def pushCandidates (module : Bool) (out : List String) (base : String) : List String :=
  let candidates := if module then [base ++ "$", base] else [base, base ++ "$"]
  candidates.foldl (fun out c => if c ∈ out then out else out ++ [c]) out

/-- The base names of the split after `k` packages. -/
def splitBases (parts : List String) (k : ℕ) : List String :=
  let nested := "/".intercalate (parts.take k) ++ "/" ++ "$".intercalate (parts.drop k)
  if k + 1 < parts.length then
    [nested, "/".intercalate (parts.take k) ++ "/" ++ parts.getD k ""]
  else [nested]

/-- The class files that may carry the pickle describing a class, the most
specific first. -/
def pickleFilesFor (fullName : String) (module : Bool) : List String :=
  let parts := (fullName.toList.splitOn '.').map String.ofList
  let splits := (List.range' 1 (parts.length - 1)).reverse.flatMap (splitBases parts)
  let bases := splits ++
    (if 2 ≤ parts.length then ["$".intercalate parts, parts.headD ""] else []) ++
    (if parts.length = 1 then [fullName] else [])
  bases.foldl (pushCandidates module) []

/-- What stands before and after the last occurrence of `pat`. -/
def rsplitOnce (pat : List Char) : List Char → Option (List Char × List Char)
  | [] => if pat = [] then some ([], []) else none
  | c :: s =>
    match rsplitOnce pat s with
    | some (before, after) => some (c :: before, after)
    | none => if pat <+: c :: s then some ([], (c :: s).drop pat.length) else none

/-- A parent's name without the singleton prefix its reference retains. -/
def parentName (sym : String) : String :=
  match rsplitOnce ".type#".toList sym.toList with
  | some (_, name) => String.ofList name
  | none => sym

def isDotted (sym : String) : Bool := sym.toList.contains '.'

example : pickleFilesFor "a.B.C" false =
    ["a/B/C", "a/B/C$", "a/B$C", "a/B$C$", "a/B", "a/B$", "a$B$C", "a$B$C$", "a", "a$"] := by
  decide

example : parentName "a.M.type#a.M.N" = "a.M.N" := by decide

end ScalaRs.Signatures
