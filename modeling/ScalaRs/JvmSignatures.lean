import ScalaRs.JvmDescriptors

/-! # Signatures of classes, methods and fields

The grammar of JVMS 4.7.9.1. An identifier is a non-empty string without the characters that the
grammar uses itself. -/
namespace ScalaRs.JvmSignatures
open CodeUnits JvmDescriptors

structure Ident (banned : List Char) where
  text : List Char
  nonempty : text ≠ []
  allowed : ∀ c ∈ text, c ∉ banned

/-- How a type argument varies: `T`, `+T` or `-T`. -/
inductive Variance
  | exact | upper | lower

variable {banned : List Char}

mutual

inductive JavaType (banned : List Char) : Type
  | base (t : BaseType)
  | ref (t : RefType banned)

inductive RefType (banned : List Char) : Type
  | typeVar (name : Ident banned)
  | array (elem : JavaType banned)
  | cls (package : List (Ident banned)) (part : ClassPart banned)

/-- A class and the classes within it that follow, each with its type arguments. -/
inductive ClassPart (banned : List Char) : Type
  | last (name : Ident banned) (args : TypeArgs banned)
  | outer (name : Ident banned) (args : TypeArgs banned) (inner : ClassPart banned)

inductive TypeArgs (banned : List Char) : Type
  | nil
  | star (rest : TypeArgs banned)
  | arg (variance : Variance) (t : RefType banned) (rest : TypeArgs banned)

end

structure TypeParam (banned : List Char) where
  name : Ident banned
  classBound : Option (RefType banned)
  interfaceBounds : List (RefType banned)

structure ClassType (banned : List Char) where
  package : List (Ident banned)
  part : ClassPart banned

structure ClassSignature (banned : List Char) where
  typeParams : List (TypeParam banned)
  superclass : ClassType banned
  interfaces : List (ClassType banned)

inductive ThrowsType (banned : List Char)
  | cls (t : ClassType banned)
  | typeVar (name : Ident banned)

structure MethodSignature (banned : List Char) where
  typeParams : List (TypeParam banned)
  params : List (JavaType banned)
  /-- `none` is `V`. -/
  result : Option (JavaType banned)
  throwsTypes : List (ThrowsType banned)

/-! ## The strings -/

def Variance.text : Variance → List Char
  | exact => []
  | upper => ['+']
  | lower => ['-']

def packageText (package : List (Ident banned)) : List Char :=
  package.flatMap fun name => name.text ++ ['/']

def TypeArgs.isNil : TypeArgs banned → Bool
  | .nil => true
  | _ => false

mutual

def JavaType.text : JavaType banned → List Char
  | .base t => [t.letter]
  | .ref t => t.text

def RefType.text : RefType banned → List Char
  | .typeVar name => 'T' :: name.text ++ [';']
  | .array elem => '[' :: elem.text
  | .cls package part => 'L' :: packageText package ++ part.text ++ [';']

def ClassPart.text : ClassPart banned → List Char
  | .last name args => name.text ++ args.text
  | .outer name args inner => name.text ++ args.text ++ '.' :: inner.text

/-- Without arguments there are no brackets. -/
def TypeArgs.text : TypeArgs banned → List Char
  | .nil => []
  | .star rest => '<' :: '*' :: rest.items ++ ['>']
  | .arg variance t rest => '<' :: variance.text ++ t.text ++ rest.items ++ ['>']

def TypeArgs.items : TypeArgs banned → List Char
  | .nil => []
  | .star rest => '*' :: rest.items
  | .arg variance t rest => variance.text ++ t.text ++ rest.items

end

def TypeParam.bounds (p : TypeParam banned) : List (RefType banned) :=
  p.classBound.toList ++ p.interfaceBounds

def TypeParam.text (p : TypeParam banned) : List Char :=
  p.name.text ++ ':' :: (p.classBound.toList.flatMap RefType.text ++
    p.interfaceBounds.flatMap fun t => ':' :: t.text)

def typeParamsText : List (TypeParam banned) → List Char
  | [] => []
  | p :: ps => '<' :: (p :: ps).flatMap TypeParam.text ++ ['>']

def ClassType.ref (t : ClassType banned) : RefType banned := .cls t.package t.part

def ClassSignature.text (s : ClassSignature banned) : List Char :=
  typeParamsText s.typeParams ++ (s.superclass :: s.interfaces).flatMap fun t => t.ref.text

def ThrowsType.text : ThrowsType banned → List Char
  | cls t => '^' :: t.ref.text
  | typeVar name => '^' :: (RefType.typeVar name).text

def MethodSignature.text (s : MethodSignature banned) : List Char :=
  typeParamsText s.typeParams ++ '(' :: s.params.flatMap JavaType.text ++ ')' ::
    ((s.result.map JavaType.text).getD ['V'] ++ s.throwsTypes.flatMap ThrowsType.text)

/-- The name of a class with the ones within it, as the JVM has it. -/
def ClassPart.binaryName : ClassPart banned → List Char
  | .last name _ => name.text
  | .outer name _ inner => name.text ++ '$' :: inner.binaryName

theorem TypeArgs.eq_nil {args : TypeArgs banned} (h : args.isNil = true) : args = .nil := by
  cases args <;> first | rfl | cases h

theorem TypeArgs.text_eq (args : TypeArgs banned) :
    args.text = if args.isNil then [] else '<' :: args.items ++ ['>'] := by
  cases args <;> simp [TypeArgs.text, TypeArgs.items, TypeArgs.isNil]

/-! ## Bytes of a text -/

theorem text_ascii {c : Char} (hc : c.toNat < 128) (s : List Char) :
    utf8.text (c :: s) = byte c :: utf8.text s := by
  rw [utf8.text_cons, encode_ascii hc]
  rfl

/-- The first byte tells whether the first character is a given one. -/
theorem text_cons_eq (c : Char) (s : List Char) : ∃ u us, utf8.text (c :: s) = u :: us ∧
    ∀ d : Char, d.toNat < 128 → d ≠ c → u ≠ byte d := by
  obtain ⟨u, us, hus⟩ := List.exists_cons_of_ne_nil (utf8.encode_ne_nil c)
  refine ⟨u, us ++ utf8.text s, by rw [utf8.text_cons, hus]; rfl, fun d hd hne heq => ?_⟩
  exact hne (eq_of_byte_mem hd (heq ▸ hus ▸ List.mem_cons_self)).symm

end ScalaRs.JvmSignatures
