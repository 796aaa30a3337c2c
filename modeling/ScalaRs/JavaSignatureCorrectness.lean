import ScalaRs.JavaSignatureSections

/-! # When a Java signature is read as it was written

The trees that were written, and the signatures for which the reader gets these. -/
namespace ScalaRs.JavaSignatures
open CodeUnits JvmDescriptors JvmSignatures EnoughFuel Filter

/-! ## The trees -/

def lastArgs : ClassPart reserved → TypeArgs reserved
  | .last _ targs => targs
  | .outer _ _ inner => lastArgs inner

mutual

def javaTree : JavaType reserved → JType
  | .base t => letterValue t
  | .ref t => refTree t

def refTree : RefType reserved → JType
  | .typeVar name => .var name.text
  | .array elem => .array (javaTree elem)
  | .cls package part => .cls (packageText package ++ part.binaryName) (partTrees part)

/-- The arguments of the innermost class. -/
def partTrees : ClassPart reserved → List JType
  | .last _ targs => argTrees targs
  | .outer _ _ inner => partTrees inner

def argTrees : TypeArgs reserved → List JType
  | .nil => []
  | .star rest => .star :: argTrees rest
  | .arg variance t rest => varied variance (refTree t) :: argTrees rest

end

def tparamTree (p : TypeParam reserved) : JParam := ⟨p.name.text, p.bounds.map refTree⟩

def classTree (s : ClassSignature reserved) : ClassSig :=
  ⟨s.typeParams.map tparamTree, (s.superclass :: s.interfaces).map fun t => refTree t.ref⟩

def resultTree : Option (JavaType reserved) → JType
  | some t => javaTree t
  | none => .void

def methodTree (s : MethodSignature reserved) : MethodSig :=
  ⟨s.typeParams.map tparamTree, s.params.map javaTree, resultTree s.result⟩

/-! ## The conditions -/

mutual

/-- All names are words. -/
def JavaWords : JavaType reserved → Prop
  | .base _ => True
  | .ref t => RefWords t

def RefWords : RefType reserved → Prop
  | .typeVar name => IsWord name.text
  | .array elem => JavaWords elem
  | .cls package part => (∀ name ∈ package, IsWord name.text) ∧ PartWords part

def PartWords : ClassPart reserved → Prop
  | .last name targs => IsWord name.text ∧ ArgWords targs
  | .outer name targs inner => IsWord name.text ∧ ArgWords targs ∧ PartWords inner

def ArgWords : TypeArgs reserved → Prop
  | .nil => True
  | .star rest => ArgWords rest
  | .arg _ t rest => RefWords t ∧ ArgWords rest

end

mutual

/-- An innermost class has arguments if a class that it is in has, in what becomes of the tree. -/
def JavaOwnArgs : JavaType reserved → Prop
  | .base _ => True
  | .ref t => RefOwnArgs t

def RefOwnArgs : RefType reserved → Prop
  | .typeVar _ => True
  | .array elem => JavaOwnArgs elem
  | .cls _ part => PartOwnArgs part

def PartOwnArgs : ClassPart reserved → Prop
  | .last _ targs => ArgsOwnArgs targs
  | .outer _ targs inner => (targs.isNil = true ∨ (lastArgs inner).isNil = false) ∧ PartOwnArgs inner

def ArgsOwnArgs : TypeArgs reserved → Prop
  | .nil => True
  | .star rest => ArgsOwnArgs rest
  | .arg _ t rest => RefOwnArgs t ∧ ArgsOwnArgs rest

end

/-- A type parameter without bounds is not followed by one that begins like a type. -/
def BoundsApart : List (TypeParam reserved) → Prop
  | [] => True
  | p :: ps => ¬(p.bounds = [] ∧ beginsLikeType ps = true) ∧ BoundsApart ps

structure TparamsReadable (ps : List (TypeParam reserved)) : Prop where
  words : ∀ p ∈ ps, IsWord p.name.text ∧ ∀ t ∈ p.bounds, RefWords t
  ownArgs : ∀ p ∈ ps, ∀ t ∈ p.bounds, RefOwnArgs t
  apart : BoundsApart ps

structure FieldReadable (t : RefType reserved) : Prop where
  words : RefWords t
  ownArgs : RefOwnArgs t

structure ClassReadable (s : ClassSignature reserved) : Prop where
  tparams : TparamsReadable s.typeParams
  supers : ∀ t ∈ s.superclass :: s.interfaces, FieldReadable t.ref

/-- The types that are thrown are not read. -/
structure MethodReadable (s : MethodSignature reserved) : Prop where
  tparams : TparamsReadable s.typeParams
  params : ∀ t ∈ s.params, JavaWords t ∧ JavaOwnArgs t
  result : ∀ t ∈ s.result, JavaWords t ∧ JavaOwnArgs t

/-! ## What is read -/

mutual

theorem readJava_isSome (t : JavaType reserved) : (∃ x, readJava t = some x) ↔ JavaWords t := by
  cases t with
  | base t => simp [readJava, JavaWords]
  | ref t => exact readRef_isSome t

theorem readRef_isSome (t : RefType reserved) : (∃ x, readRef t = some x) ↔ RefWords t := by
  cases t with
  | typeVar name =>
      rw [readRef, RefWords]
      split <;> simp [*]
  | array elem =>
      rw [RefWords, ← readJava_isSome elem, readRef]
      simp
  | cls package part =>
      rw [RefWords, ← readPart_isSome [] part, readRef, packageRead]
      split
      · rename_i hwords
        rw [and_iff_right hwords]
        simp [Option.bind_eq_some_iff]
      · rename_i hwords
        simp [hwords]

theorem readPart_isSome (args : List JType) (part : ClassPart reserved) :
    (∃ x, readPart args part = some x) ↔ PartWords part := by
  cases part with
  | last name targs =>
      rw [PartWords, ← readArgs_isSome targs, readPart]
      split <;> simp [*, Option.bind_eq_some_iff]
  | outer name targs inner =>
      rw [PartWords, ← readArgs_isSome targs, readPart]
      split
      · rename_i hword
        cases hread : readArgs targs with
        | none => simp
        | some read =>
            simp only [Option.bind_eq_bind, Option.bind_some, hword, true_and]
            rw [← readPart_isSome (if targs.isNil then args else read) inner]
            simp only [Option.bind_eq_some_iff, Prod.exists]
            constructor
            · rintro ⟨_, _, part, args', h, -⟩
              exact ⟨⟨read, rfl⟩, part, args', h⟩
            · rintro ⟨-, part, args', h⟩
              exact ⟨_, _, part, args', h, rfl⟩
      · rename_i hword
        simp [hword]

theorem readArgs_isSome (targs : TypeArgs reserved) :
    (∃ xs, readArgs targs = some xs) ↔ ArgWords targs := by
  cases targs with
  | nil => simp [readArgs, ArgWords]
  | star rest =>
      rw [ArgWords, ← readArgs_isSome rest, readArgs]
      simp
  | arg variance t rest =>
      rw [ArgWords, ← readRef_isSome t, ← readArgs_isSome rest, readArgs]
      simp [Option.bind_eq_some_iff]

end

theorem readArgs_ne_nil {targs : TypeArgs reserved} {xs : List JType}
    (h : readArgs targs = some xs) : xs = [] ↔ targs.isNil = true := by
  cases targs with
  | nil => simpa [readArgs, TypeArgs.isNil] using h.symm
  | star rest =>
      rw [readArgs, Option.map_eq_some_iff] at h
      obtain ⟨ys, -, rfl⟩ := h
      simp [TypeArgs.isNil]
  | arg variance t rest =>
      simp only [readArgs, Option.bind_eq_bind, Option.bind_eq_some_iff] at h
      obtain ⟨_, -, _, -, h⟩ := h
      cases h
      simp [TypeArgs.isNil]

theorem varied_injective (variance : Variance) {x y : JType} (h : varied variance x = varied variance y) :
    x = y := by
  cases variance with
  | exact => exact h
  | upper => exact JType.upper.inj h
  | lower => exact JType.lower.inj h

mutual

/-- The tree that was written is what is read, as far as own arguments go. -/
theorem readJava_eq_iff (t : JavaType reserved) :
    readJava t = some (javaTree t) ↔ JavaWords t ∧ JavaOwnArgs t := by
  cases t with
  | base t => simp [readJava, javaTree, JavaWords, JavaOwnArgs]
  | ref t => exact readRef_eq_iff t

theorem readRef_eq_iff (t : RefType reserved) :
    readRef t = some (refTree t) ↔ RefWords t ∧ RefOwnArgs t := by
  cases t with
  | typeVar name =>
      rw [readRef, refTree, RefWords, RefOwnArgs, and_true]
      split <;> simp [*]
  | array elem =>
      rw [RefWords, RefOwnArgs, ← readJava_eq_iff elem, readRef, refTree]
      simp
  | cls package part =>
      have hpart := readPart_eq_iff [] part
      rw [RefWords, RefOwnArgs, readRef, refTree, packageRead]
      split
      · rename_i hwords
        rw [and_iff_right hwords]
        simp only [true_or, true_and] at hpart
        rw [← hpart]
        simp only [Option.bind_eq_bind, Option.bind_some]
        cases readPart [] part <;> simp [Prod.ext_iff]
      · rename_i hwords
        simp [hwords]

theorem readPart_eq_iff (args : List JType) (part : ClassPart reserved) :
    readPart args part = some (part.binaryName, partTrees part) ↔ PartWords part ∧
      (args = [] ∨ (lastArgs part).isNil = false) ∧ PartOwnArgs part := by
  cases part with
  | last name targs =>
      have hargs := readArgs_eq_iff targs
      rw [readPart, ClassPart.binaryName, partTrees, PartWords, lastArgs, PartOwnArgs]
      split
      · rename_i hword
        rw [and_iff_right hword]
        cases hnil : targs.isNil with
        | true =>
            obtain rfl := TypeArgs.eq_nil hnil
            simp [readArgs, argTrees, ArgWords, ArgsOwnArgs]
        | false =>
            simp only [or_true, true_and]
            rw [← hargs]
            cases readArgs targs <;> simp
      · rename_i hword
        simp [hword]
  | outer name targs inner =>
      have hsome := readArgs_isSome targs
      rw [readPart, ClassPart.binaryName, partTrees, PartWords, lastArgs, PartOwnArgs]
      split
      · rename_i hword
        rw [and_iff_right hword, ← hsome]
        cases hread : readArgs targs with
        | none => simp
        | some read =>
            have hinner := readPart_eq_iff (if targs.isNil then args else read) inner
            have hne := readArgs_ne_nil hread
            have hcons : ((readPart (if targs.isNil then args else read) inner).bind fun p =>
                some (name.text ++ '$' :: p.1, p.2)) =
                  some (name.text ++ '$' :: inner.binaryName, partTrees inner) ↔
                readPart (if targs.isNil then args else read) inner =
                  some (inner.binaryName, partTrees inner) := by
              cases readPart (if targs.isNil then args else read) inner <;> simp [Prod.ext_iff]
            simp only [Option.bind_eq_bind, Option.bind_some, Option.some.injEq, exists_eq', true_and]
            rw [hcons, hinner]
            cases hnil : targs.isNil with
            | true => simp
            | false =>
                rw [hnil] at hne
                simp only [Bool.false_eq_true, iff_false] at hne
                simp only [Bool.false_eq_true, if_false, hne, false_or]
                tauto
      · rename_i hword
        simp [hword]

theorem readArgs_eq_iff (targs : TypeArgs reserved) :
    readArgs targs = some (argTrees targs) ↔ ArgWords targs ∧ ArgsOwnArgs targs := by
  cases targs with
  | nil => simp [readArgs, argTrees, ArgWords, ArgsOwnArgs]
  | star rest =>
      rw [ArgWords, ArgsOwnArgs, ← readArgs_eq_iff rest, readArgs, argTrees]
      simp
  | arg variance t rest =>
      have ht := readRef_eq_iff t
      have hrest := readArgs_eq_iff rest
      rw [ArgWords, ArgsOwnArgs, readArgs, argTrees, and_and_and_comm, ← ht, ← hrest]
      cases readRef t with
      | none => simp
      | some x =>
          cases readArgs rest with
          | none => simp
          | some xs =>
              simp only [Option.bind_eq_bind, Option.bind_some, Option.some.injEq, List.cons.injEq]
              exact and_congr_left' ⟨varied_injective variance, congrArg _⟩

end

/-! ## Whole signatures -/

theorem mapM_eq_iff {α β : Type} {f : α → Option β} {g : α → β} {p : α → Prop} {xs : List α}
    (h : ∀ x ∈ xs, f x = some (g x) ↔ p x) :
    xs.mapM f = some (xs.map g) ↔ ∀ x ∈ xs, p x := by
  induction xs with
  | nil => simp
  | cons x xs ih =>
      have hx := h x List.mem_cons_self
      have hxs := ih fun y hy => h y (List.mem_cons_of_mem _ hy)
      rw [List.mapM_cons, List.map_cons, List.forall_mem_cons, ← hx, ← hxs]
      cases f x with
      | none => simp
      | some y => cases xs.mapM f <;> simp

theorem readTparams_eq_iff (ps : List (TypeParam reserved)) :
    readTparams ps = some (ps.map tparamTree) ↔ TparamsReadable ps := by
  induction ps with
  | nil => simp [readTparams]; exact ⟨by simp, by simp, trivial⟩
  | cons p ps ih =>
      have hbounds := @mapM_eq_iff _ _ readRef refTree _ p.bounds fun t _ => readRef_eq_iff t
      rw [readTparams, List.map_cons, tparamTree]
      constructor
      · intro h
        split at h
        · rename_i hgood
          simp only [Option.bind_eq_bind, Option.bind_eq_some_iff, Option.some.injEq,
            List.cons.injEq, JParam.mk.injEq, true_and] at h
          obtain ⟨bounds, hread, rest, hrest, rfl, rfl⟩ := h
          obtain ⟨hwords, hown, hapart⟩ := ih.1 hrest
          have hp := hbounds.1 hread
          exact ⟨List.forall_mem_cons.2 ⟨⟨hgood.1, fun t ht => (hp t ht).1⟩, hwords⟩,
            List.forall_mem_cons.2 ⟨fun t ht => (hp t ht).2, hown⟩, hgood.2, hapart⟩
        · cases h
      · intro h
        obtain ⟨hword, hwords⟩ := List.forall_mem_cons.1 h.words
        obtain ⟨hown, howns⟩ := List.forall_mem_cons.1 h.ownArgs
        rw [if_pos ⟨hword.1, h.apart.1⟩, hbounds.2 fun t ht => ⟨hword.2 t ht, hown t ht⟩,
          ih.2 ⟨hwords, howns, h.apart.2⟩]
        rfl

theorem readClassSig_eq_iff (s : ClassSignature reserved) :
    readClassSig s = some (classTree s) ↔ ClassReadable s := by
  have htparams := readTparams_eq_iff s.typeParams
  have hsupers := @mapM_eq_iff _ _ (fun t : ClassType reserved => readRef t.ref)
    (fun t => refTree t.ref) _ (s.superclass :: s.interfaces) fun t _ => readRef_eq_iff t.ref
  have hiff : ClassReadable s ↔ TparamsReadable s.typeParams ∧
      ∀ t ∈ s.superclass :: s.interfaces, RefWords t.ref ∧ RefOwnArgs t.ref :=
    ⟨fun h => ⟨h.tparams, fun t ht => ⟨(h.supers t ht).words, (h.supers t ht).ownArgs⟩⟩,
      fun h => ⟨h.1, fun t ht => ⟨(h.2 t ht).1, (h.2 t ht).2⟩⟩⟩
  rw [hiff, ← htparams, ← hsupers, readClassSig, classTree]
  cases readTparams s.typeParams with
  | none => simp
  | some tparams =>
      cases List.mapM (fun t : ClassType reserved => readRef t.ref) (s.superclass :: s.interfaces) <;>
        simp

theorem readResult_eq_iff (result : Option (JavaType reserved)) :
    readResult result = some (resultTree result) ↔
      ∀ t ∈ result, JavaWords t ∧ JavaOwnArgs t := by
  cases result with
  | none => simp [readResult, resultTree]
  | some t => simpa [readResult, resultTree] using readJava_eq_iff t

theorem readMethodSig_eq_iff (s : MethodSignature reserved) :
    readMethodSig s = some (methodTree s) ↔ MethodReadable s := by
  have htparams := readTparams_eq_iff s.typeParams
  have hparams := @mapM_eq_iff _ _ readJava javaTree _ s.params fun t _ => readJava_eq_iff t
  have hresult := readResult_eq_iff s.result
  have hiff : MethodReadable s ↔ TparamsReadable s.typeParams ∧
      (∀ t ∈ s.params, JavaWords t ∧ JavaOwnArgs t) ∧
      ∀ t ∈ s.result, JavaWords t ∧ JavaOwnArgs t :=
    ⟨fun h => ⟨h.tparams, h.params, h.result⟩, fun h => ⟨h.1, h.2.1, h.2.2⟩⟩
  rw [hiff, ← htparams, ← hparams, ← hresult, readMethodSig, methodTree]
  cases readTparams s.typeParams with
  | none => simp
  | some tparams =>
      cases s.params.mapM readJava with
      | none => simp
      | some params => cases readResult s.result <;> simp

/-- The reader gets the trees that were written exactly if the names are words, innermost classes
have their own arguments, and parameters without bounds stand apart from what follows. -/
theorem parse_eq_tree_iff (s : ClassSignature reserved) (m : MethodSignature reserved)
    (t : RefType reserved) :
    ((∀ᶠ n in atTop, parseClassSig n (utf8.text s.text) = some (classTree s)) ↔
      ClassReadable s) ∧
    ((∀ᶠ n in atTop, parseMethodSig n (utf8.text m.text) = some (methodTree m)) ↔
      MethodReadable m) ∧
    ((∀ᶠ n in atTop, parseFieldSig n (utf8.text t.text) = some (refTree t)) ↔
      FieldReadable t) := by
  refine ⟨?_, ?_, ?_⟩
  · rw [eventually_eq_iff (parseClassSig_text s), readClassSig_eq_iff]
  · rw [eventually_eq_iff (parseMethodSig_text m), readMethodSig_eq_iff]
  · rw [eventually_eq_iff (parseFieldSig_text t), readRef_eq_iff]
    exact ⟨fun h => ⟨h.1, h.2⟩, fun h => ⟨h.words, h.ownArgs⟩⟩

/-- `Lp/Outer<TT;>.Inner;` -/
def innerOfGeneric : RefType reserved :=
  .cls [⟨['p'], by simp, by simp⟩]
    (.outer ⟨['O', 'u', 't', 'e', 'r'], by simp, by simp⟩
      (.arg .exact (.typeVar ⟨['T'], by simp, by simp⟩) .nil)
      (.last ⟨['I', 'n', 'n', 'e', 'r'], by simp, by simp⟩ .nil))

/-- The class within gets the arguments of the one that it is in. -/
theorem parseFieldSig_innerOfGeneric : ¬∀ᶠ n in atTop,
    parseFieldSig n (utf8.text innerOfGeneric.text) = some (refTree innerOfGeneric) := by
  rw [eventually_eq_iff (parseFieldSig_text innerOfGeneric), readRef_eq_iff]
  intro h
  simpa [innerOfGeneric, RefOwnArgs, PartOwnArgs, lastArgs, TypeArgs.isNil] using h.2

end ScalaRs.JavaSignatures
