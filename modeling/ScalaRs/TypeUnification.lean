import ScalaRs.StateInvariants
import ScalaRs.UnknownMentions

/-! # Unification of two types

The unifier of the implicit search: a table of unknowns, the bindings found so
far, and the walk over two types that adds to them. What the rest of the typer
knows about classes and subtyping is a parameter. -/
namespace ScalaRs.Unification

/-- The variance flags of a type parameter. -/
structure Flags where
  covariant : Bool
  contravariant : Bool

/-- What the unifier asks of the typer and its symbol table. -/
structure Typer where
  isSubType : Ty → Ty → Bool
  baseTypeInstance : Ty → SymbolId → Option Ty
  functionClassForm : Ty → Option Ty
  etaExpandPair : Ty → Ty → Option (Ty × Ty)
  lub : Ty → Ty → Ty
  subtypeClassReaches : SymbolId → SymbolId → Option Bool
  tparams : SymbolId → List SymbolId
  flags : SymbolId → Flags
  isModuleClass : SymbolId → Bool
  jvmName : SymbolId → String
  /-- The structural equality of two types. -/
  sameType : Ty → Ty → Bool
  /-- The order in which the hash map of contravariant inputs is gone through. -/
  mapOrder : List (SymbolId × List Ty) → List (SymbolId × List Ty)
  mapOrder_perm : ∀ entries, (mapOrder entries).Perm entries

/-- One unification: its unknowns and what they are bound to. -/
structure Unify where
  unknowns : Unknowns
  evidenceConstructors : Bool
  bound : List (SymbolId × Ty)

abbrev UnifyM := StateM Unify

namespace Unify

/-- `own` are the candidate's type parameters, `undet` those of the call site. -/
def new (own undet : List SymbolId) : Unify where
  unknowns := own.map (·, true) ++ (undet.filter (· ∉ own)).map (·, false)
  evidenceConstructors := false
  bound := []

def allowEvidenceConstructors (u : Unify) : Unify := { u with evidenceConstructors := true }

def unknownCtor (u : Unify) : Ty → Bool
  | .typeParam id => (u.unknowns.lookup id).any fun own => own || u.evidenceConstructors
  | _ => false

def unknownOf (u : Unify) : Ty → Option SymbolId
  | .typeParam id => if u.unknowns.containsKey id then some id else none
  | _ => none

/-- `expand` from the depth at which `fuel` more steps are allowed: the head of the
type is followed through its bindings, its inside is substituted once. -/
def expandFrom (u : Unify) : ℕ → Ty → Ty
  | 0, ty => ty
  | fuel + 1, ty =>
    if u.bound.isEmpty then ty else
    match ty with
    | .typeParam id =>
      match u.bound.lookup id with
      | some t => u.expandFrom fuel t
      | none => substMap u.bound (.typeParam id)
    | ty => substMap u.bound ty

/-- `expand` at depth 0; it gives up beyond depth 8. -/
def expand (u : Unify) (ty : Ty) : Ty := u.expandFrom 9 ty

/-- The solution for `tp`, with any nested unknowns resolved. -/
def solved (u : Unify) (tp : SymbolId) : Option Ty :=
  match u.bound.lookup tp with
  | none => none
  | some t => if mentionsUnknown u.unknowns (u.expand t) then none else some (u.expand t)

end Unify

/-! ## Steps of the walk -/

def isWildcard : Ty → Bool
  | .wildcard => true
  | _ => false

def isBoundedWildcard : Ty → Bool
  | .boundedWildcard _ _ => true
  | _ => false

def isNoTypeOrError : Ty → Bool
  | .noType => true
  | .error => true
  | _ => false

def stripAnnot : Ty → Ty
  | .annotated tpe _ => stripAnnot tpe
  | t => t

/-- An applied type as its constructor and arguments. -/
def asApplication : Ty → Option (Ty × List Ty)
  | .cls sym args => if args.isEmpty then none else some (.cls sym [], args)
  | .applied ctor args => if args.isEmpty then none else some (ctor, args)
  | _ => none

/-- Records a solution, refusing types that say nothing and types that mention the
unknown itself. -/
def bindUnknown (id : SymbolId) (ty : Ty) : UnifyM Bool := do
  if isNoTypeOrError ty || isWildcard ty then return false
  if mentionsUnknown [(id, false)] ty then return false
  modify fun u => { u with bound := (id, ty) :: u.bound.filter (·.1 != id) }
  return true

section Steps

variable (typer : Typer) (unify : Ty → Ty → UnifyM Bool)

/-- All pairs of two lists, in order, as far as the shorter one goes. -/
def unifyAll (xs ys : List Ty) : UnifyM Bool :=
  (xs.zip ys).allM fun p => unify p.1 p.2

/-- The parts of an intersection against the other side, unless that is a refinement. -/
def unifyParents (parents : List Ty) : Ty → Option (UnifyM Bool)
  | .refined _ _ => none
  | other => some (if parents.isEmpty then pure false else parents.allM fun p => unify p other)

/-- One side is an intersection: every part of it unifies with the other side. -/
def unifyRefinement (a b : Ty) : Option (UnifyM Bool) :=
  match a, b with
  | .refined parents [], other => unifyParents unify parents other
  | other, .refined parents [] => unifyParents unify parents other
  | _, _ => none

/-- An unknown constructor with its arguments against a class: the constructor
unifies with the class at its first arguments, and the arguments with the last ones. -/
def unifyApplied (hkCtor : Ty) (hkArgs : List Ty) : Ty → Option (UnifyM Bool)
  | .applied _ _ => none
  | other =>
    match asApplication other with
    | none => none
    | some (octor, oargs) =>
      if hkArgs.isEmpty || decide (oargs.length < hkArgs.length) then none
      else
        some (unify hkCtor (applyTypeCtor octor (oargs.take (oargs.length - hkArgs.length))) <&&>
          unifyAll unify hkArgs (oargs.drop (oargs.length - hkArgs.length)))

/-- One side is an unknown constructor applied to arguments. -/
def unifyHigherKinded (u : Unify) (a b : Ty) : Option (UnifyM Bool) :=
  match a, b with
  | .applied ctor args, other =>
    if u.unknownCtor ctor then unifyApplied unify ctor args other
    else
      match other with
      | .applied ctor' args' =>
        if u.unknownCtor ctor' then unifyApplied unify ctor' args' (.applied ctor args) else none
      | _ => none
  | other, .applied ctor args =>
    if u.unknownCtor ctor then unifyApplied unify ctor args other else none
  | _, _ => none

/-- At least one side is a class seen through a prefix. -/
def unifyViews (a b : Ty) : UnifyM Bool :=
  let av := (asSeenFromView a).isSome
  let bv := (asSeenFromView b).isSome
  match stripView a, stripView b with
  | .cls s1 as, .cls s2 bs =>
    if s1 != s2 then
      match (if av then typer.baseTypeInstance a s2 else none),
          (if bv then typer.baseTypeInstance b s1 else none) with
      | some bt, _ => unify bt (.cls s2 bs)
      | none, some bt => unify (.cls s1 as) bt
      | none, none => unify (.cls s1 as) (.cls s2 bs)
    else unify (.cls s1 as) (.cls s2 bs)
  | ca, cb => unify ca cb

/-- A class that inherits a function type, or the other way round: the two types
that stand for them. -/
def functionPair (a b : Ty) : Option (Ty × Ty) :=
  match a, b with
  | .cls s as, .function ps r =>
    match typer.functionClassForm (.function ps r) with
    | some (.cls sym args) =>
      (typer.baseTypeInstance (.cls s as) sym).map fun base => (base, .cls sym args)
    | _ => none
  | .function ps r, .cls s as =>
    (typer.functionClassForm (.function ps r)).map fun functionClass => (functionClass, .cls s as)
  | _, _ => none

/-- The variance flags of the parameter at position `i`. -/
def positionFlags (variances : List SymbolId) (i : ℕ) : Flags :=
  match variances[i]? with
  | some tp => typer.flags tp
  | none => ⟨false, false⟩

/-- Adds the type that a contravariant position gives for an open unknown of the
candidate. -/
def addContravariantInput (u : Unify) (variances : List SymbolId)
    (lower : List (SymbolId × List Ty)) (p : (Ty × Ty) × ℕ) : List (SymbolId × List Ty) :=
  match u.unknownOf p.1.1 with
  | none => lower
  | some id =>
    if u.unknowns.lookup id != some true || (u.bound.lookup id).isSome ||
        mentionsUnknown u.unknowns p.1.2 then lower
    else if (positionFlags typer variances p.2).contravariant then
      match lower.lookup id with
      | some inputs => lower.map fun e => if e.1 == id then (id, inputs ++ [p.1.2]) else e
      | none => lower ++ [(id, [p.1.2])]
    else lower

/-- The types that contravariant positions give for the open unknowns of the
candidate, by unknown. -/
def contravariantInputs (u : Unify) (variances : List SymbolId) (pairs : List ((Ty × Ty) × ℕ)) :
    List (SymbolId × List Ty) :=
  pairs.foldl (addContravariantInput typer u variances) []

/-- The common supertype of several inputs; a precise join with wildcard bounds
gives way to a parent that all of them conform to. -/
def joinInputs (first : Ty) (rest : List Ty) : Ty :=
  let join := rest.foldl typer.lub first
  match join with
  | .refined parents decls =>
    if flagged isBoundedWildcard (.refined parents decls) then
      (parents.find? fun parent =>
        (first :: rest).all fun input => typer.isSubType input parent).getD join
    else join
  | join => join

def bindJoins (variances : List SymbolId) (pairs : List ((Ty × Ty) × ℕ)) : UnifyM Bool := do
  let u ← get
  (typer.mapOrder (contravariantInputs typer u variances pairs)).allM fun e =>
    match e.2 with
    | first :: second :: rest => bindUnknown e.1 (joinInputs typer first (second :: rest))
    | _ => pure true

/-- One pass over the arguments of a class: the invariant positions that are known,
or the others. -/
def unifyPositions (variances : List SymbolId) (pairs : List ((Ty × Ty) × ℕ))
    (invariantPass : Bool) : UnifyM Bool :=
  pairs.allM fun p => do
    let u ← get
    let flags := positionFlags typer variances p.2
    let fixed := !flags.covariant && !flags.contravariant &&
      !mentionsUnknown u.unknowns p.1.2 && !(isWildcard p.1.2 || isBoundedWildcard p.1.2)
    if fixed != invariantPass then return true
    if ← unify p.1.1 p.1.2 then return true
    -- earlier positions may have solved these parameters by now
    let u ← get
    let x := u.expand p.1.1
    let y := u.expand p.1.2
    if mentionsUnknown u.unknowns x || mentionsUnknown u.unknowns y then return false
    return if flags.covariant then typer.isSubType x y
      else if flags.contravariant then typer.isSubType y x
      else false

/-- Two classes: their arguments when it is one class, else those of the one at the
base class that the other names. -/
def unifyClasses (s1 : SymbolId) (a1 : List Ty) (s2 : SymbolId) (a2 : List Ty) : UnifyM Bool :=
  if s1 = s2 ∧ a1.length = a2.length then
    let variances := typer.tparams s1
    let pairs := (a1.zip a2).zipIdx
    unifyPositions typer unify variances pairs true <&&>
      bindJoins typer variances pairs <&&>
      unifyPositions typer unify variances pairs false
  else if s1 = s2 then pure (a1.isEmpty || a2.isEmpty)
  else
    let reaches (source target : SymbolId) : Bool :=
      typer.subtypeClassReaches source target != some false
    if !reaches s1 s2 && !reaches s2 s1 then pure false
    else do
      let widened ←
        (match (if reaches s1 s2 then typer.baseTypeInstance (.cls s1 a1) s2 else none) with
        | some (.cls _ args) =>
          if args.length = a2.length then unifyAll unify args a2 else pure false
        | _ => pure false)
      if widened then return true
      match (if reaches s2 s1 then typer.baseTypeInstance (.cls s2 a2) s1 else none) with
      | some (.cls _ args) =>
        if args.length = a1.length then unifyAll unify a1 args else pure false
      | _ => pure false

def unifyOption : Option Ty → Option Ty → UnifyM Bool
  | none, none => pure true
  | some x, some y => unify x y
  | _, _ => pure false

/-- Two declarations of one name, payload by payload. -/
def unifyRefineDecl : RefineDecl → RefineDecl → UnifyM Bool
  | .type _ r1 t1 lo1 hi1, .type _ r2 t2 lo2 hi2 =>
    if t1 = t2 then
      unifyOption unify r1 r2 <&&> unifyOption unify lo1 lo2 <&&> unifyOption unify hi1 hi2
    else pure false
  | .method _ _ p1 r1, .method _ _ p2 r2 =>
    if p1.length = p2.length then
      ((p1.zip p2).allM fun c =>
        if c.1.length = c.2.length then unifyAll unify c.1 c.2 else pure false) <&&>
        unify r1 r2
    else pure false
  | .val _ t1, .val _ t2 => unify t1 t2
  | _, _ => pure false

/-- The structural cases, for two types of one shape. -/
def unifyStructure (a b : Ty) : UnifyM Bool :=
  match a, b with
  | .thisType x, .moduleRef y =>
    if x = y ∧ typer.isModuleClass x = true then pure true else pure (typer.sameType a b)
  | .moduleRef x, .thisType y =>
    if x = y ∧ typer.isModuleClass x = true then pure true else pure (typer.sameType a b)
  | .cls s1 a1, .cls s2 a2 => unifyClasses typer unify s1 a1 s2 a2
  | .tuple t1, .tuple t2 =>
    if t1.length = t2.length then unifyAll unify t1 t2 else pure (typer.sameType a b)
  | .tuple ts, .cls sym args =>
    if ts.length = args.length ∧ typer.jvmName sym = "scala/Tuple" ++ toString ts.length then
      unifyAll unify ts args
    else pure (typer.sameType a b)
  | .cls sym args, .tuple ts =>
    if ts.length = args.length ∧ typer.jvmName sym = "scala/Tuple" ++ toString ts.length then
      unifyAll unify args ts
    else pure (typer.sameType a b)
  | .array x, .array y => unify x y
  | .byName x, .byName y => unify x y
  | .repeated x, .repeated y => unify x y
  | .function p1 r1, .function p2 r2 =>
    if p1.length = p2.length then unifyAll unify p1 p2 <&&> unify r1 r2
    else pure (typer.sameType a b)
  | .applied c1 a1, .applied c2 a2 =>
    if a1.length = a2.length then unify c1 c2 <&&> unifyAll unify a1 a2
    else pure (typer.sameType a b)
  | .refined p1 d1, .refined p2 d2 =>
    if p1.length = p2.length ∧ d1.length = d2.length then
      unifyAll unify p1 p2 <&&> d1.allM fun x =>
        match d2.find? fun y => y.name == x.name with
        | some y => unifyRefineDecl unify x y
        | none => pure false
    else pure (typer.sameType a b)
  | _, _ => pure (typer.sameType a b)

/-- A bounded wildcard on one side: its upper bound and the other side. -/
def wildcardBound : Ty → Ty → Option (Option Ty × Ty)
  | .boundedWildcard _ hi, other => some (hi, other)
  | other, .boundedWildcard _ hi => some (hi, other)
  | _, _ => none

/-- The cases after the unknowns and the views. -/
def unifyKnown (a b : Ty) : UnifyM Bool :=
  match functionPair typer a b with
  | some (x, y) => unify x y
  | none =>
  if isWildcard a || isWildcard b then pure true else
  match wildcardBound a b with
  | some (none, _) => pure true
  | some (some h, other) => if typer.isSubType other h then pure true else unify other h
  | none =>
  match unifyRefinement unify a b with
  | some result => result
  | none => do
    let u ← get
    match unifyHigherKinded unify u a b with
    | some result => result
    | none =>
      match typer.etaExpandPair a b with
      | some (ea, eb) => unify ea eb
      | none => unifyStructure typer unify a b

/-- One step of `unify_at`; `unify` is the walk one level deeper. -/
def unifyStep (a b : Ty) : UnifyM Bool := do
  let a := stripAnnot a
  let b := stripAnnot b
  let u ← get
  let unbound (t : Ty) : Bool := (u.unknownOf t).any fun id => (u.bound.lookup id).isNone
  if (isWildcard a || isWildcard b) && (unbound a || unbound b) then return true
  match u.unknownOf a with
  | some id =>
    match u.bound.lookup id with
    | some prev => unify prev b
    | none => bindUnknown id b
  | none =>
  match u.unknownOf b with
  | some id =>
    match u.bound.lookup id with
    | some prev => unify a prev
    | none => bindUnknown id a
  | none =>
  if (asSeenFromView a).isSome || (asSeenFromView b).isSome then unifyViews typer unify a b
  else unifyKnown typer unify a b

end Steps

/-- `unify_at` from the depth at which `fuel` more steps are allowed. -/
def unifyAt (typer : Typer) : ℕ → Ty → Ty → UnifyM Bool
  | 0, _, _ => pure false
  | fuel + 1, a, b => unifyStep typer (unifyAt typer fuel) a b

/-- `unify_at` at depth 0; it gives up beyond depth 24. -/
def unify (typer : Typer) (a b : Ty) : UnifyM Bool := unifyAt typer 25 a b

/-- What a caller does to a unification. -/
inductive Call
  | allowEvidenceConstructors
  | unify (a b : Ty)

def Call.perform (typer : Typer) : Call → UnifyM Bool
  | .allowEvidenceConstructors => do
    modify Unify.allowEvidenceConstructors
    return true
  | .unify a b => Unification.unify typer a b

/-- The unification after a sequence of calls. -/
def Unify.run (typer : Typer) (u : Unify) (calls : List Call) : Unify :=
  calls.foldl (fun u c => (c.perform typer u).2) u

/-! ## Only unknowns are bound -/

open StateInvariants

/-- Every bound parameter is one of these unknowns. -/
def OnlyUnknowns (unknowns : Unknowns) (u : Unify) : Prop :=
  u.unknowns = unknowns ∧ ∀ id, (u.bound.lookup id).isSome = true → unknowns.containsKey id = true

section Keeping

variable {unknowns : Unknowns}

theorem containsKey_of_unknownOf {u : Unify} {t : Ty} {id : SymbolId} (h : u.unknownOf t = some id) :
    u.unknowns.containsKey id = true := by
  cases t with
  | typeParam p =>
    simp only [Unify.unknownOf] at h
    split at h
    · simp_all
    · simp at h
  | _ => simp [Unify.unknownOf] at h

theorem lookup_filter_ne {p id : SymbolId} (h : p ≠ id) (bound : List (SymbolId × Ty)) :
    (bound.filter (·.1 != id)).lookup p = bound.lookup p := by
  induction bound with
  | nil => rfl
  | cons e bound ih =>
    by_cases he : e.1 = id
    · have hpe : (p == e.1) = false := by simpa [he] using h
      rw [List.filter_cons_of_neg (by simpa using he), ih, List.lookup_cons, hpe]
    · rw [List.filter_cons_of_pos (by simpa using he), List.lookup_cons, List.lookup_cons, ih]

theorem keeps_bindUnknown {id : SymbolId} (hid : unknowns.containsKey id = true) (ty : Ty) :
    Keeps (OnlyUnknowns unknowns) (bindUnknown id ty) := by
  unfold bindUnknown
  apply keeps_ite
  · intro _
    exact keeps_pure _
  intro _
  apply keeps_ite
  · intro _
    exact keeps_pure _
  intro _
  apply keeps_bind
  · apply keeps_modify
    intro u hu
    refine ⟨hu.1, ?_⟩
    intro p hp
    by_cases hpid : p = id
    · rw [hpid]
      exact hid
    · apply hu.2
      have hne : (p == id) = false := by simpa using hpid
      rwa [List.lookup_cons, hne, lookup_filter_ne hpid] at hp
  · intro _
    exact keeps_pure _

variable {typer : Typer} {unify : Ty → Ty → UnifyM Bool}

theorem keeps_unifyAll (h : ∀ a b, Keeps (OnlyUnknowns unknowns) (unify a b)) (xs ys : List Ty) :
    Keeps (OnlyUnknowns unknowns) (unifyAll unify xs ys) :=
  keeps_allM fun p _ => h p.1 p.2

theorem keeps_unifyParents (h : ∀ a b, Keeps (OnlyUnknowns unknowns) (unify a b))
    {parents : List Ty} {other : Ty} {m : UnifyM Bool}
    (hm : unifyParents unify parents other = some m) : Keeps (OnlyUnknowns unknowns) m := by
  unfold unifyParents at hm
  split at hm
  · simp at hm
  · obtain rfl := Option.some.inj hm
    apply keeps_ite
    · intro _
      exact keeps_pure _
    · intro _
      exact keeps_allM fun p _ => h p _

theorem keeps_unifyRefinement (h : ∀ a b, Keeps (OnlyUnknowns unknowns) (unify a b)) {a b : Ty}
    {m : UnifyM Bool} (hm : unifyRefinement unify a b = some m) :
    Keeps (OnlyUnknowns unknowns) m := by
  unfold unifyRefinement at hm
  split at hm
  · exact keeps_unifyParents h hm
  · exact keeps_unifyParents h hm
  · simp at hm

theorem keeps_unifyApplied (h : ∀ a b, Keeps (OnlyUnknowns unknowns) (unify a b))
    {hkCtor other : Ty} {hkArgs : List Ty} {m : UnifyM Bool}
    (hm : unifyApplied unify hkCtor hkArgs other = some m) :
    Keeps (OnlyUnknowns unknowns) m := by
  unfold unifyApplied at hm
  split at hm
  · simp at hm
  split at hm
  · simp at hm
  split at hm
  · simp at hm
  · obtain rfl := Option.some.inj hm
    exact keeps_and (h _ _) (keeps_unifyAll h _ _)

theorem keeps_unifyHigherKinded (h : ∀ a b, Keeps (OnlyUnknowns unknowns) (unify a b)) {u : Unify}
    {a b : Ty} {m : UnifyM Bool} (hm : unifyHigherKinded unify u a b = some m) :
    Keeps (OnlyUnknowns unknowns) m := by
  unfold unifyHigherKinded at hm
  split at hm
  · split at hm
    · exact keeps_unifyApplied h hm
    split at hm
    · split at hm
      · exact keeps_unifyApplied h hm
      · simp at hm
    · simp at hm
  · split at hm
    · exact keeps_unifyApplied h hm
    · simp at hm
  · simp at hm

theorem keeps_unifyViews (h : ∀ a b, Keeps (OnlyUnknowns unknowns) (unify a b)) (a b : Ty) :
    Keeps (OnlyUnknowns unknowns) (unifyViews typer unify a b) := by
  unfold unifyViews
  split
  · apply keeps_ite
    · intro _
      split
      all_goals apply h
    · intro _
      apply h
  · apply h

theorem containsKey_of_mem_addContravariantInput {u : Unify} {variances : List SymbolId}
    {lower : List (SymbolId × List Ty)} (p : (Ty × Ty) × ℕ)
    (h : ∀ e ∈ lower, u.unknowns.containsKey e.1 = true) :
    ∀ e ∈ addContravariantInput typer u variances lower p,
      u.unknowns.containsKey e.1 = true := by
  unfold addContravariantInput
  split
  · exact h
  rename_i id hid
  have hkey := containsKey_of_unknownOf hid
  split
  · exact h
  split
  · split
    · intro e he
      obtain ⟨e', he', rfl⟩ := List.mem_map.mp he
      split
      · exact hkey
      · exact h e' he'
    · intro e he
      rcases List.mem_append.mp he with he | he
      · exact h e he
      · rw [List.mem_singleton.mp he]
        exact hkey
  · exact h

theorem containsKey_of_mem_contravariantInputs {u : Unify} {variances : List SymbolId}
    {pairs : List ((Ty × Ty) × ℕ)} {e : SymbolId × List Ty}
    (he : e ∈ contravariantInputs typer u variances pairs) :
    u.unknowns.containsKey e.1 = true := by
  have hfold : ∀ lower : List (SymbolId × List Ty),
      (∀ e ∈ lower, u.unknowns.containsKey e.1 = true) →
      ∀ e ∈ pairs.foldl (addContravariantInput typer u variances) lower,
        u.unknowns.containsKey e.1 = true := by
    clear he
    induction pairs with
    | nil => exact fun lower h => h
    | cons p pairs ih => exact fun lower h => ih _ (containsKey_of_mem_addContravariantInput p h)
  exact hfold [] (by simp) e he

theorem keeps_bindJoins (variances : List SymbolId) (pairs : List ((Ty × Ty) × ℕ)) :
    Keeps (OnlyUnknowns unknowns) (bindJoins typer variances pairs) := by
  unfold bindJoins
  apply keeps_get_bind
  intro u hu
  apply keeps_allM
  intro e he
  split
  · apply keeps_bindUnknown
    rw [← hu.1]
    exact containsKey_of_mem_contravariantInputs ((typer.mapOrder_perm _).mem_iff.mp he)
  · exact keeps_pure _

theorem keeps_unifyPositions (h : ∀ a b, Keeps (OnlyUnknowns unknowns) (unify a b))
    (variances : List SymbolId) (pairs : List ((Ty × Ty) × ℕ)) (invariantPass : Bool) :
    Keeps (OnlyUnknowns unknowns) (unifyPositions typer unify variances pairs invariantPass) := by
  apply keeps_allM
  intro p _
  apply keeps_get_bind
  intro u _
  apply keeps_ite
  · intro _
    exact keeps_pure _
  intro _
  apply keeps_bind (h _ _)
  intro unified
  apply keeps_ite
  · intro _
    exact keeps_pure _
  intro _
  apply keeps_get_bind
  intro u _
  apply keeps_ite
  · intro _
    exact keeps_pure _
  · intro _
    exact keeps_pure _

theorem keeps_unifyClasses (h : ∀ a b, Keeps (OnlyUnknowns unknowns) (unify a b))
    (s1 : SymbolId) (a1 : List Ty) (s2 : SymbolId) (a2 : List Ty) :
    Keeps (OnlyUnknowns unknowns) (unifyClasses typer unify s1 a1 s2 a2) := by
  unfold unifyClasses
  apply keeps_ite
  · intro _
    apply keeps_and
    · exact keeps_unifyPositions h _ _ true
    apply keeps_and
    · exact keeps_bindJoins _ _
    · exact keeps_unifyPositions h _ _ false
  intro _
  apply keeps_ite
  · intro _
    exact keeps_pure _
  intro _
  apply keeps_ite
  · intro _
    exact keeps_pure _
  intro _
  apply keeps_bind
  · split
    · apply keeps_ite
      · intro _
        exact keeps_unifyAll h _ _
      · intro _
        exact keeps_pure _
    · exact keeps_pure _
  intro widened
  apply keeps_ite
  · intro _
    exact keeps_pure _
  intro _
  split
  · apply keeps_ite
    · intro _
      exact keeps_unifyAll h _ _
    · intro _
      exact keeps_pure _
  · exact keeps_pure _

theorem keeps_unifyOption (h : ∀ a b, Keeps (OnlyUnknowns unknowns) (unify a b))
    (x y : Option Ty) : Keeps (OnlyUnknowns unknowns) (unifyOption unify x y) := by
  unfold unifyOption
  split
  · exact keeps_pure _
  · apply h
  · exact keeps_pure _

theorem keeps_unifyRefineDecl (h : ∀ a b, Keeps (OnlyUnknowns unknowns) (unify a b))
    (x y : RefineDecl) : Keeps (OnlyUnknowns unknowns) (unifyRefineDecl unify x y) := by
  unfold unifyRefineDecl
  split
  · apply keeps_ite
    · intro _
      exact keeps_and (keeps_unifyOption h _ _)
        (keeps_and (keeps_unifyOption h _ _) (keeps_unifyOption h _ _))
    · intro _
      exact keeps_pure _
  · apply keeps_ite
    · intro _
      apply keeps_and
      · apply keeps_allM
        intro c _
        apply keeps_ite
        · intro _
          exact keeps_unifyAll h _ _
        · intro _
          exact keeps_pure _
      · apply h
    · intro _
      exact keeps_pure _
  · apply h
  · exact keeps_pure _

theorem keeps_unifyStructure (h : ∀ a b, Keeps (OnlyUnknowns unknowns) (unify a b)) (a b : Ty) :
    Keeps (OnlyUnknowns unknowns) (unifyStructure typer unify a b) := by
  have hall := keeps_unifyAll h
  unfold unifyStructure
  split
  case h_3 => exact keeps_unifyClasses h _ _ _ _
  case h_12 =>
    apply keeps_ite
    · intro _
      apply keeps_and (hall _ _)
      apply keeps_allM
      intro x _
      split
      · exact keeps_unifyRefineDecl h _ _
      · exact keeps_pure _
    · intro _
      exact keeps_pure _
  -- the other cases compare parts or fall back on equality
  all_goals
    first
    | exact h _ _
    | exact keeps_pure _
    | exact keeps_ite (fun _ => keeps_pure _) (fun _ => keeps_pure _)
    | exact keeps_ite (fun _ => hall _ _) (fun _ => keeps_pure _)
    | exact keeps_ite (fun _ => keeps_and (hall _ _) (h _ _)) (fun _ => keeps_pure _)
    | exact keeps_ite (fun _ => keeps_and (h _ _) (hall _ _)) (fun _ => keeps_pure _)

theorem keeps_unifyKnown (h : ∀ a b, Keeps (OnlyUnknowns unknowns) (unify a b)) (a b : Ty) :
    Keeps (OnlyUnknowns unknowns) (unifyKnown typer unify a b) := by
  unfold unifyKnown
  split
  · apply h
  apply keeps_ite
  · intro _
    exact keeps_pure _
  intro _
  split
  · exact keeps_pure _
  · apply keeps_ite
    · intro _
      exact keeps_pure _
    · intro _
      apply h
  split
  · exact keeps_unifyRefinement h ‹_›
  apply keeps_get_bind
  intro u _
  split
  · exact keeps_unifyHigherKinded h ‹_›
  split
  · apply h
  · exact keeps_unifyStructure h a b

theorem keeps_unifyStep (h : ∀ a b, Keeps (OnlyUnknowns unknowns) (unify a b)) (a b : Ty) :
    Keeps (OnlyUnknowns unknowns) (unifyStep typer unify a b) := by
  unfold unifyStep
  apply keeps_get_bind
  intro u hu
  apply keeps_ite
  · intro _
    exact keeps_pure _
  intro _
  split
  · rename_i id hid
    split
    · apply h
    · apply keeps_bindUnknown
      rw [← hu.1]
      exact containsKey_of_unknownOf hid
  split
  · rename_i id hid
    split
    · apply h
    · apply keeps_bindUnknown
      rw [← hu.1]
      exact containsKey_of_unknownOf hid
  apply keeps_ite
  · intro _
    exact keeps_unifyViews h _ _
  · intro _
    exact keeps_unifyKnown h _ _

theorem keeps_unifyAt (fuel : ℕ) (a b : Ty) :
    Keeps (OnlyUnknowns unknowns) (unifyAt typer fuel a b) := by
  induction fuel generalizing a b with
  | zero => exact keeps_pure false
  | succ fuel ih => exact keeps_unifyStep ih a b

end Keeping

/-- Whatever calls are made, only unknowns get bound. -/
theorem onlyUnknowns_run (typer : Typer) {unknowns : Unknowns} {u : Unify}
    (h : OnlyUnknowns unknowns u) (calls : List Call) :
    OnlyUnknowns unknowns (u.run typer calls) := by
  apply keeps_foldl _ calls h
  intro c
  cases c with
  | allowEvidenceConstructors =>
    apply keeps_bind
    · exact keeps_modify fun u hu => hu
    · intro _
      exact keeps_pure _
  | unify a b => exact keeps_unifyAt 25 a b

end ScalaRs.Unification
