import Mathlib.Data.List.Basic

/-! # Types of the typer

The `Type` tree of the parser with its refinement declarations, and the walks
over it that inference uses: the application of a constructor, the substitution
of type parameters, and the three tests of whether a type mentions one. -/
namespace ScalaRs.Unification

abbrev SymbolId := ℕ

/-- A literal constant. The two floating point ones are kept as their bits. -/
inductive Lit
  | unit
  | boolean (b : Bool)
  | int (i : Int)
  | long (i : Int)
  | float (bits : ℕ)
  | double (bits : ℕ)
  | char (code : ℕ)
  | string (s : String)
  | symbol (s : String)
  | null

mutual

inductive Ty
  | noType | error | unit | boolean | byte | short | int | long | float | double
  | char | string | any | anyRef | javaObject | anyVal | null | nothing
  | array (elem : Ty)
  | tuple (elems : List Ty)
  | function (params : List Ty) (ret : Ty)
  | named (name : String) (args : List Ty)
  | cls (sym : SymbolId) (args : List Ty)
  | method (paramss : List (List Ty)) (ret : Ty)
  | byName (result : Ty)
  | repeated (elem : Ty)
  | overload (alternatives : List Ty)
  | moduleRef (sym : SymbolId)
  | typeParam (id : SymbolId)
  | applied (ctor : Ty) (args : List Ty)
  | typeMember (sym : SymbolId)
  | wildcard
  | boundedWildcard (lo hi : Option Ty)
  | existential (params : List (SymbolId × Ty)) (body : Ty)
  | thisType (sym : SymbolId)
  | singleType (pre : Ty) (sym : SymbolId)
  | constant (lit : Lit)
  | annotated (tpe : Ty) (annot : String)
  | refined (parents : List Ty) (decls : List RefineDecl)

inductive RefineDecl
  | type (name : String) (rhs : Option Ty) (tparams : ℕ) (lo hi : Option Ty)
  | method (name : String) (tparams : List SymbolId) (paramss : List (List Ty)) (ret : Ty)
  | val (name : String) (ty : Ty)

end

/-! ## Direct parts of a type -/

/-- The types a declaration holds, `decl_types` of the source. -/
def RefineDecl.types : RefineDecl → List Ty
  | .type _ rhs _ lo hi => rhs.toList ++ lo.toList ++ hi.toList
  | .method _ _ paramss ret => paramss.flatten ++ [ret]
  | .val _ ty => [ty]

def RefineDecl.name : RefineDecl → String
  | .type name _ _ _ _ => name
  | .method name _ _ _ => name
  | .val name _ => name

/-- The types directly below a type. -/
def Ty.kids : Ty → List Ty
  | .array t => [t]
  | .byName t => [t]
  | .repeated t => [t]
  | .annotated t _ => [t]
  | .singleType t _ => [t]
  | .tuple ts => ts
  | .overload ts => ts
  | .named _ ts => ts
  | .cls _ ts => ts
  | .function ps r => ps ++ [r]
  | .method pss r => pss.flatten ++ [r]
  | .applied c as => c :: as
  | .boundedWildcard lo hi => lo.toList ++ hi.toList
  | .existential ps b => ps.map Prod.snd ++ [b]
  | .refined ps ds => ps ++ ds.flatMap RefineDecl.types
  | _ => []

theorem sizeOf_clause_lt {t : Ty} {ps : List Ty} {pss : List (List Ty)} (ht : t ∈ ps)
    (hp : ps ∈ pss) : sizeOf t < sizeOf pss := by
  have h1 := List.sizeOf_lt_of_mem ht
  have h2 := List.sizeOf_lt_of_mem hp
  omega

theorem sizeOf_bound_lt {p : SymbolId × Ty} {ps : List (SymbolId × Ty)} (hp : p ∈ ps) :
    sizeOf p.2 < sizeOf ps := by
  have h := List.sizeOf_lt_of_mem hp
  have h2 : sizeOf p = 1 + sizeOf p.1 + sizeOf p.2 := by cases p; rfl
  omega

theorem sizeOf_toList_lt {t : Ty} {o : Option Ty} (ht : t ∈ o.toList) : sizeOf t < sizeOf o := by
  cases o with
  | none => simp at ht
  | some s =>
    have hs : t = s := by simpa using ht
    subst hs
    simp

theorem RefineDecl.sizeOf_types_lt {t : Ty} {d : RefineDecl} (ht : t ∈ d.types) :
    sizeOf t < sizeOf d := by
  cases d with
  | type name rhs tparams lo hi =>
    simp only [types, List.mem_append] at ht
    rcases ht with (h | h) | h <;> have := sizeOf_toList_lt h <;> simp <;> omega
  | method name tparams pss ret =>
    simp only [types, List.mem_append, List.mem_flatten, List.mem_singleton] at ht
    rcases ht with ⟨ps, hps, h⟩ | h
    · have := sizeOf_clause_lt h hps
      simp
      omega
    · subst h
      simp only [method.sizeOf_spec]
      omega
  | val name ty =>
    simp only [types, List.mem_singleton] at ht
    subst ht
    simp only [val.sizeOf_spec]
    omega

theorem Ty.sizeOf_kid_lt {t k : Ty} (hk : k ∈ t.kids) : sizeOf k < sizeOf t := by
  cases t with
  | array | byName | repeated | annotated | singleType =>
    simp only [kids, List.mem_singleton] at hk
    subst hk
    simp
    try omega
  | tuple | overload | named | cls =>
    simp only [kids] at hk
    have := List.sizeOf_lt_of_mem hk
    simp
    omega
  | function ps r =>
    simp only [kids, List.mem_append, List.mem_singleton] at hk
    rcases hk with h | rfl
    · have := List.sizeOf_lt_of_mem h
      simp
      omega
    · simp only [function.sizeOf_spec]
      omega
  | method pss r =>
    simp only [kids, List.mem_append, List.mem_flatten, List.mem_singleton] at hk
    rcases hk with ⟨ps, hps, h⟩ | rfl
    · have := sizeOf_clause_lt h hps
      simp
      omega
    · simp only [method.sizeOf_spec]
      omega
  | applied c as =>
    simp only [kids, List.mem_cons] at hk
    rcases hk with rfl | h
    · simp
      omega
    · have := List.sizeOf_lt_of_mem h
      simp
      omega
  | boundedWildcard lo hi =>
    simp only [kids, List.mem_append] at hk
    rcases hk with h | h <;> have := sizeOf_toList_lt h <;> simp <;> omega
  | existential ps b =>
    simp only [kids, List.mem_append, List.mem_map, List.mem_singleton] at hk
    rcases hk with ⟨p, hp, rfl⟩ | rfl
    · have := sizeOf_bound_lt hp
      simp
      omega
    · simp only [existential.sizeOf_spec]
      omega
  | refined ps ds =>
    simp only [kids, List.mem_append, List.mem_flatMap] at hk
    rcases hk with h | ⟨d, hd, h⟩
    · have := List.sizeOf_lt_of_mem h
      simp
      omega
    · have h1 := RefineDecl.sizeOf_types_lt h
      have h2 := List.sizeOf_lt_of_mem hd
      simp
      omega
  | _ => simp [kids] at hk

/-- Induction over a type through the types directly below it. -/
theorem Ty.kids_induction {P : Ty → Prop} (step : ∀ t : Ty, (∀ k ∈ t.kids, P k) → P t)
    (t : Ty) : P t := by
  apply step
  intro k hk
  have := Ty.sizeOf_kid_lt hk
  exact Ty.kids_induction step k
termination_by sizeOf t

/-! ## Views of inner classes -/

def asSeenFromMark : String := "<asSeenFrom>"

/-- A refinement that only records the prefix of a class carries the mark among
its declarations. -/
def asSeenFromViewDecls (decls : List RefineDecl) : Bool :=
  decls.any fun
    | .type name _ _ _ _ => name == asSeenFromMark
    | _ => false

def asSeenFromView : Ty → Option Ty
  | .refined parents decls => if asSeenFromViewDecls decls then parents.head? else none
  | _ => none

def stripView (ty : Ty) : Ty := (asSeenFromView ty).getD ty

/-! ## Application and substitution -/

/-- Applies type arguments to a constructor, `Id` and `[A]` to `Id[A]`. -/
def applyTypeCtor (ctor : Ty) (args : List Ty) : Ty :=
  if args.isEmpty then ctor else
  match ctor with
  | .cls sym existing => .cls sym (existing ++ args)
  | .named name existing => .named name (existing ++ args)
  | .applied ctor existing => applyTypeCtor ctor (existing ++ args)
  | .annotated tpe annot => .annotated (applyTypeCtor tpe args) annot
  | .refined [.cls sym existing] decls =>
    if asSeenFromViewDecls decls then .refined [.cls sym (existing ++ args)] decls
    else .applied (.refined [.cls sym existing] decls) args
  | other => .applied other args

/-- Whether `flags()` of the type has a bit of the mask: some node of it does. -/
def flagged (mask : Ty → Bool) (ty : Ty) : Bool :=
  mask ty || ty.kids.attach.any fun k => flagged mask k.1
termination_by sizeOf ty
decreasing_by exact Ty.sizeOf_kid_lt k.2

def typeParamFlag : Ty → Bool
  | .typeParam _ => true
  | _ => false

def typeParamOrAppliedFlag : Ty → Bool
  | .typeParam _ => true
  | .applied _ _ => true
  | _ => false

mutual

/-- `subst_map`, with the parameters and the types for them in one list of pairs. -/
def substMap (θ : List (SymbolId × Ty)) (ty : Ty) : Ty :=
  if !flagged typeParamOrAppliedFlag ty then ty else
  match ty with
  | .typeParam id => (θ.lookup id).getD (.typeParam id)
  | .cls sym as => .cls sym (as.map (substMap θ))
  | .applied ctor as => applyTypeCtor (substMap θ ctor) (as.map (substMap θ))
  | .array t => .array (substMap θ t)
  | .function params ret => .function (params.map (substMap θ)) (substMap θ ret)
  | .method paramss ret =>
    .method (paramss.map fun ps => ps.map (substMap θ)) (substMap θ ret)
  | .byName t => .byName (substMap θ t)
  | .repeated t => .repeated (substMap θ t)
  | .tuple ts => .tuple (ts.map (substMap θ))
  | .named name as => .named name (as.map (substMap θ))
  | .refined parents decls =>
    .refined (parents.map (substMap θ)) (decls.map (substRefineDecl θ))
  | .annotated tpe annot => .annotated (substMap θ tpe) annot
  | .existential params body =>
    -- the parameters quantified here stand for themselves below
    .existential
      (params.map fun p => (p.1, substMap (θ.filter fun q => !params.any (·.1 == q.1)) p.2))
      (substMap (θ.filter fun q => !params.any (·.1 == q.1)) body)
  | .boundedWildcard lo hi =>
    .boundedWildcard
      (match lo with
        | none => none
        | some t => some (substMap θ t))
      (match hi with
        | none => none
        | some t => some (substMap θ t))
  | .singleType pre sym => .singleType (substMap θ pre) sym
  | other => other
termination_by sizeOf ty
decreasing_by
  all_goals first
    | (have h := sizeOf_clause_lt ‹_ ∈ (_ : List Ty)› ‹_ ∈ (_ : List (List Ty))›; simp; omega)
    | (have h := sizeOf_bound_lt ‹_ ∈ (_ : List (SymbolId × Ty))›; simp; omega)
    | decreasing_tactic

def substRefineDecl (θ : List (SymbolId × Ty)) (d : RefineDecl) : RefineDecl :=
  match d with
  | .type name rhs tparams lo hi =>
    .type name
      (match rhs with
        | none => none
        | some t => some (substMap θ t))
      tparams
      (match lo with
        | none => none
        | some t => some (substMap θ t))
      (match hi with
        | none => none
        | some t => some (substMap θ t))
  | .method name tparams paramss ret =>
    .method name tparams (paramss.map fun ps => ps.map (substMap θ)) (substMap θ ret)
  | .val name ty => .val name (substMap θ ty)
termination_by sizeOf d
decreasing_by
  all_goals first
    | (have h := sizeOf_clause_lt ‹_ ∈ (_ : List Ty)› ‹_ ∈ (_ : List (List Ty))›; simp; omega)
    | decreasing_tactic

end

/-! ## Mentions of a parameter -/

/-- Whether the type mentions `tp`, not looking inside a compound type. -/
def typeMentionsTparam (tp : SymbolId) (ty : Ty) : Bool :=
  if !flagged typeParamFlag ty then false else
  match ty with
  | .typeParam id => id == tp
  | .refined parents decls =>
    match asSeenFromViewDecls decls, parents with
    | true, p :: _ => typeMentionsTparam tp p
    | _, _ => false
  | .existential params body =>
    !params.any (·.1 == tp) &&
      (typeMentionsTparam tp body || params.attach.any fun p => typeMentionsTparam tp p.1.2)
  | .cls _ as => as.attach.any fun t => typeMentionsTparam tp t.1
  | .named _ as => as.attach.any fun t => typeMentionsTparam tp t.1
  | .tuple ts => ts.attach.any fun t => typeMentionsTparam tp t.1
  | .applied ctor as =>
    typeMentionsTparam tp ctor || as.attach.any fun t => typeMentionsTparam tp t.1
  | .array t => typeMentionsTparam tp t
  | .byName t => typeMentionsTparam tp t
  | .repeated t => typeMentionsTparam tp t
  | .annotated t _ => typeMentionsTparam tp t
  | .function params ret =>
    (params.attach.any fun t => typeMentionsTparam tp t.1) || typeMentionsTparam tp ret
  | .method paramss ret =>
    (paramss.flatten.attach.any fun t => typeMentionsTparam tp t.1) || typeMentionsTparam tp ret
  | _ => false
termination_by sizeOf ty
decreasing_by
  all_goals apply Ty.sizeOf_kid_lt; simp [Ty.kids, -List.mem_flatten]
  all_goals grind

/-- The same also inside the parents and declarations of a refinement and inside
the bounds of a wildcard. -/
def typeMentionsTparamDeep (tp : SymbolId) (ty : Ty) : Bool :=
  if !flagged typeParamFlag ty then false
  else if typeMentionsTparam tp ty then true
  else
  match ty with
  | .refined parents decls =>
    (parents.attach.any fun p => typeMentionsTparamDeep tp p.1) ||
      (decls.flatMap RefineDecl.types).attach.any fun t => typeMentionsTparamDeep tp t.1
  | .existential params body =>
    !params.any (·.1 == tp) &&
      (typeMentionsTparamDeep tp body ||
        params.attach.any fun p => typeMentionsTparamDeep tp p.1.2)
  | .cls _ as => as.attach.any fun t => typeMentionsTparamDeep tp t.1
  | .named _ as => as.attach.any fun t => typeMentionsTparamDeep tp t.1
  | .tuple ts => ts.attach.any fun t => typeMentionsTparamDeep tp t.1
  | .applied ctor as =>
    typeMentionsTparamDeep tp ctor || as.attach.any fun t => typeMentionsTparamDeep tp t.1
  | .array t => typeMentionsTparamDeep tp t
  | .byName t => typeMentionsTparamDeep tp t
  | .repeated t => typeMentionsTparamDeep tp t
  | .annotated t _ => typeMentionsTparamDeep tp t
  | .function params ret =>
    (params.attach.any fun t => typeMentionsTparamDeep tp t.1) || typeMentionsTparamDeep tp ret
  | .boundedWildcard lo hi =>
    (lo.toList ++ hi.toList).attach.any fun t => typeMentionsTparamDeep tp t.1
  | .method paramss ret =>
    (paramss.flatten.attach.any fun t => typeMentionsTparamDeep tp t.1) ||
      typeMentionsTparamDeep tp ret
  | _ => false
termination_by sizeOf ty
decreasing_by
  all_goals apply Ty.sizeOf_kid_lt; simp [Ty.kids, -List.mem_flatten]
  all_goals grind

/-- The unknowns of a unification, each with whether it belongs to the candidate. -/
abbrev Unknowns := List (SymbolId × Bool)

def Unknowns.containsKey (unknowns : Unknowns) (id : SymbolId) : Bool :=
  (unknowns.lookup id).isSome

def mentionsUnknown (unknowns : Unknowns) (ty : Ty) : Bool :=
  match ty with
  | .typeParam id => unknowns.containsKey id
  | .cls _ as => as.attach.any fun t => mentionsUnknown unknowns t.1
  | .named _ as => as.attach.any fun t => mentionsUnknown unknowns t.1
  | .tuple ts => ts.attach.any fun t => mentionsUnknown unknowns t.1
  | .applied ctor as =>
    mentionsUnknown unknowns ctor || as.attach.any fun t => mentionsUnknown unknowns t.1
  | .array t => mentionsUnknown unknowns t
  | .byName t => mentionsUnknown unknowns t
  | .repeated t => mentionsUnknown unknowns t
  | .annotated t _ => mentionsUnknown unknowns t
  | .function params ret =>
    (params.attach.any fun t => mentionsUnknown unknowns t.1) || mentionsUnknown unknowns ret
  | .refined parents decls =>
    unknowns.any fun u => typeMentionsTparamDeep u.1 (.refined parents decls)
  | _ => false
termination_by sizeOf ty
decreasing_by
  all_goals apply Ty.sizeOf_kid_lt; simp [Ty.kids, -List.mem_flatten]
  all_goals grind

end ScalaRs.Unification
