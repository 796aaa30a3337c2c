import ScalaRs.FlatTrees

/-! # What the uncurry pass leaves

The walk makes a tree flat exactly when the tree is ready for it. -/
namespace ScalaRs.Uncurry
open CompilerTrees
open Unification (Ty SymbolId)

/-! ## Runs -/

section
variable {α β : Type}

@[simp] theorem bind_apply (x : Pass α) (f : α → Pass β) (s : State) :
    (x >>= f) s = f (x s).1 (x s).2 := rfl

@[simp] theorem map_apply (f : α → β) (x : Pass α) (s : State) :
    (f <$> x) s = (f (x s).1, (x s).2) := rfl

@[simp] theorem pure_apply (a : α) (s : State) : (pure a : Pass α) s = (a, s) := rfl

end

/-- The trees in value position below a list of trees. -/
theorem forall_values {ts : List Tree} :
    (∀ x ∈ ts.map ((false, ·) : Tree → Bool × Tree), Flat x.1 x.2) ↔ ∀ t ∈ ts, Flat false t := by
  simp

/-- The walk of a tree, in a mode and for a position, makes it flat. -/
def ReadyAt (x : (Bool × Bool) × Tree) : Prop :=
  TypeReady x.1.1 x.1.2 x.2 ∧ Ready x.1.1 x.1.2 x.2

/-- The walk in value position makes a tree flat. -/
def ReadyTree (t : Tree) : Prop := ReadyAt ((false, false), t)

/-- The walk makes this tree flat just when it is ready. -/
def Sound (t : Tree) : Prop := ∀ (asFun inFun : Bool) (s : State), (asFun = true → inFun = true) →
  (Flat inFun (walk asFun t s).1 ↔ ReadyAt ((asFun, inFun), t))

theorem flat_walkTrees {ts : List Tree} (h : ∀ t ∈ ts, Sound t) (s : State) :
    (∀ t ∈ (walkTrees ts s).1, Flat false t) ↔
      ∀ t ∈ ts, ReadyTree t := by
  induction ts generalizing s with
  | nil => simp [walkTrees]
  | cons t ts ih =>
      simp only [walkTrees, bind_apply, pure_apply, List.forall_mem_cons]
      rw [h t List.mem_cons_self false false s (by simp), ih fun u hu =>
        h u (List.mem_cons_of_mem t hu)]
      rfl

theorem flat_walkClauses {tss : List (List Tree)} (h : ∀ t ∈ tss.flatten, Sound t) (s : State) :
    (∀ t ∈ (walkClauses tss s).1.flatten, Flat false t) ↔
      ∀ t ∈ tss.flatten, ReadyTree t := by
  induction tss generalizing s with
  | nil => simp [walkClauses]
  | cons ts tss ih =>
      simp only [walkClauses, bind_apply, pure_apply, List.flatten_cons, List.forall_mem_append]
      rw [flat_walkTrees fun t ht => h t (List.mem_append_left _ ht), ih fun t ht =>
        h t (List.mem_append_right _ ht)]

theorem walk_isEmpty {t : Tree} (h : isEmpty t = true) (asFun : Bool) (s : State) :
    walk asFun t s = (t, s) := by
  obtain ⟨info, kind⟩ := t
  cases kind <;> first | rfl | cases h

theorem flat_walkCases {cases : List (CaseDef Tree)}
    (h : ∀ t ∈ cases.flatMap CaseDef.trees, Sound t) (s : State) :
    (∀ t ∈ (walkCases cases s).1.flatMap CaseDef.trees, Flat false t) ↔
      ∀ t ∈ cases.flatMap CaseDef.trees, ReadyTree t := by
  induction cases generalizing s with
  | nil => simp [walkCases]
  | cons c cases ih =>
      obtain ⟨pat, guard, body⟩ := c
      have hguard : (if isEmpty guard = true then pure guard else walk false guard) =
          walk false guard := by
        split
        · next hempty =>
          funext s
          exact (walk_isEmpty hempty false s).symm
        · rfl
      simp only [List.flatMap_cons, List.forall_mem_append] at h
      simp only [walkCases, hguard, bind_apply, pure_apply, List.flatMap_cons,
        List.forall_mem_append, ih h.2]
      simp only [CaseDef.trees, List.forall_mem_cons, List.not_mem_nil, false_imp_iff] at h ⊢
      rw [h.1.1 false false _ (by simp), h.1.2.1 false false _ (by simp),
        h.1.2.2.1 false false _ (by simp)]
      rfl

theorem flat_walkCatches {cases : List (CaseDef Tree)}
    (h : ∀ t ∈ cases.flatMap CaseDef.trees, Sound t) (s : State) :
    (∀ t ∈ (walkCatches cases s).1.flatMap CaseDef.trees, Flat false t) ↔
      (∀ t ∈ cases.flatMap fun c => [c.pat, c.body],
        ReadyTree t) ∧
      ∀ t ∈ cases.map (·.guard), Flat false t := by
  induction cases generalizing s with
  | nil => simp [walkCatches]
  | cons c cases ih =>
      obtain ⟨pat, guard, body⟩ := c
      simp only [List.flatMap_cons, List.forall_mem_append] at h
      simp only [walkCatches, bind_apply, pure_apply, List.flatMap_cons, List.map_cons,
        List.forall_mem_append, List.forall_mem_cons, ih h.2]
      simp only [CaseDef.trees, List.forall_mem_cons, List.not_mem_nil, false_imp_iff] at h ⊢
      rw [h.1.1 false false _ (by simp), h.1.2.2.1 false false _ (by simp)]
      simp only [ReadyTree]
      tauto

theorem flat_walkTemplate {impl : Template Tree}
    (h : ∀ t ∈ impl.parents ++ impl.selfTpt.toList ++ impl.body, Sound t) (s : State) :
    (∀ t ∈ (walkTemplate impl s).1.parents ++ (walkTemplate impl s).1.selfTpt.toList ++
        (walkTemplate impl s).1.body, Flat false t) ↔
      (∀ t ∈ impl.parents ++ impl.body, ReadyTree t) ∧
      ∀ t ∈ impl.selfTpt.toList, Flat false t := by
  obtain ⟨parents, selfName, selfTpt, body⟩ := impl
  simp only [List.forall_mem_append] at h
  simp only [walkTemplate, bind_apply, pure_apply, List.forall_mem_append, flat_walkTrees h.1.1,
    flat_walkTrees h.2]
  grind

/-! ## Eta-expansion -/

theorem etaParam_fst (span : Lexing.Span) (pty : Ty) (s : State) :
    ∃ info name, info.ty = pty ∧ (etaParam span pty s).1 =
      (.mk info (.valDef name (.dummy .empty) (.dummy .empty)), .mk info (.ident name)) :=
  ⟨_, _, rfl, rfl⟩

theorem flat_dummy_empty : Flat false (.dummy .empty) :=
  .mk (fun _ h => absurd h Bool.false_ne_true) trivial (fun _ hx => absurd hx List.not_mem_nil)

theorem flat_etaParams (span : Lexing.Span) (params : List Ty) (s : State) :
    (∀ t ∈ (params.mapM (etaParam span) s).1.map Prod.fst, Flat false t) ∧
    ((∀ t ∈ (params.mapM (etaParam span) s).1.map Prod.snd, Flat false t) ↔
      ∀ pty ∈ params, isMethodTy pty = false) := by
  induction params generalizing s with
  | nil => simp
  | cons pty params ih =>
      obtain ⟨info, name, rfl, hpair⟩ := etaParam_fst span pty s
      obtain ⟨hvals, hargs⟩ := ih (etaParam span info.ty s).2
      have hident : Flat false (.mk info (.ident name)) ↔ isMethodTy info.ty = false := by
        rw [flat_iff]
        simp [TypeFlat, FlatBelow, Tree.kind, Tree.ty, Tree.info, isExpr, NotCurried, positions,
          TreeKind.trees]
      have hval : Flat false (.mk info (.valDef name (.dummy .empty) (.dummy .empty))) := by
        rw [flat_iff]
        simp [TypeFlat, FlatBelow, Tree.kind, isExpr, NotCurried, positions, TreeKind.trees,
          flat_dummy_empty]
      simp only [List.mapM_cons, bind_apply, pure_apply, hpair, List.map_cons, List.forall_mem_cons,
        hident, hargs]
      exact ⟨⟨hval, hvals⟩, trivial⟩

def shapeOf : TreeKind Tree → Shape
  | .function _ _ => .function
  | .apply _ _ => .application
  | _ => .other

theorem shapeOf_function {t : Tree} : shapeOf t.kind = .function ↔ isFunction t = true := by
  cases t with
  | mk info kind => cases kind <;> simp [shapeOf, isFunction, Tree.kind]

theorem shapeOf_application {t : Tree} : shapeOf t.kind = .application ↔ isApply t = true := by
  cases t with
  | mk info kind => cases kind <;> simp [shapeOf, isApply, Tree.kind]

theorem etaIfMethod_of_not {t : Tree} (h : isFunction t = true ∨ isMethodTy t.ty = false)
    (s : State) : etaIfMethod t s = (t, s) := by
  by_cases hfunction : isFunction t = true
  · rw [etaIfMethod, if_pos hfunction]
    rfl
  · rw [etaIfMethod, if_neg hfunction]
    have hty := h.resolve_left hfunction
    cases hcase : t.ty <;> first | rfl | (rw [hcase] at hty; cases hty)

theorem etaIfMethod_of_method {t : Tree} (hfunction : isFunction t = false)
    {paramss : List (List Ty)} {ret : Ty} (hty : t.ty = .method paramss ret) :
    etaIfMethod t = etaExpand t paramss.flatten ret := by
  rw [etaIfMethod, if_neg (by simp [hfunction]), hty]

/-- What the expansion of a method is. -/
theorem etaExpand_fst (t : Tree) (params : List Ty) (ret : Ty) (s : State) :
    ∃ info cinfo vparams args, (etaExpand t params ret s).1 =
        .mk info (.function vparams (.mk cinfo (.apply t args))) ∧
      isMethodTy info.ty = false ∧ cinfo.ty = ret ∧ (∀ v ∈ vparams, Flat false v) ∧
      ((∀ a ∈ args, Flat false a) ↔ ∀ pty ∈ params, isMethodTy pty = false) :=
  ⟨_, _, _, _, rfl, rfl, rfl, (flat_etaParams t.info.span params s).1,
    (flat_etaParams t.info.span params s).2⟩

theorem forall_positions_apply {inFun : Bool} {func : Tree} {args : List Tree} :
    (∀ x ∈ positions inFun (.apply func args), Flat x.1 x.2) ↔
      Flat true func ∧ ∀ a ∈ args, Flat false a := by
  simp [positions]

theorem flatBelow_etaIfMethod {t : Tree} (hfunction : isFunction t = false)
    (hmethod : isMethodTy t.ty = true) (inFun : Bool) (s : State) :
    FlatBelow inFun (etaIfMethod t s).1.kind ↔
      (SimpleMethod t.ty ∧ shapeOf t.kind ≠ .application) ∧ FlatBelow true t.kind := by
  cases hty : t.ty with
  | method paramss ret =>
      obtain ⟨info, cinfo, vparams, args, heta, -, hret, hvals, hargs⟩ :=
        etaExpand_fst t paramss.flatten ret s
      have htop : Flat true t ↔ FlatBelow true t.kind := by
        rw [flat_iff]
        simp [TypeFlat]
      have hcurried : NotCurried (.apply t args) ↔ shapeOf t.kind ≠ .application := by
        rw [NotCurried, ne_eq, shapeOf_application, hmethod]
        simp
      have hcall : Flat false (.mk cinfo (.apply t args)) ↔ isMethodTy ret = false ∧
          shapeOf t.kind ≠ .application ∧ FlatBelow true t.kind ∧
            ∀ pty ∈ paramss.flatten, isMethodTy pty = false := by
        rw [flat_iff, FlatBelow, Tree.kind, hcurried, forall_positions_apply, htop, hargs]
        simp [TypeFlat, Tree.kind, Tree.ty, Tree.info, isExpr, hret]
      rw [etaIfMethod_of_method hfunction hty, heta]
      simp only [FlatBelow, Tree.kind, NotCurried, positions, TreeKind.trees, List.map_append,
        List.map_cons, List.map_nil, List.forall_mem_append, forall_values, List.forall_mem_cons,
        List.not_mem_nil, false_imp_iff, hcall, SimpleMethod]
      grind
  | _ =>
      rw [hty] at hmethod
      cases hmethod

theorem shapeOf_etaIfMethod (t : Tree) (s : State) :
    shapeOf (etaIfMethod t s).1.kind = Shape.expanded t.ty (shapeOf t.kind) := by
  by_cases hmethod : isMethodTy t.ty = true
  · rw [Shape.expanded, if_pos hmethod]
    by_cases hfunction : isFunction t = true
    · rw [etaIfMethod_of_not (.inl hfunction)]
      exact shapeOf_function.2 hfunction
    · cases hty : t.ty with
      | method paramss ret =>
          rw [etaIfMethod_of_method (by simpa using hfunction) hty]
          rfl
      | _ =>
          rw [hty] at hmethod
          cases hmethod
  · rw [Shape.expanded, if_neg hmethod, etaIfMethod_of_not (.inr (by simpa using hmethod))]

theorem typeFlat_etaIfMethod {t : Tree} (hfunction : isFunction t = false) (inFun : Bool)
    (s : State) : TypeFlat inFun (etaIfMethod t s).1 := by
  by_cases hmethod : isMethodTy t.ty = true
  · cases hty : t.ty with
    | method paramss ret =>
        rw [etaIfMethod_of_method hfunction hty]
        exact fun _ _ => rfl
    | _ =>
        rw [hty] at hmethod
        cases hmethod
  · rw [etaIfMethod_of_not (.inr (by simpa using hmethod))]
    exact fun _ _ => by simpa using hmethod

/-! ## Flattening -/

/-- A partial application that an application of it takes in. -/
def Merges (func : Tree) : Prop :=
  isApply func = true ∧ isNew (peelNew func) = false ∧ isFunctionTy func.ty = false

/-- The function of an application is not taken in. -/
def Flattened : TreeKind Tree → Prop
  | .apply func _ => ¬Merges func
  | _ => True

/-- The test for `new` looks at an application itself, and so it never succeeds. -/
theorem merges_iff {func : Tree} :
    Merges func ↔ isApply func = true ∧ isFunctionTy func.ty = false := by
  constructor
  · intro h
    exact ⟨h.1, h.2.2⟩
  · intro h
    obtain ⟨finfo, kind⟩ := func
    refine ⟨h.1, ?_, h.2⟩
    cases kind with
    | apply inner ia => rfl
    | _ => exact absurd h.1 Bool.false_ne_true

theorem notCurried_of_not_merges {func : Tree} {args : List Tree} (h : ¬Merges func) :
    NotCurried (.apply func args) := by
  intro hcurried
  apply h
  rw [merges_iff]
  refine ⟨hcurried.1, ?_⟩
  cases hty : func.ty with
  | function => rw [hty] at hcurried; exact absurd hcurried.2 Bool.false_ne_true
  | _ => rfl

theorem flattenApplication_eq {info : Info} {func : Tree} {args : List Tree} (h : ¬Merges func) :
    flattenApplication info func args = .mk info (.apply func args) := by
  obtain ⟨finfo, kind⟩ := func
  cases kind with
  | apply inner ia =>
      rw [flattenApplication]
      split
      · rfl
      · split
        · rfl
        · next hnew hfunction =>
          have hty : isFunctionTy finfo.ty = false := by simpa using hfunction
          exact absurd ⟨rfl, by simpa using hnew, hty⟩ h
  | _ => rfl

theorem flattenApplication_merges {info finfo : Info} {inner : Tree} {ia args : List Tree}
    (h : Merges (.mk finfo (.apply inner ia))) :
    flattenApplication info (.mk finfo (.apply inner ia)) args =
      flattenApplication { info with stablePat := false, bynameThunk := false } inner
        (ia ++ args) := by
  have hty : ¬isFunctionTy finfo.ty = true := ne_true_of_eq_false h.2.2
  rw [flattenApplication, if_neg (ne_true_of_eq_false h.2.1), if_neg hty]

theorem flattened_of_shape {kind : TreeKind Tree} (h : shapeOf kind ≠ .application) :
    Flattened kind := by
  cases kind with
  | apply => exact absurd rfl h
  | _ => trivial

theorem flattened_etaIfMethod {t : Tree} (h : Flattened t.kind) (s : State) :
    Flattened (etaIfMethod t s).1.kind := by
  by_cases hshape : shapeOf (etaIfMethod t s).1.kind = .application
  · rw [shapeOf_etaIfMethod, Shape.expanded] at hshape
    split at hshape
    · cases hshape
    · next hmethod =>
      rw [etaIfMethod_of_not (.inr (by simpa using hmethod))]
      exact h
  · exact flattened_of_shape hshape

/-- One application of a function that is flattened: the clauses that it takes in are the rest. -/
theorem flattenApply_spec {info : Info} {func : Tree} {args : List Tree}
    (hfunc : Flattened func.kind) :
    ∃ info' func' args',
      flattenApply (.mk info (.apply func args)) = .mk info' (.apply func' args') ∧
      info'.ty = info.ty ∧ ¬Merges func' ∧
      ((Flat true func' ∧ ∀ a ∈ args', Flat false a) ↔
        Flat true func ∧ ∀ a ∈ args, Flat false a) := by
  by_cases h : Merges func
  · obtain ⟨finfo, kind⟩ := func
    cases kind with
    | apply inner ia =>
        have hinner : ¬Merges inner := hfunc
        refine ⟨{ info with stablePat := false, bynameThunk := false }, inner, ia ++ args, ?_, rfl,
          hinner, ?_⟩
        · rw [flattenApply, flattenApplication_merges h, flattenApplication_eq hinner]
        · have hcurried : NotCurried (.apply inner ia) := notCurried_of_not_merges hinner
          have hflat : Flat true (.mk finfo (.apply inner ia)) ↔
              Flat true inner ∧ ∀ a ∈ ia, Flat false a := by
            rw [flat_iff, FlatBelow, Tree.kind, forall_positions_apply]
            simp [TypeFlat, hcurried]
          rw [hflat, List.forall_mem_append]
          tauto
    | _ => exact absurd h.1 Bool.false_ne_true
  · refine ⟨info, func, args, ?_, rfl, h, Iff.rfl⟩
    rw [flattenApply, flattenApplication_eq h]

/-! ## What is below a node -/

theorem flat_walk {t : Tree} (h : Sound t) (s : State) :
    Flat false (walk false t s).1 ↔ ReadyTree t := h false false s (by simp)

theorem flat_walk_fun {t : Tree} (h : Sound t) (s : State) :
    Flat true (walk true t s).1 ↔ ReadyAt ((true, true), t) :=
  h true true s (by simp)

theorem flat_walk_pos {asFun inFun : Bool} {t : Tree} (h : Sound t)
    (hmode : asFun = true → inFun = true) (s : State) :
    Flat inFun (walk asFun t s).1 ↔ ReadyAt ((asFun, inFun), t) :=
  h asFun inFun s hmode

theorem forall_walked {ts : List Tree} :
    (∀ x ∈ ts.map ((((false, false) : Bool × Bool), ·) : Tree → (Bool × Bool) × Tree),
      ReadyAt x) ↔ ∀ t ∈ ts, ReadyTree t := by
  simp [ReadyTree]

theorem positions_walkKind {kind : TreeKind Tree} (h : ∀ c ∈ kind.trees, Sound c)
    {asFun inFun : Bool} (hmode : asFun = true → inFun = true) (s : State) :
    (∀ x ∈ positions inFun (walkKind asFun kind s).1, Flat x.1 x.2) ↔
      (∀ x ∈ walked asFun inFun kind, ReadyAt x) ∧
      ∀ c ∈ unwalked kind, Flat false c := by
  have hnil {α : Type} {P : α → Prop} : (∀ t ∈ [], P t) ↔ True := by simp
  cases kind with
  | new _ | returnValue _ | throw _ | select _ _ | bind _ _ | star _ =>
      simp only [TreeKind.trees, List.forall_mem_cons] at h
      simp only [walkKind, bind_apply, pure_apply, positions, walked, unwalked, TreeKind.trees,
        forall_values, forall_walked, List.forall_mem_cons, hnil, and_true, flat_walk h.1]
  | valDef _ _ _ | assign _ _ | whileLoop _ _ | doWhile _ _ =>
      simp only [TreeKind.trees, List.forall_mem_cons] at h
      simp only [walkKind, bind_apply, pure_apply, positions, walked, unwalked, TreeKind.trees,
        forall_values, forall_walked, List.forall_mem_cons, hnil, and_true, flat_walk h.1,
        flat_walk h.2.1]
  | ifElse cond thenp elsep =>
      simp only [TreeKind.trees, List.forall_mem_cons] at h
      simp only [walkKind, bind_apply, pure_apply, positions, walked, unwalked, TreeKind.trees,
        forall_values, forall_walked, List.forall_mem_cons, hnil, and_true, flat_walk h.1,
        flat_walk h.2.1, flat_walk h.2.2.1]
  | block _ _ | function _ _ | labelDef _ _ _ =>
      simp only [TreeKind.trees, List.forall_mem_append, List.forall_mem_cons] at h
      simp only [walkKind, bind_apply, pure_apply, positions, walked, unwalked, TreeKind.trees,
        forall_values, forall_walked, List.forall_mem_append, List.forall_mem_cons, hnil, and_true,
        flat_walkTrees h.1, flat_walk h.2.1]
  | alternative _ | interpolatedString _ _ _ =>
      simp only [walkKind, bind_apply, pure_apply, positions, walked, unwalked, TreeKind.trees,
        forall_values, forall_walked, hnil, and_true]
      exact flat_walkTrees h s
  | appliedTypeTree tpt args =>
      simp only [TreeKind.trees, List.forall_mem_cons] at h
      simp only [walkKind, bind_apply, pure_apply, positions, walked, unwalked, TreeKind.trees,
        forall_values, forall_walked, List.forall_mem_cons, hnil, and_true, flat_walk h.1,
        flat_walkTrees h.2]
  | packageDef pid stats =>
      simp only [TreeKind.trees, List.forall_mem_cons] at h
      simp only [walkKind, bind_apply, pure_apply, positions, walked, unwalked, TreeKind.trees,
        forall_values, forall_walked, List.forall_mem_cons, hnil, and_true, flat_walkTrees h.2]
      exact and_comm
  | matchOn selector cases =>
      simp only [TreeKind.trees, List.forall_mem_cons] at h
      simp only [walkKind, bind_apply, pure_apply, positions, walked, unwalked, TreeKind.trees,
        forall_values, forall_walked, List.forall_mem_cons, hnil, and_true, flat_walk h.1,
        flat_walkCases h.2]
  | tryCatch body catches finalizer =>
      simp only [TreeKind.trees, List.forall_mem_append, List.forall_mem_cons] at h
      simp only [walkKind, bind_apply, pure_apply, positions, walked, unwalked, TreeKind.trees,
        forall_values, forall_walked, List.forall_mem_append, List.forall_mem_cons, hnil, and_true,
        flat_walk h.1, flat_walkCatches h.2.1, flat_walk h.2.2.1]
      tauto
  | apply func args | unApply func args =>
      simp only [TreeKind.trees, List.forall_mem_cons] at h
      simp only [walkKind, bind_apply, pure_apply, positions, walked, unwalked,
        List.forall_mem_cons, forall_values, forall_walked, hnil, and_true, flat_walk_fun h.1,
        flat_walkTrees h.2]
  | typeApply func args =>
      simp only [TreeKind.trees, List.forall_mem_cons] at h
      simp only [walkKind, bind_apply, pure_apply, positions, walked, unwalked,
        List.forall_mem_cons, forall_values, forall_walked, hnil, and_true,
        flat_walk_pos h.1 hmode, flat_walkTrees h.2]
  | typed expr tpt =>
      simp only [TreeKind.trees, List.forall_mem_cons] at h
      simp only [walkKind, bind_apply, pure_apply, positions, walked, unwalked,
        List.forall_mem_cons, hnil, and_true, flat_walk_pos h.1 hmode, flat_walk h.2.1, ReadyTree]
  | defDef name tparams vparamss tpt rhs =>
      simp only [TreeKind.trees, List.forall_mem_append, List.forall_mem_cons] at h
      simp only [walkKind, bind_apply, pure_apply, positions, walked, unwalked, TreeKind.trees,
        forall_values, forall_walked, List.forall_mem_append, List.forall_mem_cons, hnil, and_true,
        flat_walkTrees h.1.1, flat_walkClauses h.1.2, flat_walk h.2.1, flat_walk h.2.2.1]
  | classDef name tparams vparamss impl =>
      have himpl : ∀ t ∈ impl.parents ++ impl.selfTpt.toList ++ impl.body, Sound t := by
        intro t ht
        apply h t
        simp only [TreeKind.trees, List.mem_append] at ht ⊢
        tauto
      have htparams : ∀ t ∈ tparams, Sound t := fun t ht => h t (by simp [TreeKind.trees, ht])
      have hvparamss : ∀ t ∈ vparamss.flatten, Sound t := by
        intro t ht
        apply h t
        simp only [TreeKind.trees, List.mem_append]
        tauto
      have htemplate := fun s => flat_walkTemplate himpl s
      simp only [List.forall_mem_append] at htemplate
      simp only [walkKind, bind_apply, pure_apply, positions, walked, unwalked, TreeKind.trees,
        forall_values, forall_walked, List.forall_mem_append, flat_walkTrees htparams,
        flat_walkClauses hvparamss, and_assoc] at htemplate ⊢
      rw [htemplate]
  | moduleDef name impl =>
      have himpl : ∀ t ∈ impl.parents ++ impl.selfTpt.toList ++ impl.body, Sound t := h
      simp only [walkKind, bind_apply, pure_apply, positions, walked, unwalked, TreeKind.trees,
        forall_values, forall_walked, flat_walkTemplate himpl]
  | typeDef name tparams rhs lo hi views ctxBounds =>
      simp only [TreeKind.trees, List.forall_mem_append, List.forall_mem_cons] at h
      simp only [walkKind, bind_apply, pure_apply, positions, walked, unwalked, TreeKind.trees,
        forall_values, List.forall_mem_append, List.forall_mem_cons, hnil, and_true,
        flat_walk h.2.1]
      tauto
  | _ => simp [walkKind, positions, walked, unwalked, TreeKind.trees]

/-! ## What the walk makes of a tree -/

structure Outcome (asFun inFun : Bool) (t out : Tree) : Prop where
  ty : TypeFlat inFun out ↔ TypeReady asFun inFun t
  below : FlatBelow inFun out.kind ↔ Ready asFun inFun t
  shape : shapeOf out.kind = shapeAfter asFun t
  flattened : Flattened out.kind

/-- The walk of a tree has the outcome, in every mode and for every position. -/
def Treated (t : Tree) : Prop := ∀ (asFun inFun : Bool) (s : State), (asFun = true → inFun = true) →
  Outcome asFun inFun t (walk asFun t s).1

theorem Treated.sound {t : Tree} (h : Treated t) : Sound t := by
  intro asFun inFun s hmode
  rw [flat_iff, (h asFun inFun s hmode).ty, (h asFun inFun s hmode).below]
  rfl

theorem ready_iff {asFun inFun : Bool} {info : Info} {kind : TreeKind Tree}
    (h : hasEtaMarker kind = false) :
    Ready asFun inFun (.mk info kind) ↔ NodeReady asFun (.mk info kind) ∧
      (∀ x ∈ walked asFun (endsInFun asFun inFun (.mk info kind)) kind, ReadyAt x) ∧
      ∀ c ∈ unwalked kind, Flat false c := by
  constructor
  · intro hready
    cases hready with
    | walk _ hnode hty hbelow hunwalked =>
        exact ⟨hnode, fun x hx => ⟨hty x hx, hbelow x hx⟩, hunwalked⟩
    | eta heta => exact absurd (heta.symm.trans h) (by simp)
  · intro hready
    exact .walk h hready.1 (fun x hx => (hready.2.1 x hx).1) (fun x hx => (hready.2.1 x hx).2)
      hready.2.2

theorem ready_eta_iff {asFun inFun : Bool} {info : Info} {expr tpt : Tree}
    (h : isEtaMarker tpt = true) :
    Ready asFun inFun (.mk info (.typed expr tpt)) ↔
      NodeReady asFun (.mk info (.typed expr tpt)) ∧
        Ready asFun (endsInFun asFun inFun (.mk info (.typed expr tpt))) expr := by
  constructor
  · intro hready
    cases hready with
    | walk hnot => exact absurd (h.symm.trans hnot) (by simp)
    | eta _ hnode hexpr => exact ⟨hnode, hexpr⟩
  · intro hready
    exact .eta h hready.1 hready.2

section
variable {asFun inFun : Bool} {info : Info} {kind : TreeKind Tree} {s : State}

theorem walk_mk (asFun : Bool) (info : Info) (kind : TreeKind Tree) (s : State) :
    walk asFun (.mk info kind) s =
      finish asFun (hasEtaMarker kind) (.mk info (walkKind asFun kind s).1)
        (walkKind asFun kind s).2 := rfl

/-- A node that nothing is done with after the trees below it. -/
theorem outcome_plain (h : ∀ c ∈ kind.trees, Sound c) (hmode : asFun = true → inFun = true)
    (heta : hasEtaMarker kind = false)
    (hwalk : (walk asFun (.mk info kind) s).1 = .mk info (walkKind asFun kind s).1)
    (hexpr : isExpr (walkKind asFun kind s).1 = isExpr kind)
    (hshape : shapeOf (walkKind asFun kind s).1 = shapeAfter asFun (.mk info kind))
    (hflattened : Flattened (walkKind asFun kind s).1)
    (hcurried : NotCurried (walkKind asFun kind s).1) (hnode : NodeReady asFun (.mk info kind))
    (hty : TypeReady asFun inFun (.mk info kind) =
      (inFun = false → isExpr kind = true → isMethodTy info.ty = false))
    (hwalked : ∀ q, walked asFun q kind = walked asFun inFun kind) :
    Outcome asFun inFun (.mk info kind) (walk asFun (.mk info kind) s).1 := by
  rw [hwalk]
  constructor
  · rw [hty, TypeFlat, Tree.kind, hexpr]
    rfl
  · rw [ready_iff heta, FlatBelow, Tree.kind, positions_walkKind h hmode,
      hwalked (endsInFun asFun inFun (.mk info kind))]
    exact ⟨fun hbelow => ⟨hnode, hbelow.2⟩, fun hready => ⟨hcurried, hready.2⟩⟩
  · exact hshape
  · exact hflattened

/-- A reference or a type application, which becomes a function if it has a method type. -/
theorem outcome_value (h : ∀ c ∈ kind.trees, Sound c) (hmode : asFun = true → inFun = true)
    (heta : hasEtaMarker kind = false)
    (hwalk : walk asFun (.mk info kind) s =
      (if asFun then (pure : Tree → Pass Tree) else etaIfMethod)
        (.mk info (walkKind asFun kind s).1) (walkKind asFun kind s).2)
    (hshape : shapeOf (walkKind asFun kind s).1 = .other)
    (hshape' : shapeAfter asFun (.mk info kind) =
      if asFun then .other else Shape.expanded info.ty .other)
    (hcurried : NotCurried (walkKind asFun kind s).1)
    (hflattened : Flattened (walkKind asFun kind s).1)
    (hnode : NodeReady asFun (.mk info kind) = (asFun = false → SimpleMethod info.ty))
    (hty : TypeReady asFun inFun (.mk info kind))
    (hends : endsInFun asFun inFun (.mk info kind) = (inFun || isMethodTy info.ty)) :
    Outcome asFun inFun (.mk info kind) (walk asFun (.mk info kind) s).1 := by
  have hfunction : isFunction (.mk info (walkKind asFun kind s).1) = false := by
    rw [← Bool.not_eq_true, ← shapeOf_function, Tree.kind, hshape]
    simp
  have hbelow {inFun : Bool} (hmode : asFun = true → inFun = true) :
      FlatBelow inFun (walkKind asFun kind s).1 ↔ (∀ x ∈ walked asFun inFun kind, ReadyAt x) ∧
        ∀ c ∈ unwalked kind, Flat false c := by
    rw [FlatBelow, positions_walkKind h hmode]
    simp [hcurried]
  cases asFun with
  | true =>
      obtain rfl := hmode rfl
      have hout : (walk true (.mk info kind) s).1 = .mk info (walkKind true kind s).1 := by
        rw [hwalk]
        rfl
      rw [hout]
      constructor
      · simp [TypeFlat, hty]
      · rw [ready_iff heta, hnode, hends, Tree.kind, hbelow hmode]
        simp
      · rw [hshape', Tree.kind, hshape]
        rfl
      · exact hflattened
  | false =>
      rw [hwalk, if_neg Bool.false_ne_true]
      constructor
      · simp [hty, typeFlat_etaIfMethod hfunction inFun]
      · rw [ready_iff heta, hnode, hends]
        by_cases hmethod : isMethodTy info.ty = true
        · rw [flatBelow_etaIfMethod hfunction hmethod, Tree.kind, hshape, hbelow (by simp), hmethod]
          simp [Tree.ty, Tree.info]
        · have hsimple : SimpleMethod info.ty := by
            cases hty' : info.ty with
            | method => rw [hty'] at hmethod; exact absurd rfl hmethod
            | _ => trivial
          rw [etaIfMethod_of_not (.inr (by simpa [Tree.ty, Tree.info] using hmethod)), Tree.kind,
            hbelow hmode]
          simp [hsimple, hmethod]
      · rw [shapeOf_etaIfMethod, hshape', Tree.kind, hshape]
        rfl
      · exact @flattened_etaIfMethod (.mk info (walkKind false kind s).1) hflattened _

/-- An application is flattened, and then it must not have a method type. -/
theorem outcome_apply {func : Tree} {args : List Tree} (hfunc : Treated func)
    (h : ∀ c ∈ (TreeKind.apply func args).trees, Sound c) (hmode : asFun = true → inFun = true) :
    Outcome asFun inFun (.mk info (.apply func args))
      (walk asFun (.mk info (.apply func args)) s).1 := by
  obtain ⟨info', func', args', hflatten, hty, hmerges, hflat⟩ := @flattenApply_spec info
    (walk true func s).1 (walkTrees args (walk true func s).2).1
    (hfunc true true s fun _ => rfl).flattened
  have hpositions := positions_walkKind h hmode s
  rw [walkKind] at hpositions
  simp only [bind_apply, pure_apply, forall_positions_apply] at hpositions
  have hcurried : NotCurried (.apply func' args') := notCurried_of_not_merges hmerges
  have hbelow {q : Bool} : FlatBelow q (.apply func' args') ↔
      (∀ x ∈ walked asFun inFun (.apply func args), ReadyAt x) ∧
        ∀ c ∈ unwalked (.apply func args), Flat false c := by
    rw [FlatBelow, forall_positions_apply, hflat, hpositions]
    exact and_iff_right hcurried
  cases asFun with
  | true =>
      obtain rfl := hmode rfl
      have hout : (walk true (.mk info (.apply func args)) s).1 = .mk info' (.apply func' args') :=
        hflatten
      rw [hout]
      constructor
      · simp [TypeFlat, TypeReady]
      · rw [ready_iff rfl, Tree.kind, hbelow]
        simp [NodeReady, walked]
      · rfl
      · exact hmerges
  | false =>
      have hout : (walk false (.mk info (.apply func args)) s).1 =
          (etaIfMethod (.mk info' (.apply func' args'))
            (walkTrees args (walk true func s).2).2).1 := by
        rw [← hflatten]
        rfl
      rw [hout]
      constructor
      · simp [TypeReady, typeFlat_etaIfMethod (t := .mk info' (.apply func' args')) rfl]
      · rw [ready_iff rfl]
        by_cases hmethod : isMethodTy info.ty = true
        · have hmethod' : isMethodTy info'.ty = true := by rw [hty, hmethod]
          rw [@flatBelow_etaIfMethod (.mk info' (.apply func' args')) rfl hmethod']
          simp [Tree.kind, shapeOf, NodeReady, hmethod]
        · have hmethod' : isMethodTy info'.ty = false := by simpa [hty] using hmethod
          rw [@etaIfMethod_of_not (.mk info' (.apply func' args')) (.inr hmethod'), Tree.kind, hbelow]
          simp [NodeReady, hmethod, walked]
      · rw [shapeOf_etaIfMethod, shapeAfter, if_neg Bool.false_ne_true]
        exact congrArg (Shape.expanded · .application) hty
      · exact @flattened_etaIfMethod (.mk info' (.apply func' args')) hmerges _

theorem flattenDefdef_fst (info : Info) (name : String) (tparams : List Tree)
    (vparamss : List (List Tree)) (tpt rhs : Tree) (s : State) :
    ∃ info' vparamss', (flattenDefdef (.mk info (.defDef name tparams vparamss tpt rhs)) s).1 =
      .mk info' (.defDef name tparams vparamss' tpt rhs) ∧
        vparamss'.flatten = vparamss.flatten := by
  by_cases hlength : vparamss.length ≤ 1
  · refine ⟨info, vparamss, ?_, rfl⟩
    rw [flattenDefdef]
    simp [hlength]
  · refine ⟨{ info with ty := flattenTy info.ty }, [vparamss.flatten], ?_, by simp⟩
    rw [flattenDefdef]
    by_cases hsym : info.sym = noSymbol <;> simp [hlength, hsym]

/-- The parameters of a definition become one list. -/
theorem outcome_defDef {name : String} {tparams : List Tree} {vparamss : List (List Tree)}
    {tpt rhs : Tree} (h : ∀ c ∈ (TreeKind.defDef name tparams vparamss tpt rhs).trees, Sound c)
    (hmode : asFun = true → inFun = true) :
    Outcome asFun inFun (.mk info (.defDef name tparams vparamss tpt rhs))
      (walk asFun (.mk info (.defDef name tparams vparamss tpt rhs)) s).1 := by
  obtain ⟨tparams', vparamss', tpt', rhs', s', hkind⟩ : ∃ tparams' vparamss' tpt' rhs' s',
      walkKind asFun (.defDef name tparams vparamss tpt rhs) s =
        (.defDef name tparams' vparamss' tpt' rhs', s') := ⟨_, _, _, _, _, rfl⟩
  obtain ⟨info', vparamss'', hflatten, hflat⟩ :=
    flattenDefdef_fst info name tparams' vparamss' tpt' rhs' s'
  have hout : (walk asFun (.mk info (.defDef name tparams vparamss tpt rhs)) s).1 =
      .mk info' (.defDef name tparams' vparamss'' tpt' rhs') := by
    rw [walk_mk, hkind]
    exact hflatten
  have hpositions := positions_walkKind h hmode s
  rw [hkind] at hpositions
  rw [hout]
  constructor
  · simp [TypeFlat, Tree.kind, isExpr, TypeReady]
  · have htrees : positions inFun (.defDef name tparams' vparamss'' tpt' rhs') =
        positions inFun (.defDef name tparams' vparamss' tpt' rhs') := by
      simp only [positions, TreeKind.trees, hflat]
    rw [ready_iff rfl, FlatBelow, Tree.kind, htrees, hpositions]
    simp [NotCurried, NodeReady, walked]
  · rfl
  · trivial

/-- `e _` is what `e` becomes with another type, and then a function if that is a method type. -/
theorem outcome_eta {expr tpt : Tree} (heta : isEtaMarker tpt = true) (hexpr : Treated expr)
    (hmode : asFun = true → inFun = true) :
    Outcome asFun inFun (.mk info (.typed expr tpt))
      (walk asFun (.mk info (.typed expr tpt)) s).1 := by
  obtain ⟨s₁, s₂, hwalk⟩ : ∃ s₁ s₂, walk asFun (.mk info (.typed expr tpt)) s =
      etaIfMethod (.mk { (walk asFun expr s₁).1.info with ty := info.ty, sym := info.sym }
        (walk asFun expr s₁).1.kind) s₂ := by
    refine ⟨(walk false tpt s).2, (walk asFun expr (walk false tpt s).2).2, ?_⟩
    rw [walk_mk, hasEtaMarker, heta]
    rfl
  have hout := fun p hp => hexpr asFun p s₁ hp
  generalize (walk asFun expr s₁).1 = out at hwalk hout
  rw [hwalk]
  by_cases hshape : shapeAfter asFun expr = .function
  · have hfunction : isFunction (.mk { out.info with ty := info.ty, sym := info.sym } out.kind) =
        true := by
      rw [← shapeOf_function, Tree.kind, (hout inFun hmode).shape, hshape]
    have hkind : isExpr out.kind = true := by
      have hshape' := (hout inFun hmode).shape.trans hshape
      cases hcase : out.kind <;> rw [hcase] at hshape' <;> first | rfl | cases hshape'
    rw [etaIfMethod_of_not (.inl hfunction)]
    constructor
    · constructor
      · intro hflat hpos _ hmethod
        have hty : isMethodTy info.ty = false := hflat hpos hkind
        rw [hmethod] at hty
        cases hty
      · intro hready hpos _
        by_contra hmethod
        have hty : isMethodTy info.ty = true := by
          simpa [Tree.ty, Tree.info] using hmethod
        exact hready hpos heta hty hshape
    · rw [Tree.kind, (hout inFun hmode).below, ready_eta_iff heta]
      simp [NodeReady, heta, hshape, endsInFun]
    · rw [Tree.kind, (hout inFun hmode).shape, shapeAfter, if_pos heta, hshape, Shape.expanded]
      simp
    · exact (hout inFun hmode).flattened
  · have hfunction : isFunction (.mk { out.info with ty := info.ty, sym := info.sym } out.kind) =
        false := by
      rw [← Bool.not_eq_true, ← shapeOf_function, Tree.kind, (hout inFun hmode).shape]
      exact hshape
    constructor
    · simp [typeFlat_etaIfMethod hfunction, TypeReady, hshape]
    · rw [ready_eta_iff heta]
      by_cases hmethod : isMethodTy info.ty = true
      · rw [flatBelow_etaIfMethod hfunction hmethod, Tree.kind, (hout inFun hmode).shape,
          (hout true fun _ => rfl).below]
        simp [NodeReady, heta, hmethod, hshape, endsInFun, Tree.ty, Tree.info]
      · rw [etaIfMethod_of_not (.inr (by simpa [Tree.ty, Tree.info] using hmethod)), Tree.kind,
          (hout inFun hmode).below]
        simp [NodeReady, heta, hmethod, endsInFun]
    · rw [shapeOf_etaIfMethod, Tree.kind, (hout inFun hmode).shape, shapeAfter, if_pos heta]
      rfl
    · exact @flattened_etaIfMethod (.mk _ out.kind) (hout inFun hmode).flattened _

end

theorem treated (t : Tree) : Treated t := by
  induction t using Tree.induction with
  | step t ih =>
      obtain ⟨info, kind⟩ := t
      intro asFun inFun s hmode
      have h : ∀ c ∈ kind.trees, Sound c := fun c hc => (ih c hc).sound
      cases kind with
      | apply func args => exact outcome_apply (ih func List.mem_cons_self) h hmode
      | defDef name tparams vparamss tpt rhs => exact outcome_defDef h hmode
      | typed expr tpt =>
          by_cases heta : isEtaMarker tpt = true
          · exact outcome_eta heta (ih expr List.mem_cons_self) hmode
          · have heta' : isEtaMarker tpt = false := by simpa using heta
            apply outcome_value h hmode heta' _ rfl _ trivial trivial
            · simp [NodeReady, heta']
            · simp [TypeReady, heta']
            · simp [endsInFun, heta']
            · rw [walk_mk, hasEtaMarker, heta']
              cases asFun <;> rfl
            · rw [shapeAfter, if_neg heta]
      | typeApply func args | select qual name | ident name =>
          apply outcome_value h hmode rfl _ rfl rfl trivial trivial rfl trivial rfl
          cases asFun <;> rfl
      | _ =>
          apply outcome_plain h hmode rfl rfl rfl rfl trivial trivial trivial rfl fun q => rfl

/-- The pass makes a tree flat exactly when the tree is ready for it. -/
theorem flat_uncurry_iff (t : Tree) (st : SymbolTable) :
    Flat false (uncurry t st).1 ↔ TypeReady false false t ∧ Ready false false t :=
  (treated t).sound false false ⟨st, 0⟩ (by simp)

/-! ## A guard that is not walked -/

def exampleInfo (ty : Ty) : Info := { Info.dummy with ty := ty }

/-- `f(1)`, of type `(Int)Boolean` -/
def partialCall : Tree :=
  .mk (exampleInfo (.method [[.int]] .boolean))
    (.apply (.mk (exampleInfo (.method [[.int], [.int]] .boolean)) (.ident "f"))
      [.mk (exampleInfo .int) (.literal (.int 1))])

/-- `f(1)(2)` -/
def curriedCall : Tree :=
  .mk (exampleInfo .boolean) (.apply partialCall [.mk (exampleInfo .int) (.literal (.int 2))])

/-- `try () catch { case _ if f(1)(2) => () }` -/
def curriedGuard : Tree :=
  .mk (exampleInfo .unit)
    (.tryCatch (.mk (exampleInfo .unit) (.literal .unit))
      [⟨.mk (exampleInfo .any) .wildcard, curriedCall, .mk (exampleInfo .unit) (.literal .unit)⟩]
      (.dummy .empty))

theorem not_flat_curriedGuard : ¬∀ t st, Flat false (uncurry t st).1 := by
  intro hall
  have hflat : Flat false curriedGuard := hall curriedGuard ⟨[], noSymbol, 1, fun _ => none⟩
  have hguard : Flat false curriedCall := (flat_iff.1 hflat).2.2 (false, curriedCall)
    (List.mem_map.2
      ⟨curriedCall, by simp [curriedGuard, Tree.kind, TreeKind.trees, CaseDef.trees], rfl⟩)
  exact (flat_iff.1 hguard).2.1 ⟨rfl, rfl⟩

end ScalaRs.Uncurry
