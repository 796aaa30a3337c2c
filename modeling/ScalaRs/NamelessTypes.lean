import ScalaRs.SubstitutionSpecs

/-! # Types without the names of their binders

Types that differ in the names of their binders only have one nameless form. The standard
substitution is defined on it, where nothing can be captured. -/
namespace ScalaRs.SigTypes

/-- A reference: to a parameter of a binder around it, counted from the inside, or to a name. -/
inductive Var
  | bound (group index : ℕ)
  | free (x : Name)

inductive Nameless
  | mk (kind : SigKind Var Nameless)

variable {ν ρ τ σ : Type}

/-! ## Layers -/

/-- The names that a layer binds. -/
def SigKind.binders : SigKind ν τ → List Name
  | .poly tparams _ | .existential tparams _ => tparams.map (·.name)
  | _ => []

/-- How many binders there are around what is below. -/
def SigKind.deeper : SigKind ν τ → ℕ → ℕ
  | .poly _ _, d | .existential _ _, d => d + 1
  | _, d => d

def TParam.unnamed (p : TParam τ) : TParam τ := ⟨[], p.bounds, p.variance⟩

/-- The layer with other references, and without the names that it binds. -/
def SigKind.unnamed (f : ν → ρ) : SigKind ν τ → SigKind ρ τ
  | .none => .none
  | .this cls => .this cls
  | .single pre sym => .single pre sym
  | .constant c => .constant c
  | .stringConstant s => .stringConstant s
  | .ref sym args => .ref (f sym) args
  | .bounds lo hi => .bounds lo hi
  | .refined parents decls => .refined parents decls
  | .method params implicit result => .method params implicit result
  | .poly tparams result => .poly (tparams.map TParam.unnamed) result
  | .existential quantified result => .existential (quantified.map TParam.unnamed) result
  | .annotated t => .annotated t
  | .super thisTpe superTpe => .super thisTpe superTpe

theorem SigKind.map_congr {f g : τ → σ} {kind : SigKind ν τ}
    (h : ∀ c ∈ kind.children, f c = g c) : kind.map f = kind.map g := by
  have hf : kind.traverse (fun c => some (f c)) = some (kind.map f) :=
    traverse_eq fun c _ => rfl
  have hg : kind.traverse (fun c => some (f c)) = some (kind.map g) :=
    traverse_eq fun c hc => congrArg some (h c hc)
  exact Option.some.inj (hf.symm.trans hg)

theorem SigKind.map_id (kind : SigKind ν τ) : kind.map id = kind := by
  have htraverse : kind.traverse some = some (kind.map id) := traverse_eq fun c _ => rfl
  have hmember (d : Member τ) : d.map id = d := by
    simp [Member.map]
  have hmembers : Member.map (id : τ → τ) = id := funext hmember
  have hparams : Param.map (id : τ → τ) = id := funext fun p => rfl
  have htparams : TParam.map (id : τ → τ) = id := funext fun p => rfl
  cases kind <;> simp [SigKind.map, hmembers, hparams, htparams]

theorem SigKind.map_map (f : τ → σ) (g : σ → ρ) (kind : SigKind ν τ) :
    (kind.map f).map g = kind.map (g ∘ f) := by
  have hmember (d : Member τ) : (d.map f).map g = d.map (g ∘ f) := by
    simp [Member.map, Function.comp_def]
  cases kind <;>
    simp [SigKind.map, hmember, TParam.map, Param.map, Function.comp_def]

theorem SigKind.map_unnamed (f : ν → ρ) (g : τ → σ) (kind : SigKind ν τ) :
    (kind.map g).unnamed f = (kind.unnamed f).map g := by
  cases kind <;> simp [SigKind.map, SigKind.unnamed, TParam.map, TParam.unnamed, Function.comp_def]

@[simp] theorem SigKind.children_unnamed (f : ν → ρ) (kind : SigKind ν τ) :
    (kind.unnamed f).children = kind.children := by
  cases kind <;> simp [SigKind.children, SigKind.unnamed, TParam.unnamed, Function.comp_def]

@[simp] theorem SigKind.deeper_unnamed (f : ν → ρ) (kind : SigKind ν τ) (d : ℕ) :
    (kind.unnamed f).deeper d = kind.deeper d := by
  cases kind <;> rfl

@[simp] theorem SigKind.deeper_map (g : τ → σ) (kind : SigKind ν τ) (d : ℕ) :
    (kind.map g).deeper d = kind.deeper d := by
  cases kind <;> rfl

/-! ## Recursion -/

/-- What an algebra makes of a type, from the bottom. -/
noncomputable def SigType.fold (alg : SigKind Name σ → σ) : SigType → σ
  | .mk kind =>
      alg (kind.map fun c => if sizeOf c < sizeOf kind then fold alg c else alg .none)
  termination_by t => sizeOf t
  decreasing_by
    simp only [SigType.mk.sizeOf_spec]
    omega

theorem SigType.fold_mk (alg : SigKind Name σ → σ) (kind : SigKind Name SigType) :
    (SigType.mk kind).fold alg = alg (kind.map (SigType.fold alg)) := by
  rw [SigType.fold]
  exact congrArg alg (SigKind.map_congr fun c hc => if_pos (sizeOf_lt_of_mem_children hc))

noncomputable def Nameless.fold (alg : SigKind Var σ → σ) : Nameless → σ
  | .mk kind =>
      alg (kind.map fun c => if sizeOf c < sizeOf kind then fold alg c else alg .none)
  termination_by t => sizeOf t
  decreasing_by
    simp only [Nameless.mk.sizeOf_spec]
    omega

theorem Nameless.fold_mk (alg : SigKind Var σ → σ) (kind : SigKind Var Nameless) :
    (Nameless.mk kind).fold alg = alg (kind.map (Nameless.fold alg)) := by
  rw [Nameless.fold]
  exact congrArg alg (SigKind.map_congr fun c hc => if_pos (sizeOf_lt_of_mem_children hc))

theorem SigType.induct {P : SigType → Prop}
    (h : ∀ kind : SigKind Name SigType, (∀ c ∈ kind.children, P c) → P (.mk kind)) (t : SigType) :
    P t := by
  induction hn : sizeOf t using Nat.strong_induction_on generalizing t with
  | _ n ih =>
      obtain ⟨kind⟩ := t
      apply h
      intro c hc
      have hlt := sizeOf_lt_of_mem_children hc
      exact ih (sizeOf c) (by simp only [SigType.mk.sizeOf_spec] at hn; omega) c rfl

theorem Nameless.induct {P : Nameless → Prop}
    (h : ∀ kind : SigKind Var Nameless, (∀ c ∈ kind.children, P c) → P (.mk kind)) (t : Nameless) :
    P t := by
  induction hn : sizeOf t using Nat.strong_induction_on generalizing t with
  | _ n ih =>
      obtain ⟨kind⟩ := t
      apply h
      intro c hc
      have hlt := sizeOf_lt_of_mem_children hc
      exact ih (sizeOf c) (by simp only [Nameless.mk.sizeOf_spec] at hn; omega) c rfl

/-! ## The nameless form -/

attribute [local instance] lawfulNames

/-- Where a name is bound, among groups of names with the innermost first. -/
def resolve : List (List Name) → Name → Var
  | [], x => .free x
  | names :: groups, x =>
      if x ∈ names then .bound 0 (names.idxOf x)
      else
        match resolve groups x with
        | .bound i j => .bound (i + 1) j
        | .free y => .free y

/-- The groups around what is below a layer. -/
def SigKind.enter (kind : SigKind ν τ) (groups : List (List Name)) : List (List Name) :=
  if kind.deeper 0 = 0 then groups else kind.binders :: groups

def namelessLayer (kind : SigKind Name (List (List Name) → Nameless)) (groups : List (List Name)) :
    Nameless :=
  .mk ((kind.unnamed (resolve groups)).map fun c => c (kind.enter groups))

/-- The nameless form of a type below groups of names. -/
noncomputable def SigType.nameless (t : SigType) : List (List Name) → Nameless := t.fold namelessLayer

/-! ## The standard substitution -/

/-- What stands for a reference: a replacement without arguments takes over the arguments, and any
other only replaces a reference that has none. -/
def place (v : Option Nameless) (x : Var) (args : List Nameless) : Nameless :=
  match v, args with
  | some (.mk (.ref y [])), args => .mk (.ref y args)
  | some v, [] => v
  | _, args => .mk (.ref x args)

def substLayer (μ : Name → Option Nameless) : SigKind Var Nameless → Nameless
  | .ref (.free x) args => place (μ x) (.free x) args
  | kind => .mk kind

/-- Replace free names all at once. -/
noncomputable def Nameless.subst (μ : Name → Option Nameless) (t : Nameless) : Nameless := t.fold (substLayer μ)

/-- The free names. -/
def freeLayer : SigKind Var (Set Name) → Set Name
  | .ref (.free x) args => insert x {y | ∃ a ∈ args, y ∈ a}
  | kind => {y | ∃ c ∈ kind.children, y ∈ c}

noncomputable def Nameless.freeNames (t : Nameless) : Set Name := t.fold freeLayer

/-- The replacements of a map. -/
noncomputable def Subst.nameless (map : Subst) (x : Name) : Option Nameless :=
  (map.lookup x).map fun v => v.nameless []

noncomputable def SigType.freeNames (t : SigType) : Set Name := (t.nameless []).freeNames

/-! ## Equations -/

theorem nameless_mk (kind : SigKind Name SigType) (groups : List (List Name)) :
    (SigType.mk kind).nameless groups =
      .mk ((kind.unnamed (resolve groups)).map fun c => c.nameless (kind.enter groups)) := by
  rw [SigType.nameless, SigType.fold_mk, namelessLayer, SigKind.map_unnamed, SigKind.map_map]
  have henter : (kind.map (SigType.fold namelessLayer)).enter groups = kind.enter groups := by
    rw [SigKind.enter, SigKind.enter, SigKind.deeper_map]
    cases kind <;> simp [SigKind.map, SigKind.binders, TParam.map, Function.comp_def]
  rw [henter]
  rfl

/-- No reference to a free name. -/
def SigKind.NotFree (kind : SigKind Var τ) : Prop := ∀ x args, kind ≠ .ref (.free x) args

theorem notFree_bound (i j : ℕ) (args : List τ) :
    (SigKind.ref (.bound i j) args : SigKind Var τ).NotFree := by
  intro x args' h
  cases h

theorem subst_ref (μ : Name → Option Nameless) (x : Name) (args : List Nameless) :
    (Nameless.mk (.ref (.free x) args)).subst μ =
      place (μ x) (.free x) (args.map fun a => a.subst μ) := by
  rw [Nameless.subst, Nameless.fold_mk]
  rfl

theorem subst_mk {μ : Name → Option Nameless} {kind : SigKind Var Nameless} (h : kind.NotFree) :
    (Nameless.mk kind).subst μ = .mk (kind.map fun c => c.subst μ) := by
  rw [Nameless.subst, Nameless.fold_mk]
  cases kind with
  | ref y args =>
      cases y with
      | bound => rfl
      | free x => exact absurd rfl (h x args)
  | _ => rfl

theorem mem_freeNames_ref {x y : Name} {args : List Nameless} :
    y ∈ (Nameless.mk (.ref (.free x) args)).freeNames ↔
      y = x ∨ ∃ a ∈ args, y ∈ a.freeNames := by
  rw [Nameless.freeNames, Nameless.fold_mk]
  simp [SigKind.map, freeLayer, Nameless.freeNames]

theorem mem_freeNames_mk {kind : SigKind Var Nameless} (h : kind.NotFree) {y : Name} :
    y ∈ (Nameless.mk kind).freeNames ↔ ∃ c ∈ kind.children, y ∈ c.freeNames := by
  have hlayer : (Nameless.mk kind).freeNames =
      {y | ∃ c ∈ (kind.map (Nameless.fold freeLayer)).children, y ∈ c} := by
    rw [Nameless.freeNames, Nameless.fold_mk]
    cases kind with
    | ref y args =>
        cases y with
        | bound => rfl
        | free x => exact absurd rfl (h x args)
    | _ => rfl
  rw [hlayer, SigKind.children_map]
  simp [Nameless.freeNames]

/-- A layer is a reference to a free name, or it is not. -/
theorem SigKind.cases_on_free {P : SigKind Var τ → Prop}
    (free : ∀ x args, P (.ref (.free x) args)) (other : ∀ kind : SigKind Var τ, kind.NotFree → P kind)
    (kind : SigKind Var τ) : P kind := by
  by_cases h : ∃ x args, kind = .ref (.free x) args
  · obtain ⟨x, args, rfl⟩ := h
    exact free x args
  · exact other kind fun x args hkind => h ⟨x, args, hkind⟩

theorem SigKind.NotFree.map {kind : SigKind Var τ} (h : kind.NotFree) (f : τ → σ) :
    (kind.map f).NotFree := by
  intro x args hkind
  cases kind with
  | ref y args' =>
      cases hkind
      exact h x args' rfl
  | _ => cases hkind

/-! ## Names bound from outside -/

/-- What a name that is free below `d` binders stands for. -/
def lift (d : ℕ) : Var → Var
  | .bound i j => .bound (d + i) j
  | .free x => .free x

def closeLayer (groups : List (List Name)) (kind : SigKind Var (ℕ → Nameless)) (d : ℕ) : Nameless :=
  match kind with
  | .ref (.free x) args => .mk (.ref (lift d (resolve groups x)) (args.map fun a => a d))
  | kind => .mk (kind.map fun c => c (kind.deeper d))

/-- Bind the free names of a type that is below `d` binders. -/
noncomputable def Nameless.close (groups : List (List Name)) (t : Nameless) : ℕ → Nameless :=
  t.fold (closeLayer groups)

theorem close_ref (groups : List (List Name)) (x : Name) (args : List Nameless) (d : ℕ) :
    (Nameless.mk (.ref (.free x) args)).close groups d =
      .mk (.ref (lift d (resolve groups x)) (args.map fun a => a.close groups d)) := by
  rw [Nameless.close, Nameless.fold_mk]
  simp [SigKind.map, closeLayer, Function.comp_def, Nameless.close]

theorem close_mk {groups : List (List Name)} {kind : SigKind Var Nameless} (h : kind.NotFree)
    (d : ℕ) : (Nameless.mk kind).close groups d =
      .mk (kind.map fun c => c.close groups (kind.deeper d)) := by
  have hlayer : (Nameless.mk kind).close groups d =
      .mk ((kind.map (Nameless.fold (closeLayer groups))).map fun c =>
        c ((kind.map (Nameless.fold (closeLayer groups))).deeper d)) := by
    rw [Nameless.close, Nameless.fold_mk]
    cases kind with
    | ref y args =>
        cases y with
        | bound => rfl
        | free x => exact absurd rfl (h x args)
    | _ => rfl
  rw [hlayer, SigKind.map_map, SigKind.deeper_map]
  rfl

theorem resolve_append (inner outer : List (List Name)) (x : Name) :
    resolve (inner ++ outer) x =
      match resolve inner x with
      | .bound i j => .bound i j
      | .free x => lift inner.length (resolve outer x) := by
  induction inner with
  | nil =>
      rw [List.nil_append, resolve]
      cases hx : resolve outer x with
      | bound i j => simp [lift, hx]
      | free y => simp [lift, hx]
  | cons names inner ih =>
      rw [List.cons_append, resolve, resolve, ih]
      split
      · rfl
      · cases hx : resolve inner x with
        | bound i j => rfl
        | free y =>
            cases hy : resolve outer y with
            | bound i j => simp [lift, hy, Nat.add_right_comm]
            | free z => simp [lift, hy]

/-- A layer that is no reference. -/
def SigKind.NotRef (kind : SigKind ν τ) : Prop := ∀ x args, kind ≠ .ref x args

theorem SigKind.NotRef.unnamed {kind : SigKind ν τ} (h : kind.NotRef) (f g : ν → ρ) :
    kind.unnamed f = kind.unnamed g := by
  cases kind with
  | ref x args => exact absurd rfl (h x args)
  | _ => rfl

theorem SigKind.NotRef.notFree {kind : SigKind ν τ} (h : kind.NotRef) (f : ν → Var) :
    (kind.unnamed f).NotFree := by
  intro x args hkind
  cases kind with
  | ref y args' => exact h y args' rfl
  | _ => cases hkind

theorem SigKind.enter_append (kind : SigKind ν τ) (inner outer : List (List Name)) :
    kind.enter (inner ++ outer) = kind.enter inner ++ outer := by
  rw [enter, enter]
  split <;> rfl

theorem SigKind.length_enter (kind : SigKind ν τ) (groups : List (List Name)) :
    (kind.enter groups).length = kind.deeper groups.length := by
  cases kind <;> rfl

theorem enter_ref (x : ν) (args : List τ) (groups : List (List Name)) :
    (SigKind.ref x args : SigKind ν τ).enter groups = groups := rfl

theorem nameless_ref (x : Name) (args : List SigType) (groups : List (List Name)) :
    (SigType.ref x args).nameless groups =
      .mk (.ref (resolve groups x) (args.map fun a => a.nameless groups)) := by
  rw [SigType.ref, nameless_mk]
  rfl

/-- The nameless form below outer groups is that without them, with its free names bound. -/
theorem nameless_append (t : SigType) (inner outer : List (List Name)) :
    t.nameless (inner ++ outer) = (t.nameless inner).close outer inner.length := by
  induction t using SigType.induct generalizing inner with
  | h kind ih =>
      by_cases hkind : kind.NotRef
      · rw [nameless_mk, nameless_mk, close_mk ((hkind.notFree _).map _), SigKind.map_map,
          SigKind.deeper_map, SigKind.deeper_unnamed, hkind.unnamed _ (resolve inner),
          SigKind.enter_append, ← SigKind.length_enter]
        congr 1
        apply SigKind.map_congr
        intro c hc
        rw [SigKind.children_unnamed] at hc
        exact ih c hc (kind.enter inner)
      · simp only [SigKind.NotRef, not_forall, not_not] at hkind
        obtain ⟨x, args, rfl⟩ := hkind
        have hargs : (args.map fun a => a.nameless (inner ++ outer)) =
            (args.map fun a => a.nameless inner).map fun a => a.close outer inner.length := by
          rw [List.map_map]
          exact List.map_congr_left fun a ha => ih a ha inner
        have hleft := nameless_ref x args (inner ++ outer)
        have hright := nameless_ref x args inner
        rw [SigType.ref] at hleft hright
        rw [hleft, hright, resolve_append, hargs]
        cases hx : resolve inner x with
        | bound i j =>
            rw [close_mk (notFree_bound i j _)]
            rfl
        | free y =>
            rw [close_ref]

/-! ## Free names -/

theorem lift_free (d : ℕ) (names : List Name) {x : Name} (hx : x ∉ names) :
    lift d (resolve [names] x) = .free x := by
  rw [resolve, if_neg hx]
  rfl

theorem lift_bound (d : ℕ) {names : List Name} {x : Name} (hx : x ∈ names) :
    lift d (resolve [names] x) = .bound d (names.idxOf x) := by
  rw [resolve, if_pos hx]
  rfl

theorem mem_freeNames_close {names : List Name} {t : Nameless} {d : ℕ} {y : Name} :
    y ∈ (t.close [names] d).freeNames ↔ y ∈ t.freeNames ∧ y ∉ names := by
  induction t using Nameless.induct generalizing d with
  | h kind ih =>
      induction kind using SigKind.cases_on_free with
      | free x args =>
          rw [close_ref, mem_freeNames_ref]
          have hargs : (∃ a ∈ args.map fun a => a.close [names] d, y ∈ a.freeNames) ↔
              (∃ a ∈ args, y ∈ a.freeNames) ∧ y ∉ names := by
            simp only [List.mem_map, exists_exists_and_eq_and]
            constructor
            · intro h
              obtain ⟨a, ha, hy⟩ := h
              exact ⟨⟨a, ha, ((ih a ha).1 hy).1⟩, ((ih a ha).1 hy).2⟩
            · intro h
              obtain ⟨⟨a, ha, hy⟩, hnames⟩ := h
              exact ⟨a, ha, (ih a ha).2 ⟨hy, hnames⟩⟩
          by_cases hx : x ∈ names
          · rw [lift_bound d hx, mem_freeNames_mk (notFree_bound _ _ _), SigKind.children, hargs]
            constructor
            · intro h
              exact ⟨.inr h.1, h.2⟩
            · intro h
              rcases h.1 with rfl | hy
              · exact absurd hx h.2
              · exact ⟨hy, h.2⟩
          · rw [lift_free d names hx, mem_freeNames_ref, hargs]
            constructor
            · intro h
              rcases h with rfl | h
              · exact ⟨.inl rfl, hx⟩
              · exact ⟨.inr h.1, h.2⟩
            · intro h
              exact h.1.imp_right fun hy => ⟨hy, h.2⟩
      | other kind hkind =>
          rw [close_mk hkind, mem_freeNames_mk (hkind.map _), mem_freeNames_mk hkind,
            SigKind.children_map]
          simp only [List.mem_map, exists_exists_and_eq_and]
          constructor
          · intro h
            obtain ⟨c, hc, hy⟩ := h
            exact ⟨⟨c, hc, ((ih c hc).1 hy).1⟩, ((ih c hc).1 hy).2⟩
          · intro h
            obtain ⟨⟨c, hc, hy⟩, hnames⟩ := h
            exact ⟨c, hc, (ih c hc).2 ⟨hy, hnames⟩⟩

theorem mem_freeNames_ref_type {x y : Name} {args : List SigType} :
    y ∈ (SigType.ref x args).freeNames ↔ y = x ∨ ∃ a ∈ args, y ∈ a.freeNames := by
  rw [SigType.freeNames, nameless_ref, resolve, mem_freeNames_ref]
  simp [SigType.freeNames]

/-- What is free in a type is free below it and not bound by it. -/
theorem mem_freeNames_type {kind : SigKind Name SigType} (hkind : kind.NotRef) {y : Name} :
    y ∈ (SigType.mk kind).freeNames ↔
      y ∉ kind.binders ∧ ∃ c ∈ kind.children, y ∈ c.freeNames := by
  have hchild (c : SigType) : y ∈ (c.nameless (kind.enter [])).freeNames ↔
      y ∉ kind.binders ∧ y ∈ c.freeNames := by
    have happend := nameless_append c [] [kind.binders]
    rw [List.nil_append] at happend
    rw [SigKind.enter]
    split
    · next hdeeper =>
      have hnil : kind.binders = [] := by
        cases kind <;> first | rfl | exact absurd hdeeper (Nat.succ_ne_zero 0)
      simp [hnil, SigType.freeNames]
    · rw [happend, mem_freeNames_close, and_comm, SigType.freeNames]
  rw [SigType.freeNames, nameless_mk, mem_freeNames_mk ((hkind.notFree _).map _),
    SigKind.children_map, SigKind.children_unnamed]
  simp only [List.mem_map, exists_exists_and_eq_and, hchild]
  constructor
  · intro h
    obtain ⟨c, hc, hy, hyc⟩ := h
    exact ⟨hy, c, hc, hyc⟩
  · intro h
    obtain ⟨hy, c, hc, hyc⟩ := h
    exact ⟨c, hc, hy, hyc⟩

/-- Without free names among those that are bound nothing changes. -/
theorem close_eq_self {names : List Name} {t : Nameless} {d : ℕ}
    (h : ∀ x ∈ t.freeNames, x ∉ names) : t.close [names] d = t := by
  induction t using Nameless.induct generalizing d with
  | h kind ih =>
      induction kind using SigKind.cases_on_free with
      | free x args =>
          have hargs : args.map (fun a => a.close [names] d) = args.map id :=
            List.map_congr_left fun a ha => ih a ha fun y hy =>
              h y (mem_freeNames_ref.2 (.inr ⟨a, ha, hy⟩))
          rw [close_ref, lift_free d names (h x (mem_freeNames_ref.2 (.inl rfl))), hargs, List.map_id]
      | other kind hkind =>
          have hmap : kind.map (fun c => c.close [names] (kind.deeper d)) = kind.map id :=
            SigKind.map_congr fun c hc => ih c hc fun y hy =>
              h y ((mem_freeNames_mk hkind).2 ⟨c, hc, hy⟩)
          rw [close_mk hkind, hmap, SigKind.map_id]

theorem place_none (x : Var) (args : List Nameless) : place none x args = .mk (.ref x args) := by
  cases args <;> rfl

theorem place_name (y x : Var) (args : List Nameless) :
    place (some (.mk (.ref y []))) x args = .mk (.ref y args) := by
  cases args <;> rfl

theorem place_of_not_name {w : Nameless} (hw : ∀ y, w ≠ .mk (.ref y [])) (x : Var)
    (args : List Nameless) :
    place (some w) x args = if args.isEmpty then w else .mk (.ref x args) := by
  cases args with
  | nil =>
      rw [place]
      · rfl
      · exact hw
  | cons a args =>
      rw [place]
      · rfl
      · intro y hy
        exact hw y (Option.some.inj hy)
      · intro u hu has
        cases has

/-- The replacement for a reference, or what it is there for, is bound like its arguments. -/
theorem close_place {names : List Name} {v : Option Nameless} {x : Name} {args : List Nameless}
    (hx : x ∉ names) (hv : ∀ w, v = some w → ∀ y ∈ w.freeNames, y ∉ names) (d : ℕ) :
    (place v (.free x) args).close [names] d =
      place v (.free x) (args.map fun a => a.close [names] d) := by
  have hleft : (Nameless.mk (.ref (.free x) args)).close [names] d =
      .mk (.ref (.free x) (args.map fun a => a.close [names] d)) := by
    rw [close_ref, lift_free d names hx]
  cases v with
  | none => rw [place_none, place_none, hleft]
  | some w =>
      by_cases hw : ∃ y, w = .mk (.ref y [])
      · obtain ⟨y, rfl⟩ := hw
        rw [place_name, place_name]
        cases y with
        | bound i j =>
            rw [close_mk (notFree_bound i j _)]
            rfl
        | free z =>
            rw [close_ref, lift_free d names (hv _ rfl z (mem_freeNames_ref.2 (.inl rfl)))]
      · have hname : ∀ y, w ≠ .mk (.ref y []) := fun y hy => hw ⟨y, hy⟩
        rw [place_of_not_name hname, place_of_not_name hname]
        cases args with
        | nil => exact close_eq_self (hv w rfl)
        | cons a args => exact hleft

/-! ## Renamings -/

/-- What a name becomes when only names stand for names. -/
def RenamesTo (ρ : Name → Option Nameless) (x y : Name) : Prop :=
  ρ x = none ∧ y = x ∨ ρ x = some (.mk (.ref (.free y) []))

theorem subst_renamed {ρ : Name → Option Nameless} {x y : Name} (h : RenamesTo ρ x y)
    (args : List Nameless) : (Nameless.mk (.ref (.free x) args)).subst ρ =
      .mk (.ref (.free y) (args.map fun a => a.subst ρ)) := by
  rw [subst_ref]
  rcases h with ⟨hx, rfl⟩ | hx
  · rw [hx, place_none]
  · rw [hx, place_name]

theorem subst_none (t : Nameless) : (t.subst fun _ => none) = t := by
  induction t using Nameless.induct with
  | h kind ih =>
      induction kind using SigKind.cases_on_free with
      | free x args =>
          have hargs : args.map (fun a => a.subst fun _ => none) = args.map id :=
            List.map_congr_left ih
          rw [subst_ref, place_none, hargs, List.map_id]
      | other kind hkind =>
          rw [subst_mk hkind, SigKind.map_congr ih]
          exact congrArg Nameless.mk (SigKind.map_id kind)

/-- The free names of a renamed type are the new names of its free names. -/
theorem mem_freeNames_renamed {ρ : Name → Option Nameless} (hρ : ∀ x, ∃ y, RenamesTo ρ x y)
    {t : Nameless} {y : Name} :
    y ∈ (t.subst ρ).freeNames ↔ ∃ x ∈ t.freeNames, RenamesTo ρ x y := by
  induction t using Nameless.induct with
  | h kind ih =>
      induction kind using SigKind.cases_on_free with
      | free x args =>
          obtain ⟨z, hz⟩ := hρ x
          have huniq : RenamesTo ρ x y ↔ y = z := by
            constructor
            · intro h
              rcases h with ⟨hx, rfl⟩ | hx <;> rcases hz with ⟨hx', rfl⟩ | hx' <;> simp_all
            · intro h
              exact h ▸ hz
          rw [subst_renamed hz, mem_freeNames_ref]
          constructor
          · intro h
            rcases h with rfl | ⟨a', ha', hy⟩
            · exact ⟨x, mem_freeNames_ref.2 (.inl rfl), hz⟩
            · obtain ⟨a, ha, rfl⟩ := List.mem_map.1 ha'
              obtain ⟨w, hw, hwy⟩ := (ih a ha).1 hy
              exact ⟨w, mem_freeNames_ref.2 (.inr ⟨a, ha, hw⟩), hwy⟩
          · intro h
            obtain ⟨w, hw, hwy⟩ := h
            rcases mem_freeNames_ref.1 hw with rfl | ⟨a, ha, hw⟩
            · exact .inl (huniq.1 hwy)
            · exact .inr ⟨_, List.mem_map.2 ⟨a, ha, rfl⟩, (ih a ha).2 ⟨w, hw, hwy⟩⟩
      | other kind hkind =>
          rw [subst_mk hkind, mem_freeNames_mk (hkind.map _), SigKind.children_map]
          constructor
          · intro h
            obtain ⟨c', hc', hy⟩ := h
            obtain ⟨c, hc, rfl⟩ := List.mem_map.1 hc'
            obtain ⟨w, hw, hwy⟩ := (ih c hc).1 hy
            exact ⟨w, (mem_freeNames_mk hkind).2 ⟨c, hc, hw⟩, hwy⟩
          · intro h
            obtain ⟨w, hw, hwy⟩ := h
            obtain ⟨c, hc, hw⟩ := (mem_freeNames_mk hkind).1 hw
            exact ⟨_, List.mem_map.2 ⟨c, hc, rfl⟩, (ih c hc).2 ⟨w, hw, hwy⟩⟩

/-- A name is bound before the substitution where it is bound after it, or it is free and nothing
that replaces it is bound. -/
def Agrees (names names' : List Name) (ρ ι μ : Name → Option Nameless) (x : Name) : Prop :=
  (x ∈ names ∧ ∃ y, RenamesTo ρ x y ∧ ι y = none ∧ y ∈ names' ∧
      names'.idxOf y = names.idxOf x) ∨
    (x ∉ names ∧ RenamesTo ρ x x ∧ x ∉ names' ∧ ι x = μ x ∧
      ∀ v, μ x = some v → ∀ y ∈ v.freeNames, y ∉ names')

/-- To rename what is bound, to substitute and to bind it again is to substitute below it. -/
theorem close_subst {names names' : List Name} {ρ ι μ : Name → Option Nameless} {t : Nameless}
    {d : ℕ} (h : ∀ x ∈ t.freeNames, Agrees names names' ρ ι μ x) :
    ((t.subst ρ).subst ι).close [names'] d = (t.close [names] d).subst μ := by
  induction t using Nameless.induct generalizing d with
  | h kind ih =>
      induction kind using SigKind.cases_on_free with
      | free x args =>
          have hargs : ((args.map fun a => a.subst ρ).map fun a => a.subst ι).map
                (fun a => a.close [names'] d) =
              (args.map fun a => a.close [names] d).map fun a => a.subst μ := by
            simp only [List.map_map]
            exact List.map_congr_left fun a ha => ih a ha fun y hy =>
              h y (mem_freeNames_ref.2 (.inr ⟨a, ha, hy⟩))
          rcases h x (mem_freeNames_ref.2 (.inl rfl)) with
            ⟨hx, y, hxy, hy, hy', hidx⟩ | ⟨hx, hxx, hx', hι, hμ⟩
          · rw [subst_renamed hxy, subst_ref, hy, place_none, close_ref, lift_bound d hy', close_ref,
              lift_bound d hx, subst_mk (notFree_bound _ _ _), hidx, hargs]
            rfl
          · rw [subst_renamed hxx, subst_ref, hι, close_place hx' hμ, close_ref,
              lift_free d names hx, subst_ref, hargs]
      | other kind hkind =>
          rw [subst_mk hkind, subst_mk (hkind.map _), close_mk ((hkind.map _).map _), close_mk hkind,
            subst_mk (hkind.map _), SigKind.deeper_map, SigKind.deeper_map, SigKind.map_map,
            SigKind.map_map, SigKind.map_map]
          apply congrArg Nameless.mk
          apply SigKind.map_congr
          intro c hc
          exact ih c hc fun y hy => h y ((mem_freeNames_mk hkind).2 ⟨c, hc, hy⟩)

end ScalaRs.SigTypes
