import ScalaRs.TyperTypes

/-! # Normal forms of types

The direct parts of a type and the parameters it mentions. Types are compared by
their normal forms, in which every application that a constructor can take in is
carried out. -/
namespace ScalaRs.Unification

/-! ## Mapping the direct parts -/

def RefineDecl.mapTypes (f : Ty → Ty) : RefineDecl → RefineDecl
  | .type name rhs tparams lo hi => .type name (rhs.map f) tparams (lo.map f) (hi.map f)
  | .method name tparams paramss ret => .method name tparams (paramss.map (List.map f)) (f ret)
  | .val name ty => .val name (f ty)

def Ty.mapKids (f : Ty → Ty) : Ty → Ty
  | .array t => .array (f t)
  | .byName t => .byName (f t)
  | .repeated t => .repeated (f t)
  | .annotated t annot => .annotated (f t) annot
  | .singleType t sym => .singleType (f t) sym
  | .tuple ts => .tuple (ts.map f)
  | .overload ts => .overload (ts.map f)
  | .named name ts => .named name (ts.map f)
  | .cls sym ts => .cls sym (ts.map f)
  | .function ps r => .function (ps.map f) (f r)
  | .method pss r => .method (pss.map (List.map f)) (f r)
  | .applied c as => .applied (f c) (as.map f)
  | .boundedWildcard lo hi => .boundedWildcard (lo.map f) (hi.map f)
  | .existential ps b => .existential (ps.map fun p => (p.1, f p.2)) (f b)
  | .refined ps ds => .refined (ps.map f) (ds.map (RefineDecl.mapTypes f))
  | other => other

section
-- Derives the equations of these definitions in front of the proofs that use them.
attribute [local simp] RefineDecl.types Ty.kids RefineDecl.mapTypes Ty.mapKids
end

@[simp] theorem RefineDecl.types_mapTypes (f : Ty → Ty) (d : RefineDecl) :
    (d.mapTypes f).types = d.types.map f := by
  cases d with
  | type name rhs tparams lo hi => cases rhs <;> cases lo <;> cases hi <;> simp [types, mapTypes]
  | method name tparams pss ret => simp [types, mapTypes, List.map_flatten]
  | val name ty => simp [types, mapTypes]

@[simp] theorem Ty.kids_mapKids (f : Ty → Ty) (t : Ty) : (t.mapKids f).kids = t.kids.map f := by
  cases t with
  | boundedWildcard lo hi => cases lo <;> cases hi <;> simp [kids, mapKids]
  | method pss r => simp [kids, mapKids, List.map_flatten]
  | refined ps ds => simp [kids, mapKids, List.flatMap_map, List.map_flatMap]
  | existential ps b => simp [kids, mapKids]
  | _ => simp [kids, mapKids]

theorem RefineDecl.mapTypes_congr {f g : Ty → Ty} {d : RefineDecl}
    (h : ∀ k ∈ d.types, f k = g k) : d.mapTypes f = d.mapTypes g := by
  cases d with
  | type name rhs tparams lo hi =>
    cases rhs <;> cases lo <;> cases hi <;> simp_all [types, mapTypes]
  | method name tparams pss ret =>
    have hp : ∀ ps ∈ pss, ps.map f = ps.map g := by
      intro ps hps
      apply List.map_congr_left
      intro k hk
      apply h
      simp only [types, List.mem_append, List.mem_flatten]
      exact Or.inl ⟨ps, hps, hk⟩
    have hr : f ret = g ret := h ret (by simp [types])
    simp only [mapTypes, hr, List.map_congr_left hp]
  | val name ty => simp_all [types, mapTypes]

theorem Ty.mapKids_congr {f g : Ty → Ty} {t : Ty} (h : ∀ k ∈ t.kids, f k = g k) :
    t.mapKids f = t.mapKids g := by
  cases t with
  | boundedWildcard lo hi => cases lo <;> cases hi <;> simp_all [kids, mapKids]
  | method pss r =>
    have hp : ∀ ps ∈ pss, ps.map f = ps.map g := by
      intro ps hps
      apply List.map_congr_left
      intro k hk
      apply h
      simp only [kids, List.mem_append, List.mem_flatten]
      exact Or.inl ⟨ps, hps, hk⟩
    have hr : f r = g r := h r (by simp [kids])
    simp only [mapKids, hr, List.map_congr_left hp]
  | existential ps b =>
    have hb : f b = g b := h b (by simp [kids])
    have hp : ∀ p ∈ ps, (p.1, f p.2) = (p.1, g p.2) := by
      intro p hp
      rw [h p.2 (by simp only [kids, List.mem_append, List.mem_map]; exact Or.inl ⟨p, hp, rfl⟩)]
    simp only [mapKids, hb, List.map_congr_left hp]
  | refined ps ds =>
    have hp : ∀ p ∈ ps, f p = g p := fun p hp => h p (by simp [kids, hp])
    have hd : ∀ d ∈ ds, d.mapTypes f = d.mapTypes g := by
      intro d hd
      apply RefineDecl.mapTypes_congr
      intro k hk
      apply h
      simp only [kids, List.mem_append, List.mem_flatMap]
      exact Or.inr ⟨d, hd, hk⟩
    simp only [mapKids, List.map_congr_left hp, List.map_congr_left hd]
  | _ => simp_all [kids, mapKids]

theorem RefineDecl.mapTypes_id (d : RefineDecl) : d.mapTypes id = d := by
  cases d <;> simp [mapTypes]

theorem Ty.mapKids_id (t : Ty) : t.mapKids id = t := by
  have hd : ∀ ds : List RefineDecl, ds.map (RefineDecl.mapTypes id) = ds := by
    intro ds
    rw [funext RefineDecl.mapTypes_id]
    exact List.map_id' ds
  cases t <;> simp [mapKids, hd]

theorem Ty.mapKids_eq_self {f : Ty → Ty} {t : Ty} (h : ∀ k ∈ t.kids, f k = k) :
    t.mapKids f = t := by
  rw [Ty.mapKids_congr (g := id) h, Ty.mapKids_id]

theorem Ty.mapKids_mapKids (f g : Ty → Ty) (t : Ty) :
    (t.mapKids f).mapKids g = t.mapKids (g ∘ f) := by
  have hd : RefineDecl.mapTypes g ∘ RefineDecl.mapTypes f = RefineDecl.mapTypes (g ∘ f) := by
    funext d
    cases d <;> simp [RefineDecl.mapTypes]
  cases t <;> simp [mapKids, hd]

theorem Ty.eq_of_mapKids_eq {f g : Ty → Ty} {t : Ty} (h : t.mapKids f = t.mapKids g) :
    ∀ k ∈ t.kids, f k = g k := by
  have hk : t.kids.map f = t.kids.map g := by rw [← kids_mapKids, h, kids_mapKids]
  exact List.map_inj_left.mp hk

/-! ## Application of a constructor -/

/-- A constructor that an application stays on. -/
def Stuck : Ty → Prop
  | .cls _ _ => False
  | .named _ _ => False
  | .applied _ _ => False
  | .annotated _ _ => False
  | .refined [.cls _ _] decls => asSeenFromViewDecls decls = false
  | _ => True

section
attribute [local simp] Stuck applyTypeCtor
end

/-- Induction along the constructors an application passes through. -/
theorem Ty.ctor_induction {P : Ty → Prop} (cls : ∀ sym existing, P (.cls sym existing))
    (named : ∀ name existing, P (.named name existing))
    (applied : ∀ ctor existing, P ctor → P (.applied ctor existing))
    (annotated : ∀ tpe annot, P tpe → P (.annotated tpe annot))
    (view : ∀ sym existing decls, asSeenFromViewDecls decls = true →
      P (.refined [.cls sym existing] decls))
    (stuck : ∀ ctor, Stuck ctor → P ctor) (ctor : Ty) : P ctor := by
  induction ctor using Ty.kids_induction with
  | step t ih =>
    cases t with
    | cls sym existing => exact cls sym existing
    | named name existing => exact named name existing
    | applied ctor existing => exact applied ctor existing (ih ctor (by simp [kids]))
    | annotated tpe annot => exact annotated tpe annot (ih tpe (by simp [kids]))
    | refined parents decls =>
      rcases parents with _ | ⟨p, _ | ⟨q, qs⟩⟩
      · exact stuck _ trivial
      · cases p with
        | cls sym existing =>
          cases hv : asSeenFromViewDecls decls with
          | true => exact view sym existing decls hv
          | false => exact stuck _ hv
        | _ => exact stuck _ trivial
      · exact stuck _ (by simp [Stuck])
    | _ => exact stuck _ trivial

@[simp] theorem applyTypeCtor_nil (c : Ty) : applyTypeCtor c [] = c := by
  unfold applyTypeCtor
  simp

@[simp] theorem applyTypeCtor_cls (sym : SymbolId) (existing args : List Ty) :
    applyTypeCtor (.cls sym existing) args = .cls sym (existing ++ args) := by
  cases args <;> simp [applyTypeCtor]

@[simp] theorem applyTypeCtor_named (name : String) (existing args : List Ty) :
    applyTypeCtor (.named name existing) args = .named name (existing ++ args) := by
  cases args <;> simp [applyTypeCtor]

@[simp] theorem applyTypeCtor_annotated (tpe : Ty) (annot : String) (args : List Ty) :
    applyTypeCtor (.annotated tpe annot) args = .annotated (applyTypeCtor tpe args) annot := by
  cases args <;> simp [applyTypeCtor]

theorem applyTypeCtor_applied (ctor : Ty) (existing : List Ty) {args : List Ty} (h : args ≠ []) :
    applyTypeCtor (.applied ctor existing) args = applyTypeCtor ctor (existing ++ args) := by
  rw [applyTypeCtor]
  simp [h]

theorem applyTypeCtor_view (sym : SymbolId) (existing args : List Ty) {decls : List RefineDecl}
    (h : asSeenFromViewDecls decls = true) :
    applyTypeCtor (.refined [.cls sym existing] decls) args =
      .refined [.cls sym (existing ++ args)] decls := by
  cases args <;> simp [applyTypeCtor, h]

theorem applyTypeCtor_stuck {ctor : Ty} (hc : Stuck ctor) {args : List Ty} (h : args ≠ []) :
    applyTypeCtor ctor args = .applied ctor args := by
  unfold applyTypeCtor
  rw [if_neg (by simpa using h)]
  split
  all_goals simp_all [Stuck]

theorem applyTypeCtor_append (c : Ty) (xs ys : List Ty) :
    applyTypeCtor (applyTypeCtor c xs) ys = applyTypeCtor c (xs ++ ys) := by
  by_cases hx : xs = []
  · simp [hx]
  by_cases hy : ys = []
  · simp [hy]
  have hxy : xs ++ ys ≠ [] := by simp [hx]
  induction c using Ty.ctor_induction generalizing xs with
  | cls sym existing => simp
  | named name existing => simp
  | applied ctor existing ih =>
    rw [applyTypeCtor_applied _ _ hx, applyTypeCtor_applied _ _ hxy, ← List.append_assoc]
    apply ih <;> simp [hx]
  | annotated tpe annot ih => simp [ih xs hx hxy]
  | view sym existing decls h => simp [applyTypeCtor_view _ _ _ h]
  | stuck ctor h =>
    rw [applyTypeCtor_stuck h hx, applyTypeCtor_stuck h hxy, applyTypeCtor_applied _ _ hy,
      applyTypeCtor_stuck h hxy]

/-! ## Free parameters -/

/-- The parameters a type quantifies over the types directly below it. -/
def Ty.binders : Ty → List SymbolId
  | .existential ps _ => ps.map Prod.fst
  | _ => []

/-- The type mentions the parameter, at any depth and below any constructor. -/
inductive Free (id : SymbolId) : Ty → Prop
  | here : Free id (.typeParam id)
  | inside {t k : Ty} (hk : k ∈ t.kids) (hb : id ∉ t.binders) (h : Free id k) : Free id t

/-- The type mentions the parameter below an overloaded alternative. -/
inductive Overloaded (id : SymbolId) : Ty → Prop
  | alternative {ts : List Ty} {t : Ty} (ht : t ∈ ts) (h : Free id t) : Overloaded id (.overload ts)
  | inside {t k : Ty} (hk : k ∈ t.kids) (hb : id ∉ t.binders) (h : Overloaded id k) :
      Overloaded id t

theorem Overloaded.free {id : SymbolId} {t : Ty} (h : Overloaded id t) : Free id t := by
  induction h with
  | alternative ht h => exact .inside ht (by simp [Ty.binders]) h
  | inside hk hb _ ih => exact .inside hk hb ih

@[simp] theorem free_typeParam {id p : SymbolId} : Free id (.typeParam p) ↔ id = p := by
  constructor
  · intro h
    cases h with
    | here => rfl
    | inside hk => simp [Ty.kids] at hk
  · rintro rfl
    exact .here

theorem Ty.shape (t : Ty) : (∃ id, t = .typeParam id) ∨ (∃ ts, t = .overload ts) ∨
    (∀ id, t ≠ .typeParam id) ∧ ∀ ts, t ≠ .overload ts := by
  cases t <;> simp

theorem Ty.applied_or (t : Ty) : (∃ c as, t = .applied c as) ∨ ∀ c as, t ≠ .applied c as := by
  cases t <;> simp

theorem mapKids_ne_typeParam {f : Ty → Ty} {t : Ty} (h : ∀ id, t ≠ .typeParam id) :
    ∀ id, t.mapKids f ≠ .typeParam id := by
  cases t <;> simp_all [Ty.mapKids]

theorem free_iff_of_ne {id : SymbolId} {t : Ty} (h : ∀ p, t ≠ .typeParam p) :
    Free id t ↔ id ∉ t.binders ∧ ∃ k ∈ t.kids, Free id k := by
  constructor
  · intro hf
    cases hf with
    | here => exact absurd rfl (h id)
    | inside hk hb hf => exact ⟨hb, _, hk, hf⟩
  · rintro ⟨hb, k, hk, hf⟩
    exact .inside hk hb hf

@[simp] theorem binders_mapKids (f : Ty → Ty) (t : Ty) : (t.mapKids f).binders = t.binders := by
  cases t with
  | existential ps b => simp [Ty.mapKids, Ty.binders]
  | _ => rfl

theorem free_applied {id : SymbolId} {c : Ty} {as : List Ty} :
    Free id (.applied c as) ↔ Free id c ∨ ∃ a ∈ as, Free id a := by
  rw [free_iff_of_ne (by simp)]
  simp [Ty.kids, Ty.binders]

theorem free_applyTypeCtor {id : SymbolId} (c : Ty) (as : List Ty) :
    Free id (applyTypeCtor c as) ↔ Free id c ∨ ∃ a ∈ as, Free id a := by
  by_cases h : as = []
  · simp [h]
  induction c using Ty.ctor_induction generalizing as with
  | cls sym existing =>
    rw [applyTypeCtor_cls, free_iff_of_ne (by simp), free_iff_of_ne (by simp)]
    simp [Ty.kids, Ty.binders, or_and_right, exists_or]
  | named name existing =>
    rw [applyTypeCtor_named, free_iff_of_ne (by simp), free_iff_of_ne (by simp)]
    simp [Ty.kids, Ty.binders, or_and_right, exists_or]
  | applied ctor existing ih =>
    rw [applyTypeCtor_applied _ _ h, ih _ (by simp [h]), free_applied]
    simp [or_and_right, exists_or, or_assoc]
  | annotated tpe annot ih =>
    rw [applyTypeCtor_annotated, free_iff_of_ne (by simp), free_iff_of_ne (by simp)]
    simp [Ty.kids, Ty.binders, ih as h]
  | view sym existing decls hv =>
    rw [applyTypeCtor_view _ _ _ hv, free_iff_of_ne (by simp), free_iff_of_ne (by simp)]
    simp only [Ty.kids, Ty.binders, List.not_mem_nil, not_false_eq_true, true_and,
      List.mem_append, List.mem_singleton, or_and_right, exists_or, exists_eq_left]
    rw [free_iff_of_ne (by simp), free_iff_of_ne (by simp)]
    simp only [Ty.kids, Ty.binders, List.not_mem_nil, not_false_eq_true, true_and,
      List.mem_append, or_and_right, exists_or]
    exact or_right_comm
  | stuck ctor hs => rw [applyTypeCtor_stuck hs h, free_applied]

/-! ## Normal forms -/

open Classical in
/-- The type with every application carried out that can be. -/
noncomputable def Ty.normal (t : Ty) : Ty :=
  match t with
  | .applied c as => applyTypeCtor c.normal (as.map Ty.normal)
  | t => t.mapKids fun k => if _ : k ∈ t.kids then k.normal else k
termination_by sizeOf t
decreasing_by
  · exact Ty.sizeOf_kid_lt (by simp [Ty.kids])
  · exact Ty.sizeOf_kid_lt (by simp [Ty.kids, *])
  · exact Ty.sizeOf_kid_lt ‹_›

@[simp] theorem normal_applied (c : Ty) (as : List Ty) :
    (Ty.applied c as).normal = applyTypeCtor c.normal (as.map Ty.normal) := by
  rw [Ty.normal]

theorem normal_of_ne {t : Ty} (h : ∀ c as, t ≠ .applied c as) : t.normal = t.mapKids Ty.normal := by
  rw [Ty.normal]
  · apply Ty.mapKids_congr
    intro k hk
    simp [hk]
  · exact h

theorem mapKids_ne_applied {f : Ty → Ty} {t : Ty} (h : ∀ c as, t ≠ .applied c as) :
    ∀ c as, t.mapKids f ≠ .applied c as := by
  cases t <;> simp_all [Ty.mapKids]

theorem normal_cls (sym : SymbolId) (as : List Ty) :
    (Ty.cls sym as).normal = .cls sym (as.map Ty.normal) := by
  rw [normal_of_ne (by simp), Ty.mapKids]

theorem normal_named (name : String) (as : List Ty) :
    (Ty.named name as).normal = .named name (as.map Ty.normal) := by
  rw [normal_of_ne (by simp), Ty.mapKids]

theorem normal_annotated (tpe : Ty) (annot : String) :
    (Ty.annotated tpe annot).normal = .annotated tpe.normal annot := by
  rw [normal_of_ne (by simp), Ty.mapKids]

theorem normal_overload (ts : List Ty) :
    (Ty.overload ts).normal = .overload (ts.map Ty.normal) := by
  rw [normal_of_ne (by simp), Ty.mapKids]

theorem normal_view (sym : SymbolId) (as : List Ty) (decls : List RefineDecl) :
    (Ty.refined [.cls sym as] decls).normal =
      .refined [.cls sym (as.map Ty.normal)] (decls.map (RefineDecl.mapTypes Ty.normal)) := by
  rw [normal_of_ne (by simp), Ty.mapKids, List.map_singleton, normal_cls]

theorem free_normal {id : SymbolId} (t : Ty) : Free id t.normal ↔ Free id t := by
  induction t using Ty.kids_induction with
  | step t ih =>
    rcases t.applied_or with ⟨c, as, rfl⟩ | hne
    · rw [normal_applied, free_applyTypeCtor, free_applied, ih c (by simp [Ty.kids])]
      have has : ∀ a ∈ as, Free id a.normal ↔ Free id a := fun a ha => ih a (by simp [Ty.kids, ha])
      grind
    · rw [normal_of_ne hne]
      by_cases hp : ∃ p, t = .typeParam p
      · obtain ⟨p, rfl⟩ := hp
        rfl
      · have hnp : ∀ p, t ≠ .typeParam p := by simpa using hp
        rw [free_iff_of_ne (mapKids_ne_typeParam hnp), free_iff_of_ne hnp, binders_mapKids,
          Ty.kids_mapKids]
        grind

@[simp] theorem asSeenFromViewDecls_mapTypes (f : Ty → Ty) (decls : List RefineDecl) :
    asSeenFromViewDecls (decls.map (RefineDecl.mapTypes f)) = asSeenFromViewDecls decls := by
  simp only [asSeenFromViewDecls, List.any_map]
  congr 1
  funext d
  cases d <;> rfl

theorem normal_applyTypeCtor (c : Ty) (as : List Ty) :
    (applyTypeCtor c as).normal = applyTypeCtor c.normal (as.map Ty.normal) := by
  by_cases h : as = []
  · simp [h]
  induction c using Ty.ctor_induction generalizing as with
  | cls sym existing => simp [normal_cls]
  | named name existing => simp [normal_named]
  | applied ctor existing ih =>
    rw [applyTypeCtor_applied _ _ h, ih _ (by simp [h]), normal_applied, applyTypeCtor_append,
      List.map_append]
  | annotated tpe annot ih => simp [normal_annotated, ih as h]
  | view sym existing decls hv =>
    rw [applyTypeCtor_view _ _ _ hv, normal_view, normal_view, applyTypeCtor_view _ _ _ (by simpa),
      List.map_append]
  | stuck ctor hs => rw [applyTypeCtor_stuck hs h, normal_applied]

/-- No application can be carried out at the head of the type. -/
def HeadNormal : Ty → Prop
  | .applied c as => Stuck c ∧ as ≠ []
  | .annotated tpe _ => HeadNormal tpe
  | _ => True

theorem headNormal_applyTypeCtor {c : Ty} (hc : HeadNormal c) (as : List Ty) :
    HeadNormal (applyTypeCtor c as) := by
  by_cases h : as = []
  · simpa [h] using hc
  induction c using Ty.ctor_induction generalizing as with
  | cls sym existing => simp [HeadNormal]
  | named name existing => simp [HeadNormal]
  | applied ctor existing ih =>
    simp only [HeadNormal] at hc
    rw [applyTypeCtor_applied _ _ h, applyTypeCtor_stuck hc.1 (by simp [h])]
    simp [HeadNormal, hc.1, h]
  | annotated tpe annot ih =>
    simp only [HeadNormal] at hc
    simpa [HeadNormal] using ih hc as h
  | view sym existing decls hv => simp [applyTypeCtor_view _ _ _ hv, HeadNormal]
  | stuck ctor hs => simp [applyTypeCtor_stuck hs h, HeadNormal, hs, h]

theorem headNormal_normal (t : Ty) : HeadNormal t.normal := by
  induction t using Ty.kids_induction with
  | step t ih =>
    rcases t.applied_or with ⟨c, as, rfl⟩ | hne
    · rw [normal_applied]
      exact headNormal_applyTypeCtor (ih c (by simp [Ty.kids])) _
    · rw [normal_of_ne hne]
      cases t with
      | annotated tpe annot => exact ih tpe (by simp [Ty.kids])
      | applied c as => exact absurd rfl (hne c as)
      | _ => trivial

/-- Takes the last `n` arguments off an application in normal form. -/
def splitArgs (n : ℕ) : Ty → Ty × List Ty
  | .cls sym as => (.cls sym (as.take (as.length - n)), as.drop (as.length - n))
  | .named name as => (.named name (as.take (as.length - n)), as.drop (as.length - n))
  | .annotated tpe annot => (.annotated (splitArgs n tpe).1 annot, (splitArgs n tpe).2)
  | .applied c as =>
    if as.length = n then (c, as)
    else (.applied c (as.take (as.length - n)), as.drop (as.length - n))
  | .refined [.cls sym as] decls =>
    (.refined [.cls sym (as.take (as.length - n))] decls, as.drop (as.length - n))
  | t => (t, [])

theorem splitArgs_applyTypeCtor {c : Ty} (hc : HeadNormal c) {as : List Ty} (h : as ≠ []) :
    splitArgs as.length (applyTypeCtor c as) = (c, as) := by
  induction c using Ty.ctor_induction with
  | cls sym existing => simp [splitArgs]
  | named name existing => simp [splitArgs]
  | applied ctor existing =>
    obtain ⟨hs, he⟩ := hc
    rw [applyTypeCtor_applied _ _ h, applyTypeCtor_stuck hs (by simp [h])]
    simp [splitArgs, he]
  | annotated tpe annot ih => simp [splitArgs, ih hc]
  | view sym existing decls hv => simp [splitArgs, applyTypeCtor_view _ _ _ hv]
  | stuck ctor hs => simp [splitArgs, applyTypeCtor_stuck hs h]

/-- Two constructors that are applied to as many arguments and give one type are
one constructor, applied to the same arguments. -/
theorem applyTypeCtor_injective {c d : Ty} {as bs : List Ty} (hc : HeadNormal c)
    (hd : HeadNormal d) (hl : as.length = bs.length)
    (h : applyTypeCtor c as = applyTypeCtor d bs) : c = d ∧ as = bs := by
  by_cases has : as = []
  · have hbs : bs = [] := by simpa [has, eq_comm] using hl
    simpa [has, hbs] using h
  · have hbs : bs ≠ [] := by
      intro hbs
      simp [hbs] at hl
      exact has hl
    have h1 := splitArgs_applyTypeCtor hc has
    rw [h, hl, splitArgs_applyTypeCtor hd hbs] at h1
    simpa [eq_comm] using h1

end ScalaRs.Unification
