import ScalaRs.TypeReplacement

/-! # Where a mention is looked for

The places at which the tests of the typer see a parameter, and which of them a
substitution leaves an unknown at. -/
namespace ScalaRs.Unification

/-! ## The places of a type -/

/-- The parts the deep test goes into. -/
def Ty.shownKids : Ty → List Ty
  | .overload _ => []
  | .singleType _ _ => []
  | t => t.kids

/-- The parts the shallow test goes into. -/
def Ty.shallowKids : Ty → List Ty
  | .overload _ => []
  | .singleType _ _ => []
  | .boundedWildcard _ _ => []
  | .refined (p :: _) decls => if asSeenFromViewDecls decls then [p] else []
  | .refined [] _ => []
  | t => t.kids

/-- The parts the test for unknowns goes into by itself. -/
def Ty.plainKids : Ty → List Ty
  | .overload _ => []
  | .singleType _ _ => []
  | .boundedWildcard _ _ => []
  | .existential _ _ => []
  | .method _ _ => []
  | .refined _ _ => []
  | t => t.kids

/-- The type mentions the parameter where the deep test sees it. -/
inductive Shown (id : SymbolId) : Ty → Prop
  | here : Shown id (.typeParam id)
  | inside {t k : Ty} (hk : k ∈ t.shownKids) (hb : id ∉ t.binders) (h : Shown id k) : Shown id t

/-- The type mentions an unknown where the test for unknowns sees it. -/
inductive Visible (unknowns : Unknowns) : Ty → Prop
  | here {id : SymbolId} (hu : unknowns.containsKey id = true) : Visible unknowns (.typeParam id)
  | inside {t k : Ty} (hk : k ∈ t.plainKids) (h : Visible unknowns k) : Visible unknowns t
  | compound {id : SymbolId} {ps : List Ty} {ds : List RefineDecl}
      (hu : unknowns.containsKey id = true) (h : Shown id (.refined ps ds)) :
      Visible unknowns (.refined ps ds)

theorem Ty.kids_of_shownKids {t k : Ty} (h : k ∈ t.shownKids) : k ∈ t.kids := by
  cases t <;> simp_all [shownKids]

theorem Ty.shownKids_of_shallowKids {t k : Ty} (h : k ∈ t.shallowKids) : k ∈ t.shownKids := by
  cases t with
  | refined ps ds =>
    cases ps with
    | nil => simp [shallowKids] at h
    | cons p ps =>
      simp only [shallowKids] at h
      split at h
      · simp_all [shownKids, kids]
      · simp at h
  | _ => simp_all [shallowKids, shownKids]

theorem Shown.free {id : SymbolId} {t : Ty} (h : Shown id t) : Free id t := by
  induction h with
  | here => exact .here
  | inside hk hb _ ih => exact .inside (Ty.kids_of_shownKids hk) hb ih

theorem shown_iff_of_ne {id : SymbolId} {t : Ty} (h : ∀ p, t ≠ .typeParam p) :
    Shown id t ↔ id ∉ t.binders ∧ ∃ k ∈ t.shownKids, Shown id k := by
  constructor
  · intro hs
    cases hs with
    | here => exact absurd rfl (h id)
    | inside hk hb hs => exact ⟨hb, _, hk, hs⟩
  · rintro ⟨hb, k, hk, hs⟩
    exact .inside hk hb hs

@[simp] theorem shown_typeParam {id p : SymbolId} : Shown id (.typeParam p) ↔ id = p := by
  constructor
  · intro h
    exact free_typeParam.mp h.free
  · rintro rfl
    exact .here

/-! ## The tests -/

@[simp] theorem flagged_typeParam (id : SymbolId) :
    flagged typeParamFlag (.typeParam id) = true :=
  flagged_iff.mpr (Or.inl rfl)

theorem typeMentionsTparam_typeParam (tp id : SymbolId) :
    typeMentionsTparam tp (.typeParam id) = (id == tp) := by
  rw [typeMentionsTparam.eq_def]
  simp

theorem typeMentionsTparam_iff {tp : SymbolId} {t : Ty} (h : ∀ p, t ≠ .typeParam p) :
    typeMentionsTparam tp t = true ↔ flagged typeParamFlag t = true ∧ tp ∉ t.binders ∧
      ∃ k ∈ t.shallowKids, typeMentionsTparam tp k = true := by
  cases hf : flagged typeParamFlag t with
  | false =>
    rw [typeMentionsTparam.eq_def]
    simp [hf]
  | true =>
    cases t with
    | typeParam id => exact absurd rfl (h id)
    | refined ps ds =>
      cases ps with
      | nil => simp [typeMentionsTparam, Ty.shallowKids, Ty.binders]
      | cons p ps =>
        cases hv : asSeenFromViewDecls ds <;>
          simp [typeMentionsTparam, Ty.shallowKids, Ty.binders, hf, hv]
    | existential ps b =>
      simp only [typeMentionsTparam, hf, Ty.shallowKids, Ty.kids, Ty.binders]
      simp
      grind
    | method pss r =>
      simp only [typeMentionsTparam, hf, Ty.shallowKids, Ty.kids, Ty.binders]
      simp
      grind
    | _ => simp [typeMentionsTparam, hf, Ty.shallowKids, Ty.kids, Ty.binders, or_and_right, exists_or]

theorem shown_of_typeMentionsTparam {tp : SymbolId} {t : Ty} (h : typeMentionsTparam tp t = true) :
    Shown tp t := by
  induction t using Ty.kids_induction with
  | step t ih =>
    by_cases hp : ∃ id, t = .typeParam id
    · obtain ⟨id, rfl⟩ := hp
      have hid : id = tp := by simpa [typeMentionsTparam_typeParam] using h
      rw [hid]
      exact .here
    · obtain ⟨-, hb, k, hk, hm⟩ := (typeMentionsTparam_iff (by simpa using hp)).mp h
      have hs := Ty.shownKids_of_shallowKids hk
      exact .inside hs hb (ih k (Ty.kids_of_shownKids hs) hm)

theorem typeMentionsTparamDeep_iff {tp : SymbolId} {t : Ty} (h : ∀ p, t ≠ .typeParam p) :
    typeMentionsTparamDeep tp t = true ↔ flagged typeParamFlag t = true ∧
      (typeMentionsTparam tp t = true ∨ tp ∉ t.binders ∧
        ∃ k ∈ t.shownKids, typeMentionsTparamDeep tp k = true) := by
  cases hf : flagged typeParamFlag t with
  | false =>
    rw [typeMentionsTparamDeep.eq_def]
    simp [hf]
  | true =>
    cases hm : typeMentionsTparam tp t with
    | true =>
      rw [typeMentionsTparamDeep.eq_def]
      simp [hf, hm]
    | false =>
      cases t with
      | typeParam id => exact absurd rfl (h id)
      | refined ps ds =>
        simp only [typeMentionsTparamDeep, hf, hm, Ty.shownKids, Ty.kids, Ty.binders]
        simp
        grind
      | existential ps b =>
        simp only [typeMentionsTparamDeep, hf, hm, Ty.shownKids, Ty.kids, Ty.binders]
        simp
        grind
      | method pss r =>
        simp only [typeMentionsTparamDeep, hf, hm, Ty.shownKids, Ty.kids, Ty.binders]
        simp
        grind
      | _ =>
        simp [typeMentionsTparamDeep, hf, hm, Ty.shownKids, Ty.kids, Ty.binders, or_and_right,
          exists_or]

/-- The deep test sees the parameter exactly at the shown places. -/
theorem typeMentionsTparamDeep_iff_shown {tp : SymbolId} {t : Ty} :
    typeMentionsTparamDeep tp t = true ↔ Shown tp t := by
  induction t using Ty.kids_induction with
  | step t ih =>
    by_cases hp : ∃ id, t = .typeParam id
    · obtain ⟨id, rfl⟩ := hp
      rw [shown_typeParam, typeMentionsTparamDeep.eq_def, typeMentionsTparam_typeParam]
      simp [eq_comm (a := tp)]
    · have hp : ∀ p, t ≠ .typeParam p := by simpa using hp
      rw [typeMentionsTparamDeep_iff hp]
      constructor
      · rintro ⟨-, hm | ⟨hb, k, hk, hm⟩⟩
        · exact shown_of_typeMentionsTparam hm
        · exact .inside hk hb ((ih k (Ty.kids_of_shownKids hk)).mp hm)
      · intro hs
        obtain ⟨hb, k, hk, hm⟩ := (shown_iff_of_ne hp).mp hs
        exact ⟨hs.free.flagged (fun _ => rfl),
          Or.inr ⟨hb, k, hk, (ih k (Ty.kids_of_shownKids hk)).mpr hm⟩⟩

theorem Unknowns.any_eq_true (unknowns : Unknowns) {P : SymbolId → Bool} :
    (unknowns.any fun u => P u.1) = true ↔ ∃ id, unknowns.containsKey id = true ∧ P id = true := by
  have hkey : ∀ id, unknowns.containsKey id = true ↔ ∃ own, (id, own) ∈ unknowns := by
    intro id
    simp only [containsKey, List.lookup_isSome_iff]
    grind
  simp only [List.any_eq_true, hkey]
  grind

theorem visible_iff_of_plain {unknowns : Unknowns} {t : Ty} (hp : ∀ id, t ≠ .typeParam id)
    (hr : ∀ ps ds, t ≠ .refined ps ds) :
    Visible unknowns t ↔ ∃ k ∈ t.plainKids, Visible unknowns k := by
  constructor
  · intro h
    cases h with
    | here => exact absurd rfl (hp _)
    | inside hk h => exact ⟨_, hk, h⟩
    | compound => exact absurd rfl (hr _ _)
  · rintro ⟨k, hk, h⟩
    exact .inside hk h

theorem visible_refined {unknowns : Unknowns} {ps : List Ty} {ds : List RefineDecl} :
    Visible unknowns (.refined ps ds) ↔
      ∃ id, unknowns.containsKey id = true ∧ Shown id (.refined ps ds) := by
  constructor
  · intro h
    cases h with
    | inside hk => simp [Ty.plainKids] at hk
    | compound hu h => exact ⟨_, hu, h⟩
  · rintro ⟨id, hu, h⟩
    exact .compound hu h

theorem visible_typeParam {unknowns : Unknowns} {id : SymbolId} :
    Visible unknowns (.typeParam id) ↔ unknowns.containsKey id = true := by
  constructor
  · intro h
    cases h with
    | here hu => exact hu
    | inside hk => simp [Ty.plainKids, Ty.kids] at hk
  · exact .here

/-- The test for unknowns sees one exactly at the visible places. -/
theorem mentionsUnknown_iff_visible {unknowns : Unknowns} {t : Ty} :
    mentionsUnknown unknowns t = true ↔ Visible unknowns t := by
  induction t using Ty.kids_induction with
  | step t ih =>
    by_cases hp : ∃ id, t = .typeParam id
    · obtain ⟨id, rfl⟩ := hp
      rw [visible_typeParam, mentionsUnknown]
    by_cases hr : ∃ ps ds, t = .refined ps ds
    · obtain ⟨ps, ds, rfl⟩ := hr
      rw [visible_refined, mentionsUnknown,
        unknowns.any_eq_true (P := fun id => typeMentionsTparamDeep id (.refined ps ds))]
      simp only [typeMentionsTparamDeep_iff_shown]
    · have hplain : mentionsUnknown unknowns t = true ↔
          ∃ k ∈ t.plainKids, mentionsUnknown unknowns k = true := by
        cases t with
        | typeParam id => exact absurd ⟨id, rfl⟩ hp
        | refined ps ds => exact absurd ⟨ps, ds, rfl⟩ hr
        | _ => simp [mentionsUnknown, Ty.plainKids, Ty.kids, or_and_right, exists_or]
      rw [hplain, visible_iff_of_plain (by simpa using hp) (by simpa using hr)]
      have hk : ∀ k ∈ t.plainKids, k ∈ t.kids := by
        intro k hk
        cases t <;> simp_all [Ty.plainKids]
      constructor
      · rintro ⟨k, hmem, hm⟩
        exact ⟨k, hmem, (ih k (hk k hmem)).mp hm⟩
      · rintro ⟨k, hmem, hm⟩
        exact ⟨k, hmem, (ih k (hk k hmem)).mpr hm⟩

/-! ## The places after a substitution -/

theorem shownKids_mapKids (f : Ty → Ty) (t : Ty) : (t.mapKids f).shownKids = t.shownKids.map f := by
  have h := Ty.kids_mapKids f t
  cases t with
  | overload | singleType => rfl
  | _ => exact h

theorem plainKids_mapKids (f : Ty → Ty) (t : Ty) : (t.mapKids f).plainKids = t.plainKids.map f := by
  have h := Ty.kids_mapKids f t
  cases t with
  | overload | singleType | boundedWildcard | existential | method | refined => rfl
  | _ => exact h

theorem shown_applied {id : SymbolId} {c : Ty} {as : List Ty} :
    Shown id (.applied c as) ↔ Shown id c ∨ ∃ a ∈ as, Shown id a := by
  rw [shown_iff_of_ne (by simp)]
  simp [Ty.shownKids, Ty.kids, Ty.binders]

theorem shown_annotated {id : SymbolId} {t : Ty} {annot : String} :
    Shown id (.annotated t annot) ↔ Shown id t := by
  rw [shown_iff_of_ne (by simp)]
  simp [Ty.shownKids, Ty.kids, Ty.binders]

theorem shown_cls {id sym : SymbolId} {as : List Ty} :
    Shown id (.cls sym as) ↔ ∃ a ∈ as, Shown id a := by
  rw [shown_iff_of_ne (by simp)]
  simp [Ty.shownKids, Ty.kids, Ty.binders]

theorem shown_view {id : SymbolId} {p : Ty} {ds : List RefineDecl} :
    Shown id (.refined [p] ds) ↔ Shown id p ∨ ∃ k ∈ ds.flatMap RefineDecl.types, Shown id k := by
  rw [shown_iff_of_ne (by simp)]
  simp only [Ty.shownKids, Ty.kids, Ty.binders, List.not_mem_nil, not_false_eq_true, true_and,
    List.mem_append, List.mem_singleton, or_and_right, exists_or, exists_eq_left]

theorem shown_applyTypeCtor {id : SymbolId} (c : Ty) (as : List Ty) :
    Shown id (applyTypeCtor c as) ↔ Shown id c ∨ ∃ a ∈ as, Shown id a := by
  by_cases h : as = []
  · simp [h]
  induction c using Ty.ctor_induction generalizing as with
  | cls sym existing => simp [shown_cls, or_and_right, exists_or]
  | named name existing =>
    rw [applyTypeCtor_named, shown_iff_of_ne (by simp), shown_iff_of_ne (by simp)]
    simp [Ty.shownKids, Ty.kids, Ty.binders, or_and_right, exists_or]
  | applied ctor existing ih =>
    rw [applyTypeCtor_applied _ _ h, ih _ (by simp [h]), shown_applied]
    simp [or_and_right, exists_or, or_assoc]
  | annotated tpe annot ih => rw [applyTypeCtor_annotated, shown_annotated, shown_annotated, ih as h]
  | view sym existing decls hv =>
    rw [applyTypeCtor_view _ _ _ hv, shown_view, shown_view, shown_cls, shown_cls]
    simp only [List.mem_append, or_and_right, exists_or]
    exact or_right_comm
  | stuck ctor hs => rw [applyTypeCtor_stuck hs h, shown_applied]

/-- Arguments of the constructor end up inside a class seen through a prefix. -/
def attachesArgs : Ty → Bool
  | .applied c _ => attachesArgs c
  | .annotated t _ => attachesArgs t
  | .refined [.cls _ _] decls => asSeenFromViewDecls decls
  | _ => false

theorem attachesArgs_of_stuck {c : Ty} (h : Stuck c) : attachesArgs c = false := by
  cases c with
  | refined ps ds =>
    rcases ps with _ | ⟨p, _ | ⟨q, qs⟩⟩
    · rfl
    · cases p with
      | cls sym existing => exact h
      | _ => rfl
    · simp [attachesArgs]
  | applied => exact absurd h (by simp [Stuck])
  | annotated => exact absurd h (by simp [Stuck])
  | _ => rfl

theorem visible_applyTypeCtor {unknowns : Unknowns} (c : Ty) {as : List Ty} (h : as ≠ []) :
    Visible unknowns (applyTypeCtor c as) ↔
      if attachesArgs c then
        ∃ id, unknowns.containsKey id = true ∧ (Shown id c ∨ ∃ a ∈ as, Shown id a)
      else Visible unknowns c ∨ ∃ a ∈ as, Visible unknowns a := by
  induction c using Ty.ctor_induction generalizing as with
  | cls sym existing =>
    rw [applyTypeCtor_cls, visible_iff_of_plain (by simp) (by simp),
      visible_iff_of_plain (by simp) (by simp)]
    simp [attachesArgs, Ty.plainKids, Ty.kids, or_and_right, exists_or]
  | named name existing =>
    rw [applyTypeCtor_named, visible_iff_of_plain (by simp) (by simp),
      visible_iff_of_plain (by simp) (by simp)]
    simp [attachesArgs, Ty.plainKids, Ty.kids, or_and_right, exists_or]
  | applied ctor existing ih =>
    rw [applyTypeCtor_applied _ _ h, ih (by simp [h]), attachesArgs]
    split
    · simp [shown_applied, or_and_right, exists_or, or_assoc]
    · rw [visible_iff_of_plain (t := .applied ctor existing) (by simp) (by simp)]
      simp [Ty.plainKids, Ty.kids, or_and_right, exists_or, or_assoc]
  | annotated tpe annot ih =>
    rw [applyTypeCtor_annotated, visible_iff_of_plain (by simp) (by simp), attachesArgs,
      visible_iff_of_plain (t := .annotated tpe annot) (by simp) (by simp)]
    simp [Ty.plainKids, Ty.kids, ih h, shown_annotated]
  | view sym existing decls hv =>
    have hsh := fun id => @shown_applyTypeCtor id (.refined [.cls sym existing] decls) as
    rw [applyTypeCtor_view _ _ _ hv] at hsh ⊢
    simp [visible_refined, attachesArgs, hv, hsh]
  | stuck ctor hs =>
    rw [applyTypeCtor_stuck hs h, attachesArgs_of_stuck hs,
      visible_iff_of_plain (by simp) (by simp)]
    simp [Ty.plainKids, Ty.kids]

/-- After the parameters have been replaced the parameter stands where the deep
test sees it. -/
inductive LeftShown (id : SymbolId) : Subst → Ty → Prop
  | param {σ : Subst} {p : SymbolId} (h : Shown id (σ.get p)) : LeftShown id σ (.typeParam p)
  | inside {σ : Subst} {t k : Ty} (hk : k ∈ t.shownKids) (hb : id ∉ t.binders)
      (h : LeftShown id (σ.hide t.binders) k) : LeftShown id σ t

theorem leftShown_iff_of_ne {id : SymbolId} {σ : Subst} {t : Ty} (h : ∀ p, t ≠ .typeParam p) :
    LeftShown id σ t ↔ id ∉ t.binders ∧ ∃ k ∈ t.shownKids, LeftShown id (σ.hide t.binders) k := by
  constructor
  · intro hs
    cases hs with
    | param => exact absurd rfl (h _)
    | inside hk hb hs => exact ⟨hb, _, hk, hs⟩
  · rintro ⟨hb, k, hk, hs⟩
    exact .inside hk hb hs

theorem shown_substMap {id : SymbolId} (θ : List (SymbolId × Ty)) (t : Ty) :
    Shown id (substMap θ t) ↔ LeftShown id (lookupSubst θ) t := by
  induction t using Ty.kids_induction generalizing θ with
  | step t ih =>
    rcases t.shape with ⟨p, rfl⟩ | ⟨ts, rfl⟩ | ⟨hp, hov⟩
    · rw [substMap_typeParam]
      constructor
      · exact .param
      · intro h
        cases h with
        | param h => exact h
        | inside hk => simp [Ty.shownKids, Ty.kids] at hk
    · rw [substMap_overload, shown_iff_of_ne (by simp), leftShown_iff_of_ne (by simp)]
      simp [Ty.shownKids]
    rcases t.applied_or with ⟨c, as, rfl⟩ | ha
    · have has : ∀ a ∈ as, Shown id (substMap θ a) ↔ LeftShown id (lookupSubst θ) a :=
        fun a ha => ih a (by simp [Ty.kids, ha]) θ
      rw [substMap_applied, shown_applyTypeCtor, leftShown_iff_of_ne (by simp),
        ih c (by simp [Ty.kids])]
      simp only [Ty.shownKids, Ty.kids, Ty.binders, List.not_mem_nil, not_false_eq_true, true_and,
        List.mem_cons, Subst.hide_nil, List.mem_map]
      grind
    · rw [substMap_of_ne θ hp hov ha, shown_iff_of_ne (mapKids_ne_typeParam hp),
        leftShown_iff_of_ne hp, binders_mapKids, shownKids_mapKids, ← lookupSubst_hideParams]
      have hk : ∀ k ∈ t.shownKids, Shown id (substMap (hideParams θ t) k) ↔
          LeftShown id (lookupSubst (hideParams θ t)) k :=
        fun k hk => ih k (Ty.kids_of_shownKids hk) _
      simp only [List.mem_map]
      grind

/-- After the parameters have been replaced an unknown stands where the test for
unknowns sees it. -/
inductive LeftVisible (unknowns : Unknowns) (θ : List (SymbolId × Ty)) : Ty → Prop
  | param {p : SymbolId} (h : Visible unknowns ((lookupSubst θ).get p)) :
      LeftVisible unknowns θ (.typeParam p)
  | inside {t k : Ty} (hk : k ∈ t.plainKids) (h : LeftVisible unknowns θ k) :
      LeftVisible unknowns θ t
  | compound {id : SymbolId} {ps : List Ty} {ds : List RefineDecl}
      (hu : unknowns.containsKey id = true) (h : LeftShown id (lookupSubst θ) (.refined ps ds)) :
      LeftVisible unknowns θ (.refined ps ds)
  -- the arguments of a class seen through a prefix move into a refinement
  | attached {id : SymbolId} {c : Ty} {as : List Ty} (hc : attachesArgs (substMap θ c) = true)
      (has : as ≠ []) (hu : unknowns.containsKey id = true)
      (h : LeftShown id (lookupSubst θ) (.applied c as)) : LeftVisible unknowns θ (.applied c as)

theorem Visible.shown {unknowns : Unknowns} {t : Ty} (h : Visible unknowns t) :
    ∃ id, unknowns.containsKey id = true ∧ Shown id t := by
  induction h with
  | here hu => exact ⟨_, hu, .here⟩
  | @inside t k hk _ ih =>
    obtain ⟨id, hu, hs⟩ := ih
    have hplain : k ∈ t.shownKids ∧ id ∉ t.binders := by
      cases t <;> simp_all [Ty.plainKids, Ty.shownKids, Ty.binders]
    exact ⟨id, hu, .inside hplain.1 hplain.2 hs⟩
  | compound hu h => exact ⟨_, hu, h⟩

theorem leftVisible_iff_of_plain {unknowns : Unknowns} {θ : List (SymbolId × Ty)} {t : Ty}
    (hp : ∀ id, t ≠ .typeParam id) (hr : ∀ ps ds, t ≠ .refined ps ds)
    (ha : ∀ c as, t ≠ .applied c as) :
    LeftVisible unknowns θ t ↔ ∃ k ∈ t.plainKids, LeftVisible unknowns θ k := by
  constructor
  · intro h
    cases h with
    | param => exact absurd rfl (hp _)
    | inside hk h => exact ⟨_, hk, h⟩
    | compound => exact absurd rfl (hr _ _)
    | attached => exact absurd rfl (ha _ _)
  · rintro ⟨k, hk, h⟩
    exact .inside hk h

/-- What the test for unknowns sees after a substitution is told by the type and
the substitution alone. -/
theorem visible_substMap {unknowns : Unknowns} (θ : List (SymbolId × Ty)) (t : Ty) :
    Visible unknowns (substMap θ t) ↔ LeftVisible unknowns θ t := by
  induction t using Ty.kids_induction with
  | step t ih =>
    rcases t.shape with ⟨p, rfl⟩ | ⟨ts, rfl⟩ | ⟨hp, hov⟩
    · rw [substMap_typeParam]
      constructor
      · exact .param
      · intro h
        cases h with
        | param h => exact h
        | inside hk => simp [Ty.plainKids, Ty.kids] at hk
    · rw [substMap_overload, visible_iff_of_plain (by simp) (by simp),
        leftVisible_iff_of_plain (by simp) (by simp) (by simp)]
      simp [Ty.plainKids]
    rcases t.applied_or with ⟨c, as, rfl⟩ | ha
    · have hc : Visible unknowns (substMap θ c) ↔ LeftVisible unknowns θ c :=
        ih c (by simp [Ty.kids])
      have has : ∀ a ∈ as, Visible unknowns (substMap θ a) ↔ LeftVisible unknowns θ a :=
        fun a ha => ih a (by simp [Ty.kids, ha])
      by_cases hnil : as = []
      · subst hnil
        rw [substMap_applied, List.map_nil, applyTypeCtor_nil, hc]
        constructor
        · exact .inside (by simp [Ty.plainKids, Ty.kids])
        · intro h
          cases h with
          | inside hk h =>
            have hk := by simpa [Ty.plainKids, Ty.kids] using hk
            exact hk ▸ h
          | attached _ hn => exact absurd rfl hn
      · have hsh := fun id => @shown_substMap id θ (.applied c as)
        simp only [substMap_applied, shown_applyTypeCtor] at hsh
        rw [substMap_applied, visible_applyTypeCtor _ (by simpa using hnil)]
        cases hat : attachesArgs (substMap θ c) with
        | true =>
          simp only [↓reduceIte, hsh]
          constructor
          · rintro ⟨id, hu, hs⟩
            exact .attached hat hnil hu hs
          · intro h
            cases h with
            | inside hk h =>
              have hv : Visible unknowns (substMap θ c) ∨
                  ∃ a ∈ as, Visible unknowns (substMap θ a) := by
                simp only [Ty.plainKids, Ty.kids, List.mem_cons] at hk
                rcases hk with rfl | hk
                · exact Or.inl (hc.mpr h)
                · exact Or.inr ⟨_, hk, (has _ hk).mpr h⟩
              rcases hv with hv | ⟨a, ha, hv⟩
              · obtain ⟨id, hu, hs⟩ := hv.shown
                exact ⟨id, hu, (hsh id).mp (Or.inl hs)⟩
              · obtain ⟨id, hu, hs⟩ := hv.shown
                exact ⟨id, hu, (hsh id).mp (Or.inr ⟨_, List.mem_map_of_mem ha, hs⟩)⟩
            | attached _ _ hu h => exact ⟨_, hu, h⟩
        | false =>
          simp only [Bool.false_eq_true, ↓reduceIte, List.mem_map, exists_exists_and_eq_and]
          constructor
          · rintro (h | ⟨a, ha, h⟩)
            · exact .inside (by simp [Ty.plainKids, Ty.kids]) (hc.mp h)
            · exact .inside (by simp [Ty.plainKids, Ty.kids, ha]) ((has a ha).mp h)
          · intro h
            cases h with
            | inside hk h =>
              simp only [Ty.plainKids, Ty.kids, List.mem_cons] at hk
              rcases hk with rfl | hk
              · exact Or.inl (hc.mpr h)
              · exact Or.inr ⟨_, hk, (has _ hk).mpr h⟩
            | attached ht => simp [hat] at ht
    by_cases hr : ∃ ps ds, t = .refined ps ds
    · obtain ⟨ps, ds, rfl⟩ := hr
      have hsh := fun id => @shown_substMap id θ (.refined ps ds)
      rw [substMap_of_ne θ hp hov ha] at hsh ⊢
      simp only [Ty.mapKids] at hsh ⊢
      rw [visible_refined]
      simp only [hsh]
      constructor
      · rintro ⟨id, hu, h⟩
        exact .compound hu h
      · intro h
        cases h with
        | inside hk => simp [Ty.plainKids] at hk
        | compound hu h => exact ⟨_, hu, h⟩
    · have hr : ∀ ps ds, t ≠ .refined ps ds := by simpa using hr
      have hmr : ∀ f ps ds, t.mapKids f ≠ .refined ps ds := by
        intro f
        cases t <;> simp_all [Ty.mapKids]
      rw [substMap_of_ne θ hp hov ha, visible_iff_of_plain (mapKids_ne_typeParam hp) (hmr _),
        leftVisible_iff_of_plain hp hr ha, plainKids_mapKids]
      have hk : ∀ k ∈ t.plainKids, Visible unknowns (substMap (hideParams θ t) k) ↔
          LeftVisible unknowns θ k := by
        intro k hk
        have hplain : k ∈ t.kids ∧ hideParams θ t = θ := by
          cases t <;> simp_all [Ty.plainKids, hideParams]
        rw [hplain.2]
        exact ih k hplain.1
      simp only [List.mem_map]
      grind

end ScalaRs.Unification
