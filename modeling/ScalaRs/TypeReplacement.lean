import ScalaRs.TypeNormalForms

/-! # Replacement of type parameters

What it means to replace the parameters of a type at every depth, and that the
typer's substitution is such a replacement. -/
namespace ScalaRs.Unification

/-! ## Replacement -/

/-- What stands for a parameter, where something does. -/
abbrev Subst := SymbolId → Option Ty

def Subst.get (σ : Subst) (id : SymbolId) : Ty := (σ id).getD (.typeParam id)

/-- The substitution below a quantifier over these parameters. -/
def Subst.hide (σ : Subst) (ids : List SymbolId) : Subst :=
  fun id => if id ∈ ids then none else σ id

def Subst.none : Subst := fun _ => Option.none

open Classical in
/-- Puts the types of `σ` for the free parameters of the type, and those of `α`
below an overloaded alternative. -/
noncomputable def Ty.replace (σ α : Subst) (t : Ty) : Ty :=
  match t with
  | .typeParam id => σ.get id
  | .overload ts => .overload (ts.map (Ty.replace α α))
  | t => t.mapKids fun k =>
      if _ : k ∈ t.kids then k.replace (σ.hide t.binders) (α.hide t.binders) else k
termination_by sizeOf t
decreasing_by
  · exact Ty.sizeOf_kid_lt (by simp [Ty.kids, *])
  · exact Ty.sizeOf_kid_lt ‹_›

@[simp] theorem replace_typeParam (σ α : Subst) (id : SymbolId) :
    (Ty.typeParam id).replace σ α = σ.get id := by
  rw [Ty.replace]

@[simp] theorem replace_overload (σ α : Subst) (ts : List Ty) :
    (Ty.overload ts).replace σ α = .overload (ts.map (Ty.replace α α)) := by
  rw [Ty.replace]

theorem replace_of_ne (σ α : Subst) {t : Ty} (hp : ∀ id, t ≠ .typeParam id)
    (ho : ∀ ts, t ≠ .overload ts) :
    t.replace σ α = t.mapKids (Ty.replace (σ.hide t.binders) (α.hide t.binders)) := by
  rw [Ty.replace]
  · apply Ty.mapKids_congr
    intro k hk
    simp [hk]
  · exact hp
  · exact ho

@[simp] theorem Subst.hide_nil (σ : Subst) : σ.hide [] = σ := by
  funext id
  simp [hide]

@[simp] theorem Subst.hide_none (ids : List SymbolId) : Subst.none.hide ids = Subst.none := by
  funext id
  simp [hide, Subst.none]

theorem Subst.get_hide_of_notMem (σ : Subst) {ids : List SymbolId} {id : SymbolId}
    (h : id ∉ ids) : (σ.hide ids).get id = σ.get id := by
  simp [get, hide, h]

@[simp] theorem replace_applied (σ α : Subst) (c : Ty) (as : List Ty) :
    (Ty.applied c as).replace σ α = .applied (c.replace σ α) (as.map (Ty.replace σ α)) := by
  rw [replace_of_ne _ _ (by simp) (by simp), Ty.mapKids]
  simp [Ty.binders]

/-- A replacement depends only on what stands for the free parameters. -/
theorem replace_congr {σ α τ β : Subst} {t : Ty} (hf : ∀ id, Free id t → σ.get id = τ.get id)
    (ho : ∀ id, Overloaded id t → α.get id = β.get id) : t.replace σ α = t.replace τ β := by
  induction t using Ty.kids_induction generalizing σ α τ β with
  | step t ih =>
    rcases t.shape with ⟨p, rfl⟩ | ⟨ts, rfl⟩ | ⟨hp, hov⟩
    · simpa using hf p .here
    · rw [replace_overload, replace_overload]
      congr 1
      apply List.map_congr_left
      intro k hk
      have h : ∀ id, Free id k → α.get id = β.get id := fun id h => ho id (.alternative hk h)
      exact ih k (by simpa [Ty.kids] using hk) h fun id h' => h id h'.free
    · rw [replace_of_ne _ _ hp hov, replace_of_ne _ _ hp hov]
      apply Ty.mapKids_congr
      intro k hk
      apply ih k hk
      · intro id h
        by_cases hb : id ∈ t.binders
        · simp [Subst.get, Subst.hide, hb]
        · rw [Subst.get_hide_of_notMem _ hb, Subst.get_hide_of_notMem _ hb]
          exact hf id (.inside hk hb h)
      · intro id h
        by_cases hb : id ∈ t.binders
        · simp [Subst.get, Subst.hide, hb]
        · rw [Subst.get_hide_of_notMem _ hb, Subst.get_hide_of_notMem _ hb]
          exact ho id (.inside hk hb h)

theorem replace_none (t : Ty) : t.replace Subst.none Subst.none = t := by
  induction t using Ty.kids_induction with
  | step t ih =>
    rcases t.shape with ⟨p, rfl⟩ | ⟨ts, rfl⟩ | ⟨hp, hov⟩
    · rw [replace_typeParam]
      rfl
    · rw [replace_overload]
      congr 1
      calc ts.map (Ty.replace Subst.none Subst.none) = ts.map id :=
            List.map_congr_left fun k hk => ih k (by simpa [Ty.kids] using hk)
        _ = ts := List.map_id ts
    · rw [replace_of_ne _ _ hp hov]
      apply Ty.mapKids_eq_self
      intro k hk
      simpa using ih k hk

/-- A parameter left by a replacement came with the type put for some parameter. -/
theorem free_of_free_replace {σ : Subst} {id : SymbolId} {t : Ty}
    (h : Free id (t.replace σ σ)) : ∃ p, Free p t ∧ Free id (σ.get p) := by
  induction t using Ty.kids_induction generalizing σ with
  | step t ih =>
    rcases t.shape with ⟨p, rfl⟩ | ⟨ts, rfl⟩ | ⟨hp, hov⟩
    · exact ⟨p, .here, by simpa using h⟩
    · rw [replace_overload, free_iff_of_ne (by simp)] at h
      obtain ⟨-, r, hr, hf⟩ := h
      obtain ⟨k, hk, rfl⟩ := List.mem_map.mp hr
      obtain ⟨p, hfp, hid⟩ := ih k hk hf
      exact ⟨p, .inside hk (by simp [Ty.binders]) hfp, hid⟩
    · rw [replace_of_ne _ _ hp hov, free_iff_of_ne (mapKids_ne_typeParam hp), binders_mapKids,
        Ty.kids_mapKids] at h
      obtain ⟨hb, r, hr, hf⟩ := h
      obtain ⟨k, hk, rfl⟩ := List.mem_map.mp hr
      obtain ⟨p, hfp, hid⟩ := ih k hk hf
      by_cases hpb : p ∈ t.binders
      · have hip : id = p := by simpa [Subst.get, Subst.hide, hpb] using hid
        exact absurd (hip ▸ hpb) hb
      · rw [Subst.get_hide_of_notMem _ hpb] at hid
        exact ⟨p, .inside hk hpb hfp, hid⟩

theorem normal_replace_of_ne (σ α : Subst) {t : Ty} (hp : ∀ id, t ≠ .typeParam id)
    (hov : ∀ ts, t ≠ .overload ts) (ha : ∀ c as, t ≠ .applied c as) :
    (t.replace σ α).normal =
      t.mapKids (Ty.normal ∘ Ty.replace (σ.hide t.binders) (α.hide t.binders)) := by
  rw [replace_of_ne _ _ hp hov, normal_of_ne (mapKids_ne_applied ha), Ty.mapKids_mapKids]

/-- Two replacements with one normal form put types of one normal form for every
free parameter. -/
theorem normal_get_of_normal_replace {σ α τ β : Subst} {t : Ty}
    (h : (t.replace σ α).normal = (t.replace τ β).normal) (id : SymbolId) :
    (Overloaded id t → (α.get id).normal = (β.get id).normal) ∧
      (Free id t → Overloaded id t ∨ (σ.get id).normal = (τ.get id).normal) := by
  induction t using Ty.kids_induction generalizing σ α τ β with
  | step t ih =>
    rcases t.shape with ⟨p, rfl⟩ | ⟨ts, rfl⟩ | ⟨hp, hov⟩
    · constructor
      · intro ho
        cases ho with
        | inside hk => simp [Ty.kids] at hk
      · intro hf
        rw [free_typeParam] at hf
        subst hf
        simpa using Or.inr h
    · have halt : ∀ k ∈ ts, (k.replace α α).normal = (k.replace β β).normal := by
        simpa [normal_overload] using h
      have hfree : ∀ k ∈ ts, Free id k → (α.get id).normal = (β.get id).normal := by
        intro k hk hf
        obtain ⟨h1, h2⟩ := ih k hk (halt k hk)
        rcases h2 hf with ho | he
        · exact h1 ho
        · exact he
      constructor
      · intro ho
        cases ho with
        | alternative hk hf => exact hfree _ hk hf
        | inside hk hb ho => exact hfree _ hk ho.free
      · intro hf
        left
        cases hf with
        | inside hk hb hf => exact .alternative hk hf
    · have hkids : ∀ k ∈ t.kids,
          (k.replace (σ.hide t.binders) (α.hide t.binders)).normal =
            (k.replace (τ.hide t.binders) (β.hide t.binders)).normal := by
        rcases t.applied_or with ⟨c, as, rfl⟩ | ha
        · rw [replace_applied, replace_applied, normal_applied, normal_applied] at h
          obtain ⟨hc, has⟩ := applyTypeCtor_injective (headNormal_normal _) (headNormal_normal _)
            (by simp) h
          simp only [List.map_map] at has
          simpa [Ty.kids, Ty.binders, hc] using has
        · rw [normal_replace_of_ne _ _ hp hov ha, normal_replace_of_ne _ _ hp hov ha] at h
          exact Ty.eq_of_mapKids_eq h
      constructor
      · intro ho
        cases ho with
        | alternative hk => exact absurd rfl (hov _)
        | inside hk hb ho =>
          obtain ⟨h1, -⟩ := ih _ hk (hkids _ hk)
          rw [← Subst.get_hide_of_notMem α hb, ← Subst.get_hide_of_notMem β hb]
          exact h1 ho
      · intro hf
        cases hf with
        | here => exact absurd rfl (hp _)
        | inside hk hb hf =>
          obtain ⟨-, h2⟩ := ih _ hk (hkids _ hk)
          rw [Subst.get_hide_of_notMem σ hb, Subst.get_hide_of_notMem τ hb] at h2
          rcases h2 hf with ho | he
          · exact Or.inl (.inside hk hb ho)
          · exact Or.inr he

/-! ## The substitution of the typer -/

theorem flagged_iff {mask : Ty → Bool} {t : Ty} :
    flagged mask t = true ↔ mask t = true ∨ ∃ k ∈ t.kids, flagged mask k = true := by
  rw [flagged]
  simp

theorem Free.flagged {mask : Ty → Bool} (hm : ∀ id, mask (.typeParam id) = true) {id : SymbolId}
    {t : Ty} (h : Free id t) : flagged mask t = true := by
  induction h with
  | here => exact flagged_iff.mpr (Or.inl (hm id))
  | inside hk _ _ ih => exact flagged_iff.mpr (Or.inr ⟨_, hk, ih⟩)

/-- The substitution a list of pairs stands for. -/
def lookupSubst (θ : List (SymbolId × Ty)) : Subst := fun id => θ.lookup id

theorem lookupSubst_filter (θ : List (SymbolId × Ty)) (params : List (SymbolId × Ty)) :
    lookupSubst (θ.filter fun q => !params.any (·.1 == q.1)) =
      (lookupSubst θ).hide (params.map Prod.fst) := by
  funext id
  induction θ with
  | nil => simp [lookupSubst, Subst.hide]
  | cons q θ ih =>
    simp only [lookupSubst, Subst.hide, List.filter_cons] at ih ⊢
    have hany : (params.any fun x => x.1 == q.1) = true ↔ q.1 ∈ params.map Prod.fst := by simp
    by_cases hq : q.1 ∈ params.map Prod.fst
    · rw [if_neg (by simpa [hany] using hq), ih]
      split
      · rfl
      · rename_i hid
        have hne : (id == q.1) = false := by
          rw [beq_eq_false_iff_ne]
          rintro rfl
          exact hid hq
        rw [List.lookup_cons, hne]
    · rw [if_pos (by rwa [Bool.not_eq_true', Bool.eq_false_iff, Ne, hany]), List.lookup_cons, List.lookup_cons, ih]
      cases hid : id == q.1 with
      | true =>
        have : id = q.1 := by simpa using hid
        simp [this, hq]
      | false => rfl

def hideParams (θ : List (SymbolId × Ty)) (t : Ty) : List (SymbolId × Ty) :=
  match t with
  | .existential params _ => θ.filter fun q => !params.any (·.1 == q.1)
  | _ => θ

theorem substRefineDecl_eq (θ : List (SymbolId × Ty)) (d : RefineDecl) :
    substRefineDecl θ d = d.mapTypes (substMap θ) := by
  cases d with
  | type name rhs tparams lo hi =>
    cases rhs <;> cases lo <;> cases hi <;> simp [substRefineDecl, RefineDecl.mapTypes]
  | method => simp [substRefineDecl, RefineDecl.mapTypes]
  | val => simp [substRefineDecl, RefineDecl.mapTypes]

@[simp] theorem substMap_typeParam (θ : List (SymbolId × Ty)) (id : SymbolId) :
    substMap θ (.typeParam id) = (lookupSubst θ).get id := by
  have hf : flagged typeParamOrAppliedFlag (.typeParam id) = true := flagged_iff.mpr (Or.inl rfl)
  simp [substMap, hf, Subst.get, lookupSubst]

@[simp] theorem substMap_applied (θ : List (SymbolId × Ty)) (c : Ty) (as : List Ty) :
    substMap θ (.applied c as) = applyTypeCtor (substMap θ c) (as.map (substMap θ)) := by
  have hf : flagged typeParamOrAppliedFlag (.applied c as) = true := flagged_iff.mpr (Or.inl rfl)
  simp [substMap, hf]

theorem substMap_of_unflagged (θ : List (SymbolId × Ty)) {t : Ty}
    (hf : flagged typeParamOrAppliedFlag t = false) : substMap θ t = t := by
  rw [substMap.eq_def]
  simp [hf]

@[simp] theorem substMap_overload (θ : List (SymbolId × Ty)) (ts : List Ty) :
    substMap θ (.overload ts) = .overload ts := by
  simp [substMap]

/-- Below every other constructor the substitution goes on, whether or not the flags
of the type let it return early. -/
theorem substMap_of_ne (θ : List (SymbolId × Ty)) {t : Ty} (hp : ∀ id, t ≠ .typeParam id)
    (hov : ∀ ts, t ≠ .overload ts) (ha : ∀ c as, t ≠ .applied c as) :
    substMap θ t = t.mapKids (substMap (hideParams θ t)) := by
  cases hf : flagged typeParamOrAppliedFlag t with
  | false =>
    have hk : ∀ k ∈ t.kids, flagged typeParamOrAppliedFlag k = false := by
      intro k hk
      by_contra hc
      have ht := flagged_iff.mpr (Or.inr ⟨k, hk, by simpa using hc⟩)
      simp [hf] at ht
    rw [substMap_of_unflagged θ hf, Ty.mapKids_eq_self]
    intro k hmem
    exact substMap_of_unflagged _ (hk k hmem)
  | true =>
    cases t with
    | typeParam id => exact absurd rfl (hp id)
    | overload ts => exact absurd rfl (hov ts)
    | applied c as => exact absurd rfl (ha c as)
    | boundedWildcard lo hi =>
      cases lo <;> cases hi <;> simp [substMap, hf, Ty.mapKids, hideParams]
    | refined ps ds => simp [substMap, hf, Ty.mapKids, hideParams, substRefineDecl_eq]
    | _ => simp [substMap, hf, Ty.mapKids, hideParams]

theorem lookupSubst_hideParams (θ : List (SymbolId × Ty)) (t : Ty) :
    lookupSubst (hideParams θ t) = (lookupSubst θ).hide t.binders := by
  cases t with
  | existential params body => exact lookupSubst_filter θ params
  | _ => simp [hideParams, Ty.binders]

/-- In normal form the typer's substitution is the replacement that leaves
overloaded alternatives alone. -/
theorem normal_substMap (θ : List (SymbolId × Ty)) (t : Ty) :
    (substMap θ t).normal = (t.replace (lookupSubst θ) Subst.none).normal := by
  induction t using Ty.kids_induction generalizing θ with
  | step t ih =>
    rcases t.shape with ⟨p, rfl⟩ | ⟨ts, rfl⟩ | ⟨hp, hov⟩
    · simp
    · have hnone : ts.map (Ty.replace Subst.none Subst.none) = ts := by
        rw [funext replace_none]
        exact List.map_id ts
      simp [hnone]
    rcases t.applied_or with ⟨c, as, rfl⟩ | ha
    · have has : as.map (fun a => (substMap θ a).normal) =
          as.map (fun a => (a.replace (lookupSubst θ) Subst.none).normal) :=
        List.map_congr_left fun a ha => ih a (by simp [Ty.kids, ha]) θ
      simp [normal_applyTypeCtor, ih c (by simp [Ty.kids]) θ, Function.comp_def, has]
    · rw [substMap_of_ne θ hp hov ha, normal_replace_of_ne _ _ hp hov ha,
        normal_of_ne (mapKids_ne_applied ha), Ty.mapKids_mapKids]
      apply Ty.mapKids_congr
      intro k hk
      rw [Function.comp_apply, ih k hk, lookupSubst_hideParams, Subst.hide_none]
      rfl

end ScalaRs.Unification
