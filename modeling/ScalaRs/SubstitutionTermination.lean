import ScalaRs.SubstitutionSpecs

/-! # When substitution ends

A type lambda may be applied to itself, and then it does not. It does if the names have kinds. -/
namespace ScalaRs.SigTypes
open Filter EnoughFuel

/-! ## Renaming keeps the size -/

theorem size_of_renaming {n : ℕ} {t r : SigType} {map : Subst} (hmap : map.IsRenaming)
    (h : applySubst n t map = some r) : r.size = t.size := by
  induction n generalizing t r map with
  | zero => cases h
  | succ n ih =>
      by_cases hempty : map.isEmpty = true
      · rw [applySubst_of_isEmpty hempty] at h
        cases h
        rfl
      · obtain ⟨kind⟩ := t
        induction kind using SigKind.cases_on_binders with
        | ref sym args =>
            obtain ⟨args', hargs, hr⟩ := applySubst_ref_eq hempty h
            have hsizes : args'.map SigType.size = args.map SigType.size :=
              map_of_mapM hargs fun a _ b hb => ih hmap hb
            have hsize (y : Name) : (SigType.ref y args').size = (SigType.ref sym args).size := by
              rw [SigType.ref, SigType.ref, SigType.size_mk, SigType.size_mk]
              exact congrArg (1 + List.sum ·) hsizes
            cases hr with
            | head y _ => exact hsize y
            | beta tparams result _ hlookup =>
                obtain ⟨y, hy⟩ := hmap _ _ hlookup
                cases hy
            | whole _ hlookup hnil =>
                obtain ⟨y, rfl⟩ := hmap _ _ hlookup
                rw [← hnil]
                exact hsize y
            | left => exact hsize sym
        | binds isPoly tparams result =>
            rw [applySubst_binder isPoly hempty] at h
            obtain ⟨⟨tparams', result'⟩, hbinder, rfl⟩ := Option.map_eq_some_iff.1 h
            obtain ⟨hbounds, hresult⟩ := @applyBinder_rel _ _ _ _ _ _ _
              (fun t u => u.size = t.size) (fun t => rfl) (fun t u v h₁ h₂ => h₂.trans h₁)
              (fun rename pick out hrenaming c c' hc => ih hrenaming.isRenaming hc)
              (fun c c' hc => ih (hmap.without tparams) hc) hbinder
            have hsizes : tparams'.map (fun tp => tp.bounds.size) =
                tparams.map fun tp => tp.bounds.size :=
              map_eq_of_forall₂ (hbounds.imp fun tp tp' hsize => hsize.1)
            rw [SigType.size_mk, SigType.size_mk, children_binder, children_binder]
            simp only [List.map_append, List.map_map, Function.comp_def, hsizes, List.map_cons,
              List.map_nil, hresult]
        | plain kind hkind =>
            rw [applySubst_plain hkind hempty] at h
            obtain ⟨kind', hkind', rfl⟩ := Option.map_eq_some_iff.1 h
            have hmaps := SigKind.map_of_traverse hkind' fun c _ c' hc' => ih hmap hc'
            have hchildren := congrArg SigKind.children hmaps
            rw [SigKind.children_map, SigKind.children_map] at hchildren
            rw [SigType.size_mk, SigType.size_mk, hchildren]

/-! ## Kinds -/

/-- The kind of a type, or of a name with parameters. -/
inductive Kind
  | star
  | arrow (params : List Kind) (result : Kind)

/-- The types that have a kind, when every name has one. -/
inductive HasKind (κ : Name → Kind) : SigType → Kind → Prop
  | name (x : Name) : HasKind κ (.ref x []) (κ x)
  | app {x : Name} {args : List SigType} {params : List Kind} {result : Kind} : args ≠ [] →
      κ x = .arrow params result → args.length = params.length →
      (∀ (i : ℕ) a k, args[i]? = some a → params[i]? = some k → HasKind κ a k) →
      HasKind κ (.ref x args) result
  | lambda {tparams : List (TParam SigType)} {result : SigType} {k : Kind} (kinds : SigType → Kind) :
      tparams ≠ [] → (∀ tp ∈ tparams, HasKind κ tp.bounds (kinds tp.bounds)) → HasKind κ result k →
      HasKind κ (.poly tparams result) (.arrow (tparams.map fun tp => κ tp.name) k)
  | binder {isPoly : Bool} {tparams : List (TParam SigType)} {result : SigType}
      (kinds : SigType → Kind) (k : Kind) : (isPoly = true → tparams = []) →
      (∀ c ∈ (binder isPoly tparams result).children, HasKind κ c (kinds c)) →
      HasKind κ (.mk (binder isPoly tparams result)) k
  | plain {kind : SigKind Name SigType} (kinds : SigType → Kind) (k : Kind) : kind.IsPlain →
      (∀ c ∈ kind.children, HasKind κ c (kinds c)) → HasKind κ (.mk kind) k

def Kinded (κ : Name → Kind) (t : SigType) : Prop := ∃ k, HasKind κ t k

/-- Every name of the map is bound to a type of its kind. -/
def KindedMap (κ : Name → Kind) (map : Subst) : Prop :=
  ∀ x v, map.lookup x = some v → HasKind κ v (κ x)

section
variable {κ : Name → Kind} {n : ℕ} {map : Subst}

theorem KindedMap.without (h : KindedMap κ map) (bound : List (TParam SigType)) :
    KindedMap κ (without map bound) := by
  intro x v hx
  rw [lookup_without] at hx
  split at hx
  · exact absurd hx (by simp)
  · exact h x v hx

theorem Renaming.kindedMap (hκ : ∀ x m, κ (suffixed x m) = κ x) {free names : List Name}
    {pick : Name → Name} {tparams out : List (TParam SigType)} {rename : Subst}
    (h : Renaming free names pick tparams out rename) : KindedMap κ rename := by
  intro x v hx
  rw [h.lookup] at hx
  split at hx
  · next hfree =>
    obtain ⟨tp, htp, rfl⟩ := List.mem_map.1 hfree.1
    obtain ⟨⟨m, hm, -, -⟩, -⟩ := h.fresh tp htp hfree.2
    cases hx
    rw [← hκ tp.name m, ← hm]
    exact .name _
  · exact absurd hx (by simp)

theorem kind_of_keeps (hκ : ∀ x m, κ (suffixed x m) = κ x) {x y : Name} (h : Keeps x y) :
    κ y = κ x := by
  rcases h with rfl | ⟨m, rfl⟩
  · rfl
  · exact hκ x m

/-- The parameters of a lambda bound to arguments of their kinds. -/
theorem kindedMap_bindings {tparams : List (TParam SigType)} {args : List SigType}
    (h : ∀ (i : ℕ) a k, args[i]? = some a → (tparams.map fun tp => κ tp.name)[i]? = some k →
      HasKind κ a k) : KindedMap κ (bindings tparams args) := by
  intro x v hx
  obtain ⟨i, tp, htp, rfl, harg⟩ := lookup_bindings hx
  exact h i v _ harg (by rw [List.getElem?_map, htp]; rfl)

theorem HasKind.kinded {t : SigType} {k : Kind} (h : HasKind κ t k) : Kinded κ t := ⟨k, h⟩

/-- Everything below a type of some kind has a kind. -/
theorem Kinded.of_mem {kind : SigKind Name SigType} (h : Kinded κ (.mk kind)) {c : SigType}
    (hc : c ∈ kind.children) : Kinded κ c := by
  obtain ⟨k, h⟩ := h
  cases h with
  | name => exact absurd hc List.not_mem_nil
  | app _ _ hlength hargs =>
      obtain ⟨i, hi⟩ := List.mem_iff_getElem?.1 hc
      have hlt := (List.getElem?_eq_some_iff.1 hi).1
      exact ⟨_, hargs i c _ hi (List.getElem?_eq_getElem (hlength ▸ hlt))⟩
  | lambda kinds _ hbounds hresult =>
      rcases List.mem_append.1 hc with hc | hc
      · obtain ⟨tp, htp, rfl⟩ := List.mem_map.1 hc
        exact ⟨_, hbounds tp htp⟩
      · exact ⟨_, List.mem_singleton.1 hc ▸ hresult⟩
  | binder kinds _ _ hall => exact ⟨_, hall c hc⟩
  | plain kinds _ _ hall => exact ⟨_, hall c hc⟩

instance : Inhabited Kind := ⟨.star⟩

theorem hasKind_plain {kind : SigKind Name SigType} (hkind : kind.IsPlain)
    (h : ∀ c ∈ kind.children, Kinded κ c) (k : Kind) : HasKind κ (.mk kind) k := by
  choose! kinds hkinds using h
  exact .plain kinds k hkind hkinds

theorem hasKind_binder {isPoly : Bool} {tparams : List (TParam SigType)} {result : SigType}
    (hpoly : isPoly = true → tparams = [])
    (h : ∀ c ∈ (binder isPoly tparams result).children, Kinded κ c) (k : Kind) :
    HasKind κ (.mk (binder isPoly tparams result)) k := by
  choose! kinds hkinds using h
  exact .binder kinds k hpoly hkinds

theorem hasKind_lambda {tparams : List (TParam SigType)} {result : SigType} {k : Kind}
    (hne : tparams ≠ []) (h : ∀ tp ∈ tparams, Kinded κ tp.bounds) (hresult : HasKind κ result k) :
    HasKind κ (.poly tparams result) (.arrow (tparams.map fun tp => κ tp.name) k) := by
  have hall : ∀ c ∈ tparams.map (·.bounds), Kinded κ c := by
    intro c hc
    obtain ⟨tp, htp, rfl⟩ := List.mem_map.1 hc
    exact h tp htp
  choose! kinds hkinds using hall
  exact .lambda kinds hne (fun tp htp => hkinds _ (List.mem_map.2 ⟨tp, htp, rfl⟩)) hresult

theorem hasKind_ref_iff {x : Name} {args : List SigType} {k : Kind} :
    HasKind κ (.ref x args) k ↔ (args = [] ∧ k = κ x) ∨ (args ≠ [] ∧ ∃ params,
      κ x = .arrow params k ∧ args.length = params.length ∧
        ∀ (i : ℕ) a k, args[i]? = some a → params[i]? = some k → HasKind κ a k) := by
  constructor
  · intro h
    generalize ht : SigType.ref x args = t at h
    cases h with
    | name =>
        cases ht
        exact .inl ⟨rfl, rfl⟩
    | app hne hx hlength hargs =>
        cases ht
        exact .inr ⟨hne, _, hx, hlength, hargs⟩
    | lambda => cases ht
    | @binder isPoly => cases isPoly <;> cases ht
    | plain _ _ hkind =>
        cases ht
        exact absurd hkind id
  · intro h
    rcases h with ⟨rfl, rfl⟩ | ⟨hne, params, hx, hlength, hargs⟩
    · exact .name x
    · exact .app hne hx hlength hargs

/-- A lambda with parameters has only the kind of its parameters and its body. -/
theorem hasKind_poly {tparams : List (TParam SigType)} {result : SigType} {k : Kind}
    (h : HasKind κ (.poly tparams result) k) (hne : tparams ≠ []) :
    ∃ k', k = .arrow (tparams.map fun tp => κ tp.name) k' ∧ HasKind κ result k' := by
  generalize ht : SigType.poly tparams result = t at h
  cases h with
  | name => cases ht
  | app => cases ht
  | lambda _ _ _ hresult =>
      cases ht
      exact ⟨_, rfl, hresult⟩
  | @binder isPoly _ _ _ _ hpoly =>
      cases isPoly with
      | true =>
          cases ht
          exact absurd (hpoly rfl) hne
      | false => cases ht
  | plain _ _ hkind =>
      cases ht
      exact absurd hkind id

/-- Substitution keeps the kind. -/
theorem hasKind_applySubst (hκ : ∀ x m, κ (suffixed x m) = κ x) {t r : SigType} {k : Kind}
    (hmap : KindedMap κ map) (ht : HasKind κ t k) (h : applySubst n t map = some r) :
    HasKind κ r k := by
  induction n generalizing t r k map with
  | zero => cases h
  | succ n ih =>
      by_cases hempty : map.isEmpty = true
      · rw [applySubst_of_isEmpty hempty] at h
        cases h
        exact ht
      · obtain ⟨kind⟩ := t
        induction kind using SigKind.cases_on_binders with
        | ref sym args =>
            obtain ⟨args', hargs, hr⟩ := applySubst_ref_eq hempty h
            have hpairs := forall₂_of_mapM hargs
            have hlength := hpairs.length_eq
            have hnil : args' = [] ↔ args = [] := by
              rw [← List.length_eq_zero_iff, ← hlength, List.length_eq_zero_iff]
            -- A reference to a name of the same kind keeps the kind.
            have hsame (y : Name) (hy : κ y = κ sym) : HasKind κ (.ref y args') k := by
              rcases hasKind_ref_iff.1 ht with ⟨hargs, hk⟩ | ⟨hne, params, hx, hparams, hall⟩
              · exact hasKind_ref_iff.2 (.inl ⟨hnil.2 hargs, hk.trans hy.symm⟩)
              · refine hasKind_ref_iff.2 (.inr ⟨fun h => hne (hnil.1 h), params, hy.trans hx,
                  hlength.symm.trans hparams, fun i a' k' ha' hk' => ?_⟩)
                obtain ⟨a, ha, haa'⟩ := getElem?_of_mapM hargs ha'
                exact ih hmap (hall i a k' ha hk') haa'
            cases hr with
            | head y hy =>
                rcases hasKind_ref_iff.1 (hmap _ _ hy) with ⟨-, hk⟩ | ⟨hne, -⟩
                · exact hsame y hk.symm
                · exact absurd rfl hne
            | beta tparams result _ hlookup hne hparams hbeta =>
                rcases hasKind_ref_iff.1 ht with ⟨hargs, -⟩ | ⟨-, params, hx, hcount, hall⟩
                · exact absurd (hnil.2 hargs) hne
                · have htparams : tparams ≠ [] := by
                    intro htparams
                    rw [htparams] at hparams
                    exact hne (List.length_eq_zero_iff.1 hparams.symm)
                  obtain ⟨k', hkind, hbody⟩ := hasKind_poly (hmap _ _ hlookup) htparams
                  rw [hx] at hkind
                  cases hkind
                  apply ih (kindedMap_bindings fun i a' k' ha' hk' => ?_) hbody hbeta
                  obtain ⟨a, ha, haa'⟩ := getElem?_of_mapM hargs ha'
                  exact ih hmap (hall i a k' ha hk') haa'
            | whole _ hlookup hargs =>
                rcases hasKind_ref_iff.1 ht with ⟨-, hk⟩ | ⟨hne, -⟩
                · exact hk ▸ hmap _ _ hlookup
                · exact absurd (hnil.1 hargs) hne
            | left => exact hsame sym rfl
        | binds isPoly tparams result =>
            rw [applySubst_binder isPoly hempty] at h
            obtain ⟨⟨tparams', result'⟩, hbinder, rfl⟩ := Option.map_eq_some_iff.1 h
            obtain ⟨hpairs, hresult⟩ := @applyBinder_rel _ _ _ _ _ _ _
              (fun t u => ∀ k, HasKind κ t k → HasKind κ u k) (fun t k hk => hk)
              (fun t u v h₁ h₂ k hk => h₂ k (h₁ k hk))
              (fun rename pick out hrenaming c c' hc k hk => ih (hrenaming.kindedMap hκ) hk hc)
              (fun c c' hc k hk => ih (hmap.without tparams) hk hc) hbinder
            have hnames : tparams'.map (fun tp => κ tp.name) = tparams.map fun tp => κ tp.name :=
              map_eq_of_forall₂ (hpairs.imp fun tp tp' hpair => kind_of_keeps hκ hpair.2)
            have hbounds : ∀ tp' ∈ tparams', Kinded κ tp'.bounds := by
              intro tp' htp'
              obtain ⟨tp, htp, hpair⟩ := exists_of_forall₂ hpairs htp'
              obtain ⟨k', hk'⟩ := ht.kinded.of_mem (c := tp.bounds) (by
                rw [children_binder]
                exact List.mem_append_left _ (List.mem_map.2 ⟨tp, htp, rfl⟩))
              exact ⟨k', hpair.1 k' hk'⟩
            by_cases hlambda : isPoly = true ∧ tparams ≠ []
            · obtain ⟨rfl, hne⟩ := hlambda
              obtain ⟨k', rfl, hk'⟩ := hasKind_poly ht hne
              rw [← hnames]
              apply hasKind_lambda _ hbounds (hresult k' hk')
              intro hnil
              rw [hnil] at hpairs
              exact hne (List.forall₂_nil_right_iff.1 hpairs)
            · apply hasKind_binder
              · intro hpoly
                have hnil : tparams = [] := not_not.1 fun hne => hlambda ⟨hpoly, hne⟩
                rw [hnil] at hpairs
                exact List.forall₂_nil_left_iff.1 hpairs
              · intro c hc
                rw [children_binder, List.mem_append, List.mem_singleton] at hc
                rcases hc with hc | rfl
                · obtain ⟨tp', htp', rfl⟩ := List.mem_map.1 hc
                  exact hbounds tp' htp'
                · obtain ⟨k', hk'⟩ := ht.kinded.of_mem (c := result) (by
                    rw [children_binder]
                    exact List.mem_append_right _ List.mem_cons_self)
                  exact ⟨k', hresult k' hk'⟩
        | plain kind hkind =>
            rw [applySubst_plain hkind hempty] at h
            obtain ⟨kind', hkind', rfl⟩ := Option.map_eq_some_iff.1 h
            apply hasKind_plain (SigKind.isPlain_of_traverse hkind' hkind)
            intro c' hc'
            obtain ⟨c, hc, hcc'⟩ := SigKind.mem_of_traverse hkind' hc'
            obtain ⟨k', hk'⟩ := ht.kinded.of_mem hc
            exact ⟨k', ih hmap hk' hcc'⟩

end

/-! ## Termination -/

/-- Nothing is bound to a type lambda. -/
def NoLambda (map : Subst) : Prop :=
  ∀ x tparams result, map.lookup x = some (.poly tparams result) → tparams = []

/-- Either there are no lambdas or all is kinded, with a bound on the kinds of the lambdas. -/
def Tame (κ : Name → Kind) (b : ℕ) (t : SigType) (map : Subst) : Prop :=
  NoLambda map ∨ (Kinded κ t ∧ KindedMap κ map ∧
    ∀ x tparams result, map.lookup x = some (.poly tparams result) → tparams ≠ [] →
      sizeOf (κ x) ≤ b)

section
variable {κ : Name → Kind} {map : Subst}

theorem noLambda_of_isRenaming (h : map.IsRenaming) : NoLambda map := by
  intro x tparams result hx
  obtain ⟨y, hy⟩ := h x _ hx
  cases hy

theorem Tame.of_mem {b : ℕ} {kind : SigKind Name SigType} (h : Tame κ b (.mk kind) map)
    {c : SigType} (hc : c ∈ kind.children) : Tame κ b c map :=
  h.imp_right fun h => ⟨h.1.of_mem hc, h.2⟩

theorem Tame.without {b : ℕ} {t : SigType} (h : Tame κ b t map) (bound : List (TParam SigType)) :
    Tame κ b t (without map bound) := by
  have hsub {x : Name} {v : SigType} (hx : (SigTypes.without map bound).lookup x = some v) :
      map.lookup x = some v := by
    rw [lookup_without] at hx
    split at hx
    · exact absurd hx (by simp)
    · exact hx
  rcases h with h | ⟨ht, hmap, hb⟩
  · exact .inl fun x tparams result hx => h x tparams result (hsub hx)
  · exact .inr ⟨ht, hmap.without bound, fun x tparams result hx => hb x tparams result (hsub hx)⟩

theorem Tame.of_renamed (hκ : ∀ x m, κ (suffixed x m) = κ x) {b n : ℕ} {t t' : SigType}
    (h : Tame κ b t map) {rename : Subst} (hrename : KindedMap κ rename)
    (ht' : applySubst n t rename = some t') : Tame κ b t' map := by
  apply h.imp_right
  intro h
  obtain ⟨k, hk⟩ := h.1
  exact ⟨⟨k, hasKind_applySubst hκ hrename hk ht'⟩, h.2⟩

/-- The arguments of a lambda have smaller kinds than it has. -/
theorem Tame.beta (hκ : ∀ x m, κ (suffixed x m) = κ x) {b n : ℕ} {sym : Name}
    {args args' : List SigType} {tparams : List (TParam SigType)} {body : SigType}
    (h : Tame κ b (.ref sym args) map)
    (hargs : args.mapM (fun a => applySubst n a map) = some args')
    (hlookup : map.lookup sym = some (.poly tparams body)) (hne : args' ≠ [])
    (hlength : tparams.length = args'.length) :
    ∃ b' < b, Tame κ b' body (bindings tparams args') := by
  have htparams : tparams ≠ [] := by
    intro hnil
    rw [hnil] at hlength
    exact hne (List.length_eq_zero_iff.1 hlength.symm)
  rcases h with h | ⟨⟨k, hk⟩, hmap, hb⟩
  · exact absurd (h sym tparams body hlookup) htparams
  · have hnargs : args ≠ [] := by
      intro hnil
      rw [hnil] at hargs
      cases hargs
      exact hne rfl
    obtain ⟨params, hx, hcount, hall⟩ :=
      ((hasKind_ref_iff.1 hk).resolve_left fun h => hnargs h.1).2
    obtain ⟨k', hkind, hbody⟩ := hasKind_poly (hmap _ _ hlookup) htparams
    rw [hx] at hkind
    cases hkind
    have hsize := hb sym tparams body hlookup htparams
    rw [hx, Kind.arrow.sizeOf_spec] at hsize
    refine ⟨b - 1, by omega, .inr ⟨⟨_, hbody⟩, kindedMap_bindings fun i a' k' ha' hk' => ?_, ?_⟩⟩
    · obtain ⟨a, ha, haa'⟩ := getElem?_of_mapM hargs ha'
      exact hasKind_applySubst hκ hmap (hall i a k' ha hk') haa'
    · intro x tparams' result' hx' _
      obtain ⟨i, tp, htp, rfl, -⟩ := lookup_bindings hx'
      have hmem : κ tp.name ∈ tparams.map fun tp => κ tp.name :=
        List.mem_map.2 ⟨tp, List.mem_of_getElem? htp, rfl⟩
      have hlt := List.sizeOf_lt_of_mem hmem
      omega

/-- The step: it ends for smaller types, and for maps with lambdas of smaller kinds. -/
theorem ends_of_smaller (hκ : ∀ x m, κ (suffixed x m) = κ x) {b : ℕ}
    (hsmaller : ∀ b' < b, ∀ t map, Tame κ b' t map → Ends t map) {t : SigType}
    (hbelow : ∀ t', t'.size < t.size → ∀ map, Tame κ b t' map → Ends t' map)
    (h : Tame κ b t map) : Ends t map := by
  by_cases hempty : map.isEmpty = true
  · exact ends_of_isEmpty hempty t
  · obtain ⟨kind⟩ := t
    have hchild {c : SigType} (hc : c ∈ kind.children) : Ends c map :=
      hbelow c (SigType.size_lt_of_mem hc) map (h.of_mem hc)
    induction kind using SigKind.cases_on_binders with
    | ref sym args =>
        apply ends_ref hempty fun a ha => hchild ha
        intro n args' tparams body hargs hlookup hne hlength
        obtain ⟨b', hb', htame⟩ := h.beta hκ hargs hlookup hne hlength
        exact hsmaller b' hb' body _ htame
    | binds isPoly tparams result =>
        have hmem {c : SigType} (hc : c ∈ result :: tparams.map (·.bounds)) :
            c ∈ (binder isPoly tparams result).children := by
          rw [children_binder, List.mem_append, List.mem_singleton]
          exact (List.mem_cons.1 hc).symm
        apply ends_binder isPoly hempty
        apply applyBinder_ends
        · intro rename hrename c hc
          exact hbelow c (SigType.size_lt_of_mem (hmem hc)) rename
            (.inl (noLambda_of_isRenaming hrename))
        · intro n tparams' result' havoid c' hc'
          rcases avoidCapture_eq havoid with ⟨rfl, rfl, -⟩ | ⟨pick, out, rename, hrenaming, hout, hres⟩
          · exact hbelow c' (SigType.size_lt_of_mem (hmem hc')) _ ((h.of_mem (hmem hc')).without _)
          · -- What is renamed comes from something below of the same size.
            have hcome : ∃ c ∈ result :: tparams.map (·.bounds), applySubst n c rename = some c' := by
              rcases List.mem_cons.1 hc' with rfl | hc'
              · exact ⟨result, List.mem_cons_self, hres⟩
              · obtain ⟨tp', htp', rfl⟩ := List.mem_map.1 hc'
                obtain ⟨tp, htp, hstep⟩ := exists_of_forall₂ (forall₂_of_mapM hout) htp'
                refine ⟨tp.bounds, List.mem_cons_of_mem _ ?_, (TParam.traverse_eq_some.1 hstep).1⟩
                rw [← hrenaming.bounds]
                exact List.mem_map.2 ⟨tp, htp, rfl⟩
            obtain ⟨c, hc, hcc'⟩ := hcome
            have hsize := size_of_renaming hrenaming.isRenaming hcc'
            apply hbelow c' (hsize ▸ SigType.size_lt_of_mem (hmem hc))
            exact ((h.of_mem (hmem hc)).of_renamed hκ (hrenaming.kindedMap hκ) hcc').without _
    | plain kind hkind => exact ends_plain hkind hempty fun c hc => hchild hc

theorem ends_of_tame (hκ : ∀ x m, κ (suffixed x m) = κ x) (b : ℕ) :
    ∀ t map, Tame κ b t map → Ends t map := by
  induction b using Nat.strong_induction_on with
  | _ b ih =>
      intro t
      induction hm : t.size using Nat.strong_induction_on generalizing t with
      | _ m ihm =>
          intro map h
          apply ends_of_smaller hκ ih (fun t' ht' => ?_) h
          exact ihm t'.size (hm ▸ ht') t' rfl

end

/-- `F` has the kind of a type constructor, the other names that of a type. -/
def exampleKinds (x : Name) : Kind :=
  if x.head? = some 'F' then .arrow [.star] .star else .star

theorem exampleKinds_suffixed (x : Name) (m : ℕ) :
    exampleKinds (suffixed x m) = exampleKinds x := by
  cases x <;> rfl

/-- `[X] =>> X` -/
def identity : SigType := .poly [⟨['X'], .mk .none, 0⟩] (.ref ['X'] [])

/-- `[X] =>> X[X]` -/
def selfApplication : SigType :=
  .poly [⟨['X'], .mk .none, 0⟩] (.ref ['X'] [.ref ['X'] []])

theorem applySubst_selfApplication (x : Name) (n : ℕ) :
    applySubst n (.ref x [.ref x []]) (AList.insert x selfApplication ∅) = none := by
  have hempty : ¬Subst.isEmpty (AList.insert x selfApplication ∅) = true := Bool.false_ne_true
  have hlookup : AList.lookup x (AList.insert x selfApplication ∅ : Subst) = some selfApplication :=
    AList.lookup_insert _
  induction n generalizing x with
  | zero => rfl
  | succ n ih =>
      rw [SigType.ref, applySubst, if_neg hempty, List.mapM_cons]
      cases n with
      | zero => rfl
      | succ n =>
          -- The argument becomes the lambda, which is then applied to itself.
          have harg : applySubst (n + 1) (.ref x []) (AList.insert x selfApplication ∅) =
              some selfApplication := by
            rw [SigType.ref, applySubst, if_neg hempty, List.mapM_nil]
            simp only [Option.pure_def, Option.bind_eq_bind, Option.bind_some, hlookup]
            rfl
          rw [harg]
          simp only [List.mapM_nil, Option.pure_def, Option.bind_eq_bind, Option.bind_some, hlookup]
          exact ih ['X'] Bool.false_ne_true (AList.lookup_insert _)

end ScalaRs.SigTypes
