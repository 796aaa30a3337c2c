import Mathlib.Data.Set.Finite.Lattice
import Mathlib.Order.Interval.Set.Infinite
import ScalaRs.EnoughFuel
import ScalaRs.TypeSubstitution

/-! # What the parts of a substitution do

The fresh names, the renaming that they make, and the cases of one step. -/
namespace ScalaRs.SigTypes
open Filter EnoughFuel

/-! ## Maps -/

theorem Subst.isEmpty_iff {map : Subst} : map.isEmpty = true ↔ map = ∅ := by
  rw [Subst.isEmpty, List.isEmpty_iff]
  constructor
  · intro h
    exact AList.ext h
  · intro h
    rw [h]
    rfl

theorem Subst.mem_values {map : Subst} {v : SigType} :
    v ∈ map.values ↔ ∃ x, map.lookup x = some v := by
  rw [Subst.values, List.mem_map]
  constructor
  · intro h
    obtain ⟨⟨x, v⟩, he, rfl⟩ := h
    exact ⟨x, AList.mem_lookup_iff.2 he⟩
  · intro h
    obtain ⟨x, hx⟩ := h
    exact ⟨⟨x, v⟩, AList.mem_lookup_iff.1 hx, rfl⟩

theorem lookup_without (map : Subst) (bound : List (TParam SigType)) (x : Name) :
    (without map bound).lookup x =
      if x ∈ bound.map (·.name) then none else map.lookup x := by
  rw [without]
  induction bound generalizing map with
  | nil => rfl
  | cons tp bound ih =>
      rw [List.foldl_cons, ih, List.map_cons]
      by_cases hx : x = tp.name
      · subst hx
        simp [AList.lookup_erase]
      · rw [AList.lookup_erase_ne hx]
        simp [hx]

/-- What a parameter is bound to is one of the arguments. -/
theorem lookup_bindings {tparams : List (TParam SigType)} {args : List SigType} {x : Name}
    {v : SigType} (h : (bindings tparams args).lookup x = some v) :
    ∃ (i : ℕ) (tp : TParam SigType), tparams[i]? = some tp ∧ tp.name = x ∧ args[i]? = some v := by
  have hfold : ∀ (l : List (TParam SigType × SigType)) (m : Subst),
      (l.foldl (fun m p => m.insert p.1.name p.2) m).lookup x = some v →
        m.lookup x = some v ∨ ∃ p ∈ l, p.1.name = x ∧ p.2 = v := by
    intro l
    induction l with
    | nil => exact fun m hm => .inl hm
    | cons p l ih =>
        intro m hm
        rcases ih _ hm with hm | ⟨q, hq, hname, hv⟩
        · by_cases hx : x = p.1.name
          · rw [hx, AList.lookup_insert] at hm
            exact .inr ⟨p, List.mem_cons_self, hx.symm, Option.some.inj hm⟩
          · rw [AList.lookup_insert_ne hx] at hm
            exact .inl hm
        · exact .inr ⟨q, List.mem_cons_of_mem p hq, hname, hv⟩
  rcases hfold _ _ h with hempty | ⟨⟨tp, arg⟩, hmem, hname, rfl⟩
  · exact absurd hempty (by simp)
  · obtain ⟨i, hi⟩ := List.mem_iff_getElem?.1 hmem
    obtain ⟨htp, harg⟩ := List.getElem?_zip_eq_some.1 hi
    exact ⟨i, tp, htp, hname, harg⟩

/-! ## Fresh names -/

/-- The first suffixed name that is not taken. -/
def IsFresh (taken : List Name) (name y : Name) : Prop :=
  (∃ m, y = suffixed name m ∧ 1 ≤ m ∧ ∀ i, 1 ≤ i → i < m → suffixed name i ∈ taken) ∧ y ∉ taken

theorem freshName_eq_some {taken : List Name} {name y : Name} {n k : ℕ}
    (h : freshName taken name n k = some y) (hone : 1 ≤ k)
    (hk : ∀ i, 1 ≤ i → i < k → suffixed name i ∈ taken) : IsFresh taken name y := by
  induction n generalizing k with
  | zero => cases h
  | succ n ih =>
      rw [freshName] at h
      split at h
      · next htaken =>
        apply ih h (by omega)
        intro i hi hik
        rcases Nat.lt_succ_iff_lt_or_eq.1 hik with hik | rfl
        · exact hk i hi hik
        · exact htaken
      · next hfree =>
        cases h
        exact ⟨⟨k, rfl, hone, hk⟩, hfree⟩

/-- The last dollar sign is where the suffix begins. -/
theorem suffixed_injective {name name' : Name} {n n' : ℕ} (h : suffixed name n = suffixed name' n') :
    name = name' ∧ n = n' := by
  have hsplit (name : Name) (n : ℕ) :
      (suffixed name n).reverse.takeWhile (·.isDigit) = (Nat.toDigits 10 n).reverse ∧
        (suffixed name n).reverse.dropWhile (·.isDigit) = '$' :: name.reverse := by
    have hdigits : ∀ c ∈ (Nat.toDigits 10 n).reverse, c.isDigit = true := fun c hc =>
      Nat.isDigit_of_mem_toDigits (by omega) (by omega) (List.mem_reverse.1 hc)
    have hreverse : (suffixed name n).reverse = (Nat.toDigits 10 n).reverse ++ '$' :: name.reverse := by
      simp [suffixed]
    rw [hreverse, List.takeWhile_append_of_pos hdigits, List.dropWhile_append_of_pos hdigits]
    simp
  have hdigits := (hsplit name n).1
  have hname := (hsplit name n).2
  rw [h, (hsplit name' n').1] at hdigits
  rw [h, (hsplit name' n').2] at hname
  refine ⟨(List.reverse_injective (List.cons.inj hname).2).symm, ?_⟩
  rw [← @Nat.ofDigitChars_ten_toDigits n, ← List.reverse_injective hdigits,
    Nat.ofDigitChars_ten_toDigits]

theorem freshName_ends (taken : List Name) (name : Name) (k : ℕ) :
    ∃ y, ∀ᶠ n in atTop, freshName taken name n k = some y := by
  -- Only finitely many of the suffixed names are taken.
  have hfinite : {m | suffixed name m ∈ taken}.Finite :=
    Set.Finite.preimage (fun m _ m' _ h => (suffixed_injective h).2) taken.finite_toSet
  obtain ⟨m, hm, hk⟩ : ∃ m, suffixed name m ∉ taken ∧ k ≤ m := by
    obtain ⟨m, hm⟩ := (hfinite.union (Set.finite_lt_nat k)).exists_notMem
    rw [Set.mem_union, not_or] at hm
    exact ⟨m, hm.1, Nat.le_of_not_lt hm.2⟩
  obtain ⟨d, rfl⟩ := Nat.exists_eq_add_of_le hk
  clear hk
  induction d generalizing k with
  | zero =>
      exact ⟨suffixed name k, eventually_succ (.of_forall fun n => if_neg hm)⟩
  | succ d ih =>
      by_cases htaken : suffixed name k ∈ taken
      · obtain ⟨y, hy⟩ := ih (k + 1) (by rwa [Nat.add_right_comm, Nat.add_assoc])
        refine ⟨y, eventually_succ ?_⟩
        filter_upwards [hy] with n hn
        rw [freshName, if_pos htaken, hn]
      · exact ⟨suffixed name k, eventually_succ (.of_forall fun n => if_neg htaken)⟩

/-! ## Renamed binders -/

attribute [local instance] lawfulNames

/-- The parameter with its new name, if it gets one. -/
def renamed (free : List Name) (pick : Name → Name) (tp : TParam SigType) : TParam SigType :=
  if tp.name ∈ free then ⟨pick tp.name, tp.bounds, tp.variance⟩ else tp

/-- How the binders are renamed: the new names, and the map to them. -/
structure Renaming (free names : List Name) (pick : Name → Name) (tparams : List (TParam SigType))
    (out : List (TParam SigType)) (rename : Subst) : Prop where
  fresh : ∀ tp ∈ tparams, tp.name ∈ free → IsFresh (free ++ names) tp.name (pick tp.name)
  out_eq : out = tparams.map (renamed free pick)
  lookup : ∀ x, rename.lookup x =
    if x ∈ tparams.map (·.name) ∧ x ∈ free then some (.ref (pick x) []) else none

/-- The names that the binders get, with some amount of fuel. -/
def picked (n : ℕ) (free names : List Name) (x : Name) : Name :=
  (freshName (free ++ names) x n 1).getD x

theorem renaming_nil (free names : List Name) (pick : Name → Name) :
    Renaming free names pick [] [] ∅ where
  fresh _ h := absurd h List.not_mem_nil
  out_eq := rfl
  lookup x := by simp

theorem Renaming.concat {free names : List Name} {pick : Name → Name}
    {tparams out : List (TParam SigType)} {rename : Subst}
    (h : Renaming free names pick tparams out rename) {tp : TParam SigType}
    (hfresh : tp.name ∈ free → IsFresh (free ++ names) tp.name (pick tp.name)) :
    Renaming free names pick (tparams ++ [tp]) (out ++ [renamed free pick tp])
      (if tp.name ∈ free then rename.insert tp.name (.ref (pick tp.name) []) else rename) := by
  constructor
  · intro tp' hmem
    rcases List.mem_append.1 hmem with hmem | hmem
    · exact h.fresh tp' hmem
    · rw [List.mem_singleton.1 hmem]
      exact hfresh
  · rw [h.out_eq, List.map_append, List.map_singleton]
  · intro x
    simp only [List.map_append, List.map_singleton, List.mem_append, List.mem_singleton]
    by_cases hx : x = tp.name
    · subst hx
      split
      · next hfree => simp [AList.lookup_insert, hfree]
      · next hfree => simp [h.lookup, hfree]
    · split
      · rw [AList.lookup_insert_ne hx, h.lookup]
        simp [hx]
      · rw [h.lookup]
        simp [hx]

theorem renameBinder_eq {n : ℕ} {free names : List Name} {acc acc' : List (TParam SigType) × Subst}
    {tp : TParam SigType} (h : renameBinder n free names acc tp = some acc') :
    acc' = (acc.1 ++ [renamed free (picked n free names) tp],
      if tp.name ∈ free then acc.2.insert tp.name (.ref (picked n free names tp.name) [])
      else acc.2) ∧
    (tp.name ∈ free → IsFresh (free ++ names) tp.name (picked n free names tp.name)) := by
  rw [renameBinder] at h
  split at h
  · next hfree =>
    obtain ⟨fresh, hfresh, h⟩ := Option.bind_eq_some_iff.1 h
    cases h
    have hpick : picked n free names tp.name = fresh := by rw [picked, hfresh]; rfl
    have hspec := freshName_eq_some hfresh (by omega) fun i hi hlt => absurd hlt (by omega)
    rw [renamed, if_pos hfree, if_pos hfree, hpick]
    exact ⟨rfl, fun _ => hspec⟩
  · next hfree =>
    cases h
    rw [renamed, if_neg hfree, if_neg hfree]
    exact ⟨rfl, fun hin => absurd hin hfree⟩

theorem renaming_foldlM {n : ℕ} {free names : List Name} {tparams out : List (TParam SigType)}
    {rename : Subst} (h : tparams.foldlM (renameBinder n free names) ([], ∅) = some (out, rename)) :
    Renaming free names (picked n free names) tparams out rename := by
  induction tparams using List.reverseRecOn generalizing out rename with
  | nil =>
      cases h
      exact renaming_nil free names _
  | append_singleton tparams tp ih =>
      rw [List.foldlM_append] at h
      obtain ⟨⟨out', rename'⟩, hfold, h⟩ := Option.bind_eq_some_iff.1 h
      rw [List.foldlM_cons] at h
      obtain ⟨acc, hstep, h⟩ := Option.bind_eq_some_iff.1 h
      obtain ⟨heq, hfresh⟩ := renameBinder_eq hstep
      cases h
      cases heq
      exact (ih hfold).concat hfresh

theorem foldlM_renameBinder_ends (free names : List Name) (tparams : List (TParam SigType))
    (acc : List (TParam SigType) × Subst) :
    ∃ acc', ∀ᶠ n in atTop, tparams.foldlM (renameBinder n free names) acc = some acc' := by
  induction tparams generalizing acc with
  | nil => exact ⟨acc, .of_forall fun n => rfl⟩
  | cons tp tparams ih =>
      have hstep : ∃ acc', ∀ᶠ n in atTop, renameBinder n free names acc tp = some acc' := by
        by_cases hfree : tp.name ∈ free
        · obtain ⟨y, hy⟩ := freshName_ends (free ++ names) tp.name 1
          refine ⟨(acc.1 ++ [⟨y, tp.bounds, tp.variance⟩], acc.2.insert tp.name (.ref y [])), ?_⟩
          filter_upwards [hy] with n hn
          rw [renameBinder, if_pos hfree, hn]
          rfl
        · exact ⟨(acc.1 ++ [tp], acc.2), .of_forall fun n => if_neg hfree⟩
      obtain ⟨acc', hacc'⟩ := hstep
      obtain ⟨acc'', hacc''⟩ := ih acc'
      refine ⟨acc'', ?_⟩
      filter_upwards [hacc', hacc''] with n hn hn'
      rw [List.foldlM_cons, hn]
      exact hn'

/-- A map to names only. -/
def Subst.IsRenaming (map : Subst) : Prop := ∀ x v, map.lookup x = some v → ∃ y, v = .ref y []

theorem Renaming.isRenaming {free names : List Name} {pick : Name → Name}
    {tparams out : List (TParam SigType)} {rename : Subst}
    (h : Renaming free names pick tparams out rename) : rename.IsRenaming := by
  intro x v hx
  rw [h.lookup] at hx
  split at hx
  · exact ⟨pick x, (Option.some.inj hx).symm⟩
  · exact absurd hx (by simp)

theorem Subst.IsRenaming.without {map : Subst} (h : map.IsRenaming)
    (bound : List (TParam SigType)) : (without map bound).IsRenaming := by
  intro x v hx
  rw [lookup_without] at hx
  split at hx
  · exact absurd hx (by simp)
  · exact h x v hx

theorem Renaming.bounds {free names : List Name} {pick : Name → Name}
    {tparams out : List (TParam SigType)} {rename : Subst}
    (h : Renaming free names pick tparams out rename) :
    out.map (·.bounds) = tparams.map (·.bounds) := by
  rw [h.out_eq, List.map_map]
  apply List.map_congr_left
  intro tp _
  rw [Function.comp_apply, renamed]
  split <;> rfl

/-! ## Steps -/

variable {apply : SigType → Subst → Option SigType} {n : ℕ} {tparams tparams' : List (TParam SigType)}
  {result result' : SigType} {map : Subst}

/-- The binders keep their names, or they are renamed. -/
theorem avoidCapture_eq (h : avoidCapture apply n tparams result map = some (tparams', result')) :
    (tparams' = tparams ∧ result' = result ∧
      (map = ∅ ∨ ∀ tp ∈ tparams, tp.name ∉ map.values.flatMap bareNames)) ∨
    ∃ pick out rename, Renaming (map.values.flatMap bareNames) (tparams.map (·.name)) pick tparams
        out rename ∧
      out.mapM (TParam.traverse fun t => apply t rename) = some tparams' ∧
      apply result rename = some result' := by
  rw [avoidCapture] at h
  split at h
  · next hempty =>
    cases h
    exact .inl ⟨rfl, rfl, .inl (Subst.isEmpty_iff.1 hempty)⟩
  · obtain ⟨⟨out, rename⟩, hfold, h⟩ := Option.bind_eq_some_iff.1 h
    have hrenaming := renaming_foldlM hfold
    dsimp only at h
    split at h
    · next hempty =>
      cases h
      have hnone : ∀ tp ∈ tparams, tp.name ∉ map.values.flatMap bareNames := by
        intro tp htp hfree
        have hlookup := hrenaming.lookup tp.name
        rw [Subst.isEmpty_iff.1 hempty, if_pos ⟨List.mem_map.2 ⟨tp, htp, rfl⟩, hfree⟩] at hlookup
        exact absurd hlookup (by simp)
      have hid : ∀ tp ∈ tparams, renamed (map.values.flatMap bareNames)
          (picked n (map.values.flatMap bareNames) (tparams.map (·.name))) tp = id tp :=
        fun tp htp => if_neg (hnone tp htp)
      refine .inl ⟨?_, rfl, .inr hnone⟩
      rw [hrenaming.out_eq, List.map_congr_left hid, List.map_id]
    · obtain ⟨out', hout, h⟩ := Option.bind_eq_some_iff.1 h
      obtain ⟨result'', hresult, h⟩ := Option.bind_eq_some_iff.1 h
      cases h
      exact .inr ⟨_, out, rename, hrenaming, hout, hresult⟩

theorem applyBinder_eq (h : applyBinder apply n tparams result map = some (tparams', result')) :
    ∃ tparams₁ result₁,
      avoidCapture apply n tparams result (without map tparams) = some (tparams₁, result₁) ∧
      tparams₁.mapM (TParam.traverse fun t => apply t (without map tparams)) = some tparams' ∧
      apply result₁ (without map tparams) = some result' := by
  obtain ⟨⟨tparams₁, result₁⟩, havoid, h⟩ := Option.bind_eq_some_iff.1 h
  obtain ⟨tparams₂, htparams, h⟩ := Option.bind_eq_some_iff.1 h
  obtain ⟨result₂, hresult, h⟩ := Option.bind_eq_some_iff.1 h
  cases h
  exact ⟨tparams₁, result₁, havoid, htparams, hresult⟩

theorem forall₂_trans {α : Type} {P Q S : α → α → Prop} {l₁ l₂ l₃ : List α}
    (h₁ : List.Forall₂ P l₁ l₂) (h₂ : List.Forall₂ Q l₂ l₃)
    (h : ∀ a b c, P a b → Q b c → S a c) : List.Forall₂ S l₁ l₃ := by
  induction h₁ generalizing l₃ with
  | nil =>
      cases h₂
      exact .nil
  | cons hab _ ih =>
      cases h₂ with
      | cons hbc h₂ => exact .cons (h _ _ _ hab hbc) (ih h₂)

theorem map_eq_of_forall₂ {α β γ : Type} {f : α → γ} {g : β → γ} {l : List α} {l' : List β}
    (h : List.Forall₂ (fun a b => g b = f a) l l') : l'.map g = l.map f := by
  induction h with
  | nil => rfl
  | cons hab _ ih => rw [List.map_cons, List.map_cons, hab, ih]

theorem forall₂_of_mapM {α β : Type} {f : α → Option β} {l : List α} {l' : List β}
    (h : l.mapM f = some l') : List.Forall₂ (fun a b => f a = some b) l l' := by
  induction l generalizing l' with
  | nil =>
      cases h
      exact .nil
  | cons a l ih =>
      rw [List.mapM_cons] at h
      obtain ⟨b, hb, h⟩ := Option.bind_eq_some_iff.1 h
      obtain ⟨bs, hbs, h⟩ := Option.bind_eq_some_iff.1 h
      cases h
      exact .cons hb (ih hbs)

theorem getElem?_of_mapM {α β : Type} {f : α → Option β} {l : List α} {l' : List β}
    (h : l.mapM f = some l') {i : ℕ} {b : β} (hb : l'[i]? = some b) :
    ∃ a, l[i]? = some a ∧ f a = some b := by
  have hmap : l'.map some = l.map f := map_of_mapM h fun a _ b hab => hab.symm
  have hi : (l.map f)[i]? = some (some b) := by
    rw [← hmap, List.getElem?_map, hb]
    rfl
  rw [List.getElem?_map] at hi
  exact Option.map_eq_some_iff.1 hi

theorem exists_of_forall₂ {α β : Type} {P : α → β → Prop} {l : List α} {l' : List β}
    (h : List.Forall₂ P l l') {b : β} (hb : b ∈ l') : ∃ a ∈ l, P a b := by
  induction h with
  | nil => exact absurd hb List.not_mem_nil
  | cons hab _ ih =>
      rcases List.mem_cons.1 hb with rfl | hb
      · exact ⟨_, List.mem_cons_self, hab⟩
      · obtain ⟨a, ha, hP⟩ := ih hb
        exact ⟨a, List.mem_cons_of_mem _ ha, hP⟩

/-- A name is kept, or it gets a suffix. -/
def Keeps (x y : Name) : Prop := y = x ∨ ∃ m, y = suffixed x m

/-- A relation that every step respects is respected by what is below a binder. -/
theorem applyBinder_rel {R : SigType → SigType → Prop} (hrefl : ∀ t, R t t)
    (htrans : ∀ t u v, R t u → R u v → R t v)
    (hR : ∀ map' : Subst, (∀ pick out, Renaming ((without map tparams).values.flatMap bareNames)
        (tparams.map (·.name)) pick tparams out map' → ∀ c c', apply c map' = some c' → R c c'))
    (hinner : ∀ c c', apply c (without map tparams) = some c' → R c c')
    (h : applyBinder apply n tparams result map = some (tparams', result')) :
    List.Forall₂ (fun tp tp' => R tp.bounds tp'.bounds ∧ Keeps tp.name tp'.name)
      tparams tparams' ∧ R result result' := by
  obtain ⟨tparams₁, result₁, havoid, htparams, hresult⟩ := applyBinder_eq h
  have hfirst : List.Forall₂ (fun tp tp' => R tp.bounds tp'.bounds ∧ Keeps tp.name tp'.name)
      tparams tparams₁ ∧ R result result₁ := by
    rcases avoidCapture_eq havoid with ⟨rfl, rfl, -⟩ | ⟨pick, out, rename, hrenaming, hout, hres⟩
    · exact ⟨List.forall₂_same.2 fun tp _ => ⟨hrefl _, .inl rfl⟩, hrefl _⟩
    · refine ⟨?_, hR rename pick out hrenaming _ _ hres⟩
      have hnames : List.Forall₂ (fun tp tp' : TParam SigType => tp'.bounds = tp.bounds ∧
          Keeps tp.name tp'.name) tparams out := by
        rw [hrenaming.out_eq, List.forall₂_map_right_iff, List.forall₂_same]
        intro tp htp
        rw [renamed]
        split
        · next hfree => exact ⟨rfl, .inr ((hrenaming.fresh tp htp hfree).1.imp fun m hm => hm.1)⟩
        · exact ⟨rfl, .inl rfl⟩
      apply forall₂_trans hnames (forall₂_of_mapM hout)
      intro tp tp₁ tp' hname htp'
      obtain ⟨hbounds, hname', -⟩ := TParam.traverse_eq_some.1 htp'
      rw [hname']
      exact ⟨hname.1 ▸ hR rename pick out hrenaming _ _ hbounds, hname.2⟩
  refine ⟨?_, htrans _ _ _ hfirst.2 (hinner _ _ hresult)⟩
  apply forall₂_trans hfirst.1 (forall₂_of_mapM htparams)
  intro tp tp₁ tp' hname htp'
  obtain ⟨hbounds, hname', -⟩ := TParam.traverse_eq_some.1 htp'
  rw [hname']
  exact ⟨htrans _ _ _ hname.1 (hinner _ _ hbounds), hname.2⟩

/-- A layer that is no reference and binds nothing. -/
def SigKind.IsPlain {ν τ : Type} : SigKind ν τ → Prop
  | .ref _ _ | .poly _ _ | .existential _ _ => False
  | _ => True

theorem SigKind.isPlain_of_traverse {ν τ σ : Type} {f : τ → Option σ} {kind : SigKind ν τ}
    {kind' : SigKind ν σ} (h : kind.traverse f = some kind') (hkind : kind.IsPlain) :
    kind'.IsPlain := by
  have hmap := SigKind.map_some_of_traverse h
  cases kind <;> first | exact absurd hkind id | (cases kind' <;> trivial)

/-- What a step makes of a reference. -/
inductive Replaced (n : ℕ) (map : Subst) (sym : Name) (args : List SigType) : SigType → Prop
  | head (y : Name) : map.lookup sym = some (.ref y []) → Replaced n map sym args (.ref y args)
  | beta (tparams : List (TParam SigType)) (result r : SigType) :
      map.lookup sym = some (.poly tparams result) → args ≠ [] → tparams.length = args.length →
      applySubst n result (bindings tparams args) = some r → Replaced n map sym args r
  | whole (v : SigType) : map.lookup sym = some v → args = [] → Replaced n map sym args v
  | left : (∀ y, map.lookup sym ≠ some (.ref y [])) → map.lookup sym = none ∨ args ≠ [] →
      Replaced n map sym args (.ref sym args)

theorem applySubst_ref_eq {sym : Name} {args : List SigType} {r : SigType}
    (hmap : ¬map.isEmpty = true) (h : applySubst (n + 1) (.ref sym args) map = some r) :
    ∃ args', args.mapM (fun a => applySubst n a map) = some args' ∧ Replaced n map sym args' r := by
  rw [SigType.ref, applySubst, if_neg hmap] at h
  obtain ⟨args', hargs, h⟩ := Option.bind_eq_some_iff.1 h
  refine ⟨args', hargs, ?_⟩
  split at h
  · next y hy =>
    cases h
    exact .head y hy
  · next tparams result hlookup =>
    split at h
    · next hbeta => exact .beta tparams result r hlookup hbeta.1 hbeta.2 h
    · split at h
      · next hnil =>
        cases h
        exact .whole _ hlookup hnil
      · next hargs =>
        cases h
        exact .left (fun y hy => by simp [hlookup, SigType.ref] at hy) (.inr hargs)
  · next v hname _ hlookup =>
    split at h
    · next hnil =>
      cases h
      exact .whole _ hlookup hnil
    · next hargs =>
      cases h
      refine .left (fun y hy => ?_) (.inr hargs)
      rw [hlookup] at hy
      exact hname y (Option.some.inj hy)
  · next hlookup =>
    cases h
    exact .left (fun y hy => by simp [hlookup] at hy) (.inl hlookup)

theorem applySubst_plain {kind : SigKind Name SigType} (hkind : kind.IsPlain)
    (hmap : ¬map.isEmpty = true) :
    applySubst (n + 1) (.mk kind) map = (kind.traverse fun t => applySubst n t map).map .mk := by
  cases kind <;> first | exact absurd hkind id | exact if_neg hmap

/-- The two layers that bind. -/
def binder (isPoly : Bool) (tparams : List (TParam SigType)) (result : SigType) :
    SigKind Name SigType :=
  if isPoly then .poly tparams result else .existential tparams result

theorem applySubst_binder (isPoly : Bool) (hmap : ¬map.isEmpty = true) :
    applySubst (n + 1) (.mk (binder isPoly tparams result)) map =
      (applyBinder (applySubst n) n tparams result map).map
        fun p => .mk (binder isPoly p.1 p.2) := by
  cases isPoly with
  | true =>
      rw [binder, if_pos rfl, applySubst, if_neg hmap]
      cases applyBinder (applySubst n) n tparams result map <;> rfl
  | false =>
      rw [binder, if_neg Bool.false_ne_true, applySubst, if_neg hmap]
      cases applyBinder (applySubst n) n tparams result map <;> rfl

/-- A layer is a reference, it binds, or it is plain. -/
theorem SigKind.cases_on_binders {P : SigKind Name SigType → Prop}
    (ref : ∀ sym args, P (.ref sym args))
    (binds : ∀ isPoly tparams result, P (binder isPoly tparams result))
    (plain : ∀ kind : SigKind Name SigType, kind.IsPlain → P kind) (kind : SigKind Name SigType) :
    P kind := by
  cases kind with
  | ref sym args => exact ref sym args
  | poly tparams result => exact binds true tparams result
  | existential tparams result => exact binds false tparams result
  | _ => exact plain _ trivial

theorem children_binder (isPoly : Bool) :
    (binder isPoly tparams result).children = tparams.map (·.bounds) ++ [result] := by
  cases isPoly <;> rfl

theorem applySubst_of_isEmpty {t : SigType} (hmap : map.isEmpty = true) :
    applySubst (n + 1) t map = some t := by
  cases t with
  | mk kind => exact if_pos hmap

/-! ## Enough fuel for a step -/

instance : Inhabited SigType := ⟨.mk .none⟩

theorem traverse_ends {f : ℕ → SigType → Option SigType} {kind : SigKind Name SigType}
    (h : ∀ c ∈ kind.children, ∃ c', ∀ᶠ n in atTop, f n c = some c') :
    ∃ kind', ∀ᶠ n in atTop, kind.traverse (f n) = some kind' := by
  choose! g hg using h
  refine ⟨kind.map g, ?_⟩
  filter_upwards [eventually_forall_mem hg] with n hn
  exact SigKind.traverse_eq hn

theorem tparams_end {f : ℕ → SigType → Option SigType} {tps : List (TParam SigType)}
    (h : ∀ c ∈ tps.map (·.bounds), ∃ c', ∀ᶠ n in atTop, f n c = some c') :
    ∃ tps', ∀ᶠ n in atTop, tps.mapM (TParam.traverse (f n)) = some tps' := by
  choose! g hg using h
  refine ⟨tps.map (TParam.map g), ?_⟩
  filter_upwards [eventually_forall_mem hg] with n hn
  exact traverse_tparams fun p hp => hn p.bounds (List.mem_map.2 ⟨p, hp, rfl⟩)

theorem avoidCapture_ends (h : ∀ rename : Subst, rename.IsRenaming →
      ∀ c ∈ result :: tparams.map (·.bounds), ∃ c', ∀ᶠ n in atTop, applySubst n c rename = some c')
    (map : Subst) :
    ∃ p, ∀ᶠ n in atTop, avoidCapture (applySubst n) n tparams result map = some p := by
  by_cases hempty : map.isEmpty = true
  · exact ⟨(tparams, result), .of_forall fun n => if_pos hempty⟩
  · obtain ⟨⟨out, rename⟩, hfold⟩ := foldlM_renameBinder_ends (map.values.flatMap bareNames)
      (tparams.map (·.name)) tparams ([], ∅)
    have hrenaming : ∃ pick, Renaming (map.values.flatMap bareNames) (tparams.map (·.name)) pick
        tparams out rename := by
      obtain ⟨n, hn⟩ := hfold.exists
      exact ⟨_, renaming_foldlM hn⟩
    obtain ⟨pick, hrenaming⟩ := hrenaming
    by_cases hrename : rename.isEmpty = true
    · refine ⟨(out, result), ?_⟩
      filter_upwards [hfold] with n hn
      rw [avoidCapture, if_neg hempty]
      simp only [hn, Option.bind_eq_bind, Option.bind_some]
      rw [if_pos hrename]
    · have hall := h rename hrenaming.isRenaming
      obtain ⟨out', hout'⟩ := @tparams_end (fun n t => applySubst n t rename) out
        (hrenaming.bounds ▸ fun c hc => hall c (List.mem_cons_of_mem result hc))
      obtain ⟨result', hresult'⟩ := hall result List.mem_cons_self
      refine ⟨(out', result'), ?_⟩
      filter_upwards [hfold, hout', hresult'] with n hn hout hresult
      rw [avoidCapture, if_neg hempty]
      simp only [hn, Option.bind_eq_bind, Option.bind_some]
      rw [if_neg hrename]
      simp only [hout, hresult, Option.bind_some]

theorem applyBinder_ends (havoid : ∀ rename : Subst, rename.IsRenaming →
      ∀ c ∈ result :: tparams.map (·.bounds), ∃ c', ∀ᶠ n in atTop, applySubst n c rename = some c')
    (happly : ∀ n tparams' result',
      avoidCapture (applySubst n) n tparams result (without map tparams) = some (tparams', result') →
        ∀ c ∈ result' :: tparams'.map (·.bounds),
          ∃ c', ∀ᶠ n in atTop, applySubst n c (without map tparams) = some c') :
    ∃ p, ∀ᶠ n in atTop, applyBinder (applySubst n) n tparams result map = some p := by
  obtain ⟨⟨tparams', result'⟩, hp⟩ := avoidCapture_ends havoid (without map tparams)
  obtain ⟨n, hn⟩ := hp.exists
  have hall := happly n tparams' result' hn
  obtain ⟨tparams'', htparams''⟩ := @tparams_end (fun n t => applySubst n t (without map tparams))
    tparams' fun c hc => hall c (List.mem_cons_of_mem result' hc)
  obtain ⟨result'', hresult''⟩ := hall result' List.mem_cons_self
  refine ⟨(tparams'', result''), ?_⟩
  filter_upwards [hp, htparams'', hresult''] with n hn htparams hresult
  rw [applyBinder]
  simp only [hn, htparams, hresult, Option.bind_eq_bind, Option.bind_some]

/-- There is a result that enough fuel gives. -/
def Ends (t : SigType) (map : Subst) : Prop := ∃ r, ∀ᶠ n in atTop, applySubst n t map = some r

theorem ends_of_isEmpty (hmap : map.isEmpty = true) (t : SigType) : Ends t map :=
  ⟨t, eventually_succ (.of_forall fun _ => applySubst_of_isEmpty hmap)⟩

theorem ends_plain {kind : SigKind Name SigType} (hkind : kind.IsPlain)
    (hmap : ¬map.isEmpty = true) (h : ∀ c ∈ kind.children, Ends c map) : Ends (.mk kind) map := by
  obtain ⟨kind', hkind'⟩ := traverse_ends h
  refine ⟨.mk kind', eventually_succ ?_⟩
  filter_upwards [hkind'] with n hn
  rw [applySubst_plain hkind hmap, hn]
  rfl

theorem ends_binder (isPoly : Bool) (hmap : ¬map.isEmpty = true)
    (h : ∃ p, ∀ᶠ n in atTop, applyBinder (applySubst n) n tparams result map = some p) :
    Ends (.mk (binder isPoly tparams result)) map := by
  obtain ⟨p, hp⟩ := h
  refine ⟨.mk (binder isPoly p.1 p.2), eventually_succ ?_⟩
  filter_upwards [hp] with n hn
  rw [applySubst_binder isPoly hmap, hn]
  rfl

theorem ends_ref {sym : Name} {args : List SigType} (hmap : ¬map.isEmpty = true)
    (h : ∀ a ∈ args, Ends a map)
    (hbeta : ∀ n args' tps body, args.mapM (fun a => applySubst n a map) = some args' →
      map.lookup sym = some (.poly tps body) → args' ≠ [] → tps.length = args'.length →
        Ends body (bindings tps args')) : Ends (.ref sym args) map := by
  choose! g hg using h
  have hargs : ∀ᶠ n in atTop, args.mapM (fun a => applySubst n a map) = some (args.map g) := by
    filter_upwards [eventually_forall_mem hg] with n hn
    exact mapM_eq_some hn
  -- Without a lambda to apply the step is over.
  have hdone (r : SigType) (hr : ∀ n, args.mapM (fun a => applySubst n a map) = some (args.map g) →
      applySubst (n + 1) (.ref sym args) map = some r) : Ends (.ref sym args) map := by
    refine ⟨r, eventually_succ ?_⟩
    filter_upwards [hargs] with n hn
    exact hr n hn
  by_cases hlambda : ∃ tps body, map.lookup sym = some (.poly tps body) ∧ args.map g ≠ [] ∧
      tps.length = (args.map g).length
  · obtain ⟨tps, body, hlookup, hne, hlength⟩ := hlambda
    obtain ⟨n, hn⟩ := hargs.exists
    obtain ⟨r, hr⟩ := hbeta n _ tps body hn hlookup hne hlength
    refine ⟨r, eventually_succ ?_⟩
    filter_upwards [hargs, hr] with n hn hr
    rw [SigType.ref, applySubst, if_neg hmap]
    simp only [hn, Option.bind_eq_bind, Option.bind_some, hlookup]
    exact (if_pos ⟨hne, hlength⟩).trans hr
  · have hsome : ∃ r, ∀ n, args.mapM (fun a => applySubst n a map) = some (args.map g) →
        applySubst (n + 1) (.ref sym args) map = some r := by
      simp only [SigType.ref, applySubst, if_neg hmap]
      cases hlookup : map.lookup sym with
      | none => exact ⟨_, fun n hn => by rw [hn]; rfl⟩
      | some v =>
          -- Any other type replaces the name if there are no arguments.
          have hother : ∃ r, (if args.map g = [] then some v else some (.ref sym (args.map g))) =
              some r := by
            split <;> exact ⟨_, rfl⟩
          obtain ⟨r, hr⟩ := hother
          obtain ⟨kind⟩ := v
          cases kind with
          | ref y as =>
              cases as with
              | nil => exact ⟨_, fun n hn => by rw [hn]; rfl⟩
              | cons => exact ⟨r, fun n hn => by rw [hn]; exact hr⟩
          | poly tps body =>
              have hbeta : ¬(args.map g ≠ [] ∧ tps.length = (args.map g).length) := fun h =>
                hlambda ⟨tps, body, hlookup, h⟩
              exact ⟨r, fun n hn => by rw [hn]; exact (if_neg hbeta).trans hr⟩
          | _ => exact ⟨r, fun n hn => by rw [hn]; exact hr⟩
    obtain ⟨r, hr⟩ := hsome
    exact hdone r hr

end ScalaRs.SigTypes
