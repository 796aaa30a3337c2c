import ScalaRs.CaptureConditions
import ScalaRs.SubstitutionTermination
import Mathlib.Order.CompletePartialOrder

/-! # When substitution captures nothing

A pass that renames keeps the parameters of the binders apart, and so every pass does on the
nameless forms what the standard substitution does. -/
namespace ScalaRs.SigTypes
open Filter EnoughFuel Relation

/-! ## Undotted names -/

theorem notMem_of_bareNames {t : SigType} {x : Name} (h : x ∈ bareNames t) : '.' ∉ x := by
  induction t using SigType.induct with
  | h kind ih =>
      rw [bareNames] at h
      rcases List.mem_append.1 h with h | h
      · cases kind with
        | ref sym args =>
            rw [SigKind.bareName] at h
            split at h
            · exact absurd h List.not_mem_nil
            · next hdot => exact List.mem_singleton.1 h ▸ hdot
        | _ => exact absurd h List.not_mem_nil
      · obtain ⟨c, -, hc⟩ := List.mem_flatMap.1 h
        exact ih c.1 (SigKind.mem_children_of_mentioned c.2) hc

theorem notMem_suffixed {x : Name} (h : '.' ∉ x) (m : ℕ) : '.' ∉ suffixed x m := by
  intro hdot
  rcases List.mem_append.1 hdot with hdot | hdot
  · exact h hdot
  · rcases List.mem_cons.1 hdot with hdot | hdot
    · cases hdot
    · exact absurd (Nat.isDigit_of_mem_toDigits (by omega) (by omega) hdot) (by decide)

theorem bareNames_name {x : Name} (h : '.' ∉ x) : bareNames (.ref x []) = [x] := by
  rw [SigType.ref, bareNames, SigKind.bareName, if_neg h]
  rfl

theorem nameless_name (x : Name) : (SigType.ref x []).nameless [] = .mk (.ref (.free x) []) := by
  rw [nameless_ref]
  rfl

theorem freeNames_name {x y : Name} : y ∈ (SigType.ref x []).freeNames ↔ y = x := by
  rw [mem_freeNames_ref_type]
  simp

/-! ## A pass below a binder -/

variable {apply : SigType → Subst → Option SigType} {n : ℕ} {tparams tparams' : List (TParam SigType)}
  {result result' : SigType} {map : Subst}

/-- The new names of a binder, and the map to them. -/
structure Renamer (free names : List Name) (f : Name → Name) (ρ : Subst) : Prop
    extends Renames free names f where
  lookup : ∀ x, ρ.lookup x = if x ∈ names ∧ x ∈ free then some (.ref (f x) []) else none

/-- A type is renamed, unless there is nothing to rename, and then it is substituted in. -/
def Passed (apply : SigType → Subst → Option SigType) (ρ map : Subst) (t t' : SigType) : Prop :=
  ∃ t₁, (ρ = ∅ ∧ t₁ = t ∨ apply t ρ = some t₁) ∧ apply t₁ map = some t'

theorem applyBinder_passed (h : applyBinder apply n tparams result map = some (tparams', result')) :
    ∃ f ρ, Renamer ((without map tparams).values.flatMap bareNames) (tparams.map (·.name)) f ρ ∧
      List.Forall₂ (fun tp tp' => tp'.name = f tp.name ∧ tp'.variance = tp.variance ∧
        Passed apply ρ (without map tparams) tp.bounds tp'.bounds) tparams tparams' ∧
      Passed apply ρ (without map tparams) result result' := by
  obtain ⟨tparams₁, result₁, havoid, htparams, hresult⟩ := applyBinder_eq h
  rcases avoidCapture_eq havoid with ⟨rfl, rfl, hnone⟩ | ⟨pick, out, rename, hrenaming, hout, hres⟩
  · have hkept : ∀ x ∈ tparams₁.map (·.name),
        x ∉ (without map tparams₁).values.flatMap bareNames := by
      intro x hx
      rcases hnone with hempty | hnone
      · rw [hempty]
        exact List.not_mem_nil
      · obtain ⟨tp, htp, rfl⟩ := List.mem_map.1 hx
        exact hnone tp htp
    refine ⟨id, ∅, ⟨⟨fun x _ _ => rfl, fun x hx hfree => absurd hfree (hkept x hx)⟩, fun x => ?_⟩,
      ?_, result₁, .inl ⟨rfl, rfl⟩, hresult⟩
    · rw [if_neg fun hx => hkept x hx.1 hx.2, AList.lookup_empty]
    · apply (forall₂_of_mapM htparams).imp
      intro tp tp' htp
      obtain ⟨hbounds, hname, hvariance⟩ := TParam.traverse_eq_some.1 htp
      exact ⟨hname, hvariance, tp.bounds, .inl ⟨rfl, rfl⟩, hbounds⟩
  · let f (x : Name) : Name :=
      if x ∈ (without map tparams).values.flatMap bareNames then pick x else x
    refine ⟨f, rename, ⟨⟨fun x _ hfree => if_neg hfree, fun x hx hfree => ?_⟩, fun x => ?_⟩, ?_,
      result₁, .inr hres, hresult⟩
    · obtain ⟨tp, htp, rfl⟩ := List.mem_map.1 hx
      have hf : f tp.name = pick tp.name := if_pos hfree
      rw [hf]
      exact hrenaming.fresh tp htp hfree
    · rw [hrenaming.lookup]
      split
      · next hx =>
        have hf : f x = pick x := if_pos hx.2
        rw [hf]
      · rfl
    · have hnames : List.Forall₂ (fun tp tp' : TParam SigType => tp'.name = f tp.name ∧
          tp'.variance = tp.variance ∧ tp'.bounds = tp.bounds) tparams out := by
        rw [hrenaming.out_eq, List.forall₂_map_right_iff, List.forall₂_same]
        intro tp _
        simp only [renamed, f]
        split <;> exact ⟨rfl, rfl, rfl⟩
      apply forall₂_trans hnames (forall₂_trans (forall₂_of_mapM hout) (forall₂_of_mapM htparams)
        fun a b c hab hbc => show ∃ b, _ ∧ _ from ⟨b, hab, hbc⟩)
      intro tp tp₁ tp' h₁ h₂
      obtain ⟨tp₂, hstep, hstep'⟩ := h₂
      obtain ⟨hbounds, hname, hvariance⟩ := TParam.traverse_eq_some.1 hstep
      obtain ⟨hbounds', hname', hvariance'⟩ := TParam.traverse_eq_some.1 hstep'
      rw [hname', hname, hvariance', hvariance, ← h₁.2.2]
      exact ⟨h₁.1, h₁.2.1, tp₂.bounds, .inr hbounds, hbounds'⟩


/-! ## Maps -/

/-- The keys of a map, the names that its replacements show, and those that they hide. -/
structure Fits (map : Subst) (keys shown : Set Name) (hidden : Name → Set Name) : Prop where
  key : ∀ x v, map.lookup x = some v → x ∈ keys
  shown : ∀ x v, map.lookup x = some v → ∀ y ∈ bareNames v, y ∈ shown
  hidden : ∀ x v, map.lookup x = some v → ∀ y ∈ v.freeNames, y ∉ bareNames v → y ∈ hidden x
  notLambda : ∀ x tparams result, map.lookup x ≠ some (.poly tparams result)

/-- A map from names to these names with a suffix. -/
def SuffixesOnly (map : Subst) (range : Set Name) : Prop :=
  ∀ x v, map.lookup x = some v → ∃ y ∈ range, v = .ref y [] ∧ Suffixes x y

variable {keys shown : Set Name} {hidden : Name → Set Name} {free names : List Name}
  {f : Name → Name} {ρ : Subst} {x y : Name}

theorem lookup_without_eq_some {bound : List (TParam SigType)} {v : SigType} :
    (without map bound).lookup x = some v ↔ x ∉ bound.map (·.name) ∧ map.lookup x = some v := by
  rw [lookup_without]
  split
  · next hx => simp [hx]
  · next hx => simp [hx]

theorem Fits.without (h : Fits map keys shown hidden) (bound : List (TParam SigType)) :
    Fits (without map bound) (keys \ {x | x ∈ bound.map (·.name)}) shown hidden where
  key x v hx := ⟨h.key x v (lookup_without_eq_some.1 hx).2, (lookup_without_eq_some.1 hx).1⟩
  shown x v hx := h.shown x v (lookup_without_eq_some.1 hx).2
  hidden x v hx := h.hidden x v (lookup_without_eq_some.1 hx).2
  notLambda x tps res hx := h.notLambda x tps res (lookup_without_eq_some.1 hx).2

theorem SuffixesOnly.without {range : Set Name} (h : SuffixesOnly map range)
    (bound : List (TParam SigType)) : SuffixesOnly (without map bound) range :=
  fun x v hx => h x v (lookup_without_eq_some.1 hx).2

theorem nameless_lookup {v : SigType} (h : map.lookup x = some v) :
    map.nameless x = some (v.nameless []) := by
  rw [Subst.nameless, h]
  rfl

theorem nameless_lookup_none (h : map.lookup x = none) : map.nameless x = none := by
  rw [Subst.nameless, h]
  rfl

theorem SuffixesOnly.renamesTo {range : Set Name} (h : SuffixesOnly map range) (x : Name) :
    ∃ y, RenamesTo map.nameless x y := by
  cases hx : map.lookup x with
  | none => exact ⟨x, .inl ⟨nameless_lookup_none hx, rfl⟩⟩
  | some v =>
      obtain ⟨y, -, rfl, -⟩ := h x v hx
      exact ⟨y, .inr ((nameless_lookup hx).trans (congrArg some (nameless_name y)))⟩

/-- A name is kept, or it becomes a name in the range. -/
theorem SuffixesOnly.renamesTo_cases {range : Set Name} (h : SuffixesOnly map range)
    (hxy : RenamesTo map.nameless x y) :
    (map.lookup x = none ∧ y = x) ∨ ((∃ v, map.lookup x = some v) ∧ y ∈ range ∧ Suffixes x y) := by
  cases hx : map.lookup x with
  | none =>
      rcases hxy with ⟨-, rfl⟩ | hxy
      · exact .inl ⟨rfl, rfl⟩
      · rw [nameless_lookup_none hx] at hxy
        cases hxy
  | some v =>
      obtain ⟨z, hz, rfl, hsuffixes⟩ := h x v hx
      have hsome := (nameless_lookup hx).trans (congrArg some (nameless_name z))
      rcases hxy with ⟨hnone, -⟩ | hxy
      · rw [hsome] at hnone
        cases hnone
      · rw [hsome] at hxy
        cases hxy
        exact .inr ⟨⟨_, rfl⟩, hz, hsuffixes⟩

namespace Renamer

/-- The names that are replaced, and the names that replace them. -/
def replaced (free names : List Name) : Set Name := {x | x ∈ names ∧ x ∈ free}

def range (free names : List Name) (f : Name → Name) : Set Name :=
  {y | ∃ x ∈ names, x ∈ free ∧ f x = y}

theorem suffixesOnly (h : Renamer free names f ρ) : SuffixesOnly ρ (range free names f) := by
  intro x v hx
  rw [h.lookup] at hx
  split at hx
  · next hin =>
    cases hx
    obtain ⟨⟨m, hm, -, -⟩, -⟩ := h.fresh x hin.1 hin.2
    exact ⟨f x, ⟨x, hin.1, hin.2, rfl⟩, rfl, m, hm⟩
  · cases hx

theorem fits (h : Renamer free names f ρ) (hdot : ∀ x ∈ free, '.' ∉ x) :
    Fits ρ (replaced free names) (range free names f) (fun _ => ∅) := by
  have hname : ∀ x v, ρ.lookup x = some v →
      (x ∈ names ∧ x ∈ free) ∧ v = .ref (f x) [] ∧ bareNames v = [f x] := by
    intro x v hx
    rw [h.lookup] at hx
    split at hx
    · next hin =>
      cases hx
      obtain ⟨⟨m, hm, -, -⟩, -⟩ := h.fresh x hin.1 hin.2
      exact ⟨hin, rfl, bareNames_name (hm ▸ notMem_suffixed (hdot x hin.2) m)⟩
    · cases hx
  constructor
  · intro x v hx
    exact (hname x v hx).1
  · intro x v hx y hy
    obtain ⟨hin, -, hbare⟩ := hname x v hx
    rw [hbare, List.mem_singleton] at hy
    exact ⟨x, hin.1, hin.2, hy.symm⟩
  · intro x v hx y hy hnot
    obtain ⟨-, rfl, hbare⟩ := hname x v hx
    rw [hbare, freeNames_name.1 hy] at hnot
    exact absurd (List.mem_singleton_self _) hnot
  · intro x tps res hx
    obtain ⟨-, heq, -⟩ := hname x _ hx
    cases heq

theorem renamesTo (h : Renamer free names f ρ) (hx : x ∈ names) : RenamesTo ρ.nameless x (f x) := by
  by_cases hfree : x ∈ free
  · have hlookup := (h.lookup x).trans (if_pos ⟨hx, hfree⟩)
    exact .inr ((nameless_lookup hlookup).trans (congrArg some (nameless_name _)))
  · have hlookup := (h.lookup x).trans (if_neg fun hin => hfree hin.2)
    exact .inl ⟨nameless_lookup_none hlookup, h.kept x hx hfree⟩

theorem lookup_of_notMem (h : Renamer free names f ρ) (hx : x ∉ names) : ρ.lookup x = none :=
  (h.lookup x).trans (if_neg fun hin => hx hin.1)

theorem renamesTo_of_notMem (h : Renamer free names f ρ) (hx : x ∉ names) :
    RenamesTo ρ.nameless x x :=
  .inl ⟨nameless_lookup_none (h.lookup_of_notMem hx), rfl⟩

/-- The new names are among those that the condition is about. -/
theorem range_subset (h : Renamer free names f ρ) (hfree : ∀ x ∈ free, x ∈ shown) :
    range free names f ⊆ renamings shown names := by
  intro y hy
  obtain ⟨x, hx, hin, rfl⟩ := hy
  exact h.toRenames.mem_renamings hfree hx hin

/-- The replaced names have none of the new ones as a beginning. -/
theorem not_suffixes (h : Renamer free names f ρ) (hfree : ∀ x ∈ free, x ∈ shown)
    {kind : SigKind Name SigType} (hnames : kind.binders = names)
    (hsep : Separate keys shown hidden kind) :
    ∀ y ∈ range free names f, ∀ x ∈ replaced free names, ¬TransGen Suffixes y x := by
  intro y hy x hx hsuffixes
  obtain ⟨z, hz, hzf, rfl⟩ := hy
  subst hnames
  have hbecomes := h.toRenames.becomes hfree hz
  have hne : f z ≠ z := fun heq => h.notMem_free hz (heq.symm ▸ hzf)
  by_cases hxz : x = z
  · -- A name does not grow out of what it becomes.
    subst hxz
    exact not_suffixes_self x (.trans_right hbecomes.suffixes hsuffixes)
  · exact hsep.sibling z hz (f z) hbecomes hne x hx.1 hxz x .self (hfree x hx.2) hsuffixes

end Renamer

/-! ## What a pass does to nameless forms -/

/-- With this much fuel the result is the standard one. -/
def Correct (n : ℕ) : Prop :=
  ∀ {t r : SigType} {map : Subst} {keys shown : Set Name} {hidden : Name → Set Name},
    Fits map keys shown hidden → Clear keys shown hidden t → applySubst n t map = some r →
      r.nameless [] = (t.nameless []).subst map.nameless

/-- With this much fuel a map that renames keeps the parameters of the binders apart. -/
def KeepsClear (n : ℕ) : Prop :=
  ∀ {t r : SigType} {map : Subst} {keys' range keys shown : Set Name} {hidden : Name → Set Name},
    Fits map keys' range (fun _ => ∅) → SuffixesOnly map range → Clear keys' range (fun _ => ∅) t →
      Clear keys shown hidden t → range ⊆ shown → Disjoint range keys →
        applySubst n t map = some r → Clear keys shown hidden r

theorem nameless_empty : Subst.nameless ∅ = fun _ => none := by
  funext x
  exact nameless_lookup_none (AList.lookup_empty x)

section
variable {kind : SigKind Name SigType} {c c₁ c' : SigType}

theorem Renamer.disjoint (h : Renamer free names f ρ) (hfree : ∀ x ∈ free, x ∈ shown)
    (hnames : kind.binders = names) (hsep : Separate keys shown hidden kind) :
    Disjoint (range free names f) (keys \ {x | x ∈ names}) := by
  subst hnames
  apply Set.disjoint_left.2
  intro y hy hykeys
  obtain ⟨x, hx, -, rfl⟩ := hy
  exact hykeys.2 (hsep.key x hx (f x) (h.toRenames.becomes hfree hx) hykeys.1)

theorem Renamer.range_subset_union (h : Renamer free names f ρ) (hfree : ∀ x ∈ free, x ∈ shown) :
    range free names f ⊆ shown ∪ renamings shown names :=
  (h.range_subset hfree).trans Set.subset_union_right

/-- The pass that renames: it is correct, and it keeps every condition that it does not meet. -/
theorem renamed_child (hn : Correct n) (hk : KeepsClear n) (hρ : Renamer free names f ρ)
    (hdot : ∀ x ∈ free, '.' ∉ x) (hfree : ∀ x ∈ free, x ∈ shown) (hnames : kind.binders = names)
    (hsep : Separate keys shown hidden kind)
    (hc : Clear (keys \ {x | x ∈ names}) (shown ∪ renamings shown names) hidden c)
    (h : ρ = ∅ ∧ c₁ = c ∨ applySubst n c ρ = some c₁) :
    c₁.nameless [] = (c.nameless []).subst ρ.nameless ∧
      ∀ {keys' shown' : Set Name} {hidden' : Name → Set Name}, Clear keys' shown' hidden' c →
        Renamer.range free names f ⊆ shown' → Disjoint (Renamer.range free names f) keys' →
          Clear keys' shown' hidden' c₁ := by
  rcases h with ⟨rfl, rfl⟩ | h
  · rw [nameless_empty, subst_none]
    exact ⟨rfl, fun hclear _ _ => hclear⟩
  · have hfits := hρ.fits hdot
    have hown : Clear (Renamer.replaced free names) (Renamer.range free names f) (fun _ => ∅) c :=
      hc.restrict (hρ.range_subset_union hfree) (hρ.not_suffixes hfree hnames hsep)
    exact ⟨hn hfits hown h, fun hclear hrange hdisjoint =>
      hk hfits hρ.suffixesOnly hown hclear hrange hdisjoint h⟩

/-- The two passes below a binder, on nameless forms. -/
theorem Passed.nameless (hn : Correct n) (hk : KeepsClear n) (hρ : Renamer free names f ρ)
    (hdot : ∀ x ∈ free, '.' ∉ x) (hfree : ∀ x ∈ free, x ∈ shown) (hnames : kind.binders = names)
    (hsep : Separate keys shown hidden kind)
    (hc : Clear (keys \ {x | x ∈ names}) (shown ∪ renamings shown names) hidden c)
    (hmap : Fits map (keys \ {x | x ∈ names}) shown hidden) (h : Passed (applySubst n) ρ map c c') :
    c'.nameless [] = ((c.nameless []).subst ρ.nameless).subst map.nameless := by
  obtain ⟨c₁, hfirst, hsecond⟩ := h
  obtain ⟨hnameless, hclear⟩ := renamed_child hn hk hρ hdot hfree hnames hsep hc hfirst
  have hc₁ := hclear hc (hρ.range_subset_union hfree) (hρ.disjoint hfree hnames hsep)
  rw [← hnameless]
  exact hn hmap (hc₁.mono subset_rfl Set.subset_union_left) hsecond

/-- The two passes below a binder keep what the binder does not meet, if the second one renames. -/
theorem Passed.keeps {own range : Set Name} (hn : Correct n) (hk : KeepsClear n)
    (hρ : Renamer free names f ρ) (hdot : ∀ x ∈ free, '.' ∉ x) (hfree : ∀ x ∈ free, x ∈ range)
    (hnames : kind.binders = names) (hsep' : Separate own range (fun _ => ∅) kind)
    (hc' : Clear (own \ {x | x ∈ names}) (range ∪ renamings range names) (fun _ => ∅) c)
    (hsep : Separate keys shown hidden kind)
    (hc : Clear (keys \ {x | x ∈ names}) (shown ∪ renamings shown names) hidden c)
    (hmap : Fits map (own \ {x | x ∈ names}) range (fun _ => ∅)) (hsuffixes : SuffixesOnly map range)
    (hrange : range ⊆ shown) (hdisjoint : Disjoint range keys)
    (h : Passed (applySubst n) ρ map c c') :
    Clear (keys \ {x | x ∈ names}) (shown ∪ renamings shown names) hidden c' := by
  obtain ⟨c₁, hfirst, hsecond⟩ := h
  obtain ⟨-, hclear⟩ := renamed_child hn hk hρ hdot hfree hnames hsep' hc' hfirst
  have hfree' : ∀ x ∈ free, x ∈ shown := fun x hx => hrange (hfree x hx)
  have hc₁' := hclear hc' (hρ.range_subset_union hfree) (hρ.disjoint hfree hnames hsep')
  have hc₁ := hclear hc (hρ.range_subset_union hfree') (hρ.disjoint hfree' hnames hsep)
  exact hk hmap hsuffixes (hc₁'.mono subset_rfl Set.subset_union_left) hc₁
    (hrange.trans Set.subset_union_left) (hdisjoint.mono_right Set.sdiff_subset) hsecond

end

/-! ## The leaves below a binder -/

theorem idxOf_map {l : List Name} (h : ∀ y ∈ l, f y = f x → y = x) :
    (l.map f).idxOf (f x) = l.idxOf x := by
  induction l with
  | nil => rfl
  | cons y l ih =>
      rw [List.map_cons, List.idxOf_cons, List.idxOf_cons,
        ih fun z hz => h z (List.mem_cons_of_mem y hz)]
      by_cases hy : y = x
      · rw [hy, beq_self_eq_true, beq_self_eq_true]
      · have hf : f y ≠ f x := fun heq => hy (h y List.mem_cons_self heq)
        rw [beq_false_of_ne hy, beq_false_of_ne hf]

theorem Fits.mem_shown (h : Fits map keys shown hidden) (hx : x ∈ map.values.flatMap bareNames) :
    x ∈ shown := by
  obtain ⟨v, hv, hx⟩ := List.mem_flatMap.1 hx
  obtain ⟨k, hk⟩ := Subst.mem_values.1 hv
  exact h.shown k v hk x hx

theorem notMem_of_values (hx : x ∈ map.values.flatMap bareNames) : '.' ∉ x := by
  obtain ⟨v, -, hx⟩ := List.mem_flatMap.1 hx
  exact notMem_of_bareNames hx

/-- What is free below a binder is its parameter, or it is replaced by something that no new
parameter captures. -/
theorem agrees_of_separate {kind : SigKind Name SigType} {c : SigType}
    (hρ : Renamer ((without map tparams).values.flatMap bareNames) (tparams.map (·.name)) f ρ)
    (hnames : kind.binders = tparams.map (·.name)) (hmap : Fits map keys shown hidden)
    (hsep : Separate keys shown hidden kind) (hc : c ∈ kind.children) :
    ∀ x ∈ (c.nameless []).freeNames, Agrees (tparams.map (·.name))
      ((tparams.map (·.name)).map f) ρ.nameless (without map tparams).nameless map.nameless x := by
  intro x hx
  have hfree : ∀ y ∈ (without map tparams).values.flatMap bareNames, y ∈ shown := fun y hy =>
    (hmap.without tparams).mem_shown hy
  have hbecomes {z : Name} (hz : z ∈ tparams.map (·.name)) :
      Becomes shown kind.binders z (f z) := hnames ▸ hρ.toRenames.becomes hfree hz
  by_cases hin : x ∈ tparams.map (·.name)
  · refine .inl ⟨hin, f x, hρ.renamesTo hin, ?_, List.mem_map_of_mem hin,
      idxOf_map fun y hy hyx => hρ.injOn hy hin hyx⟩
    apply nameless_lookup_none
    rw [Option.eq_none_iff_forall_not_mem]
    intro v hv
    obtain ⟨hnot, hv⟩ := lookup_without_eq_some.1 hv
    exact hnot (hnames ▸ hsep.key x (hnames ▸ hin) (f x) (hbecomes hin) (hmap.key _ v hv))
  · refine .inr ⟨hin, hρ.renamesTo_of_notMem hin, fun hx' => ?_, ?_, fun w hw y hy hy' => ?_⟩
    · obtain ⟨z, hz, rfl⟩ := List.mem_map.1 hx'
      exact hin (hnames ▸ hsep.free z (hnames ▸ hz) (f z) (hbecomes hz) c hc hx)
    · rw [Subst.nameless, Subst.nameless, lookup_without, if_neg hin]
    · obtain ⟨z, hz, rfl⟩ := List.mem_map.1 hy'
      obtain ⟨v, hv, rfl⟩ := Option.map_eq_some_iff.1 hw
      by_cases hshown : f z ∈ bareNames v
      · have hvalue : v ∈ (without map tparams).values :=
          Subst.mem_values.2 ⟨x, lookup_without_eq_some.2 ⟨hin, hv⟩⟩
        exact hρ.notMem_free hz (List.mem_flatMap.2 ⟨v, hvalue, hshown⟩)
      · exact hsep.hidden z (hnames ▸ hz) (f z) (hbecomes hz) x (hmap.key x v hv) (hnames ▸ hin)
          ⟨c, hc, hx⟩ (hmap.hidden x v hv (f z) hy hshown)

/-! ## Binders -/

theorem binders_binder (isPoly : Bool) : (binder isPoly tparams result).binders =
    tparams.map (·.name) := by
  cases isPoly <;> rfl

/-- The nameless layer of a binder. -/
def unnamedBinder (isPoly : Bool) (tparams : List (TParam Nameless)) (result : Nameless) :
    SigKind Var Nameless :=
  if isPoly then .poly tparams result else .existential tparams result

theorem nameless_binder (isPoly : Bool) :
    (SigType.mk (binder isPoly tparams result)).nameless [] =
      .mk (unnamedBinder isPoly (tparams.map fun tp =>
          ⟨[], tp.bounds.nameless [tparams.map (·.name)], tp.variance⟩)
        (result.nameless [tparams.map (·.name)])) := by
  rw [nameless_mk]
  cases isPoly <;>
    simp [binder, unnamedBinder, SigKind.unnamed, SigKind.map, TParam.unnamed, TParam.map,
      SigKind.enter, SigKind.deeper, SigKind.binders, Function.comp_def]

theorem subst_unnamedBinder (isPoly : Bool) (tparams : List (TParam Nameless)) (result : Nameless)
    (μ : Name → Option Nameless) : (Nameless.mk (unnamedBinder isPoly tparams result)).subst μ =
      .mk (unnamedBinder isPoly (tparams.map fun tp => ⟨tp.name, tp.bounds.subst μ, tp.variance⟩)
        (result.subst μ)) := by
  rw [subst_mk]
  · cases isPoly <;> rfl
  · intro x args h
    cases isPoly <;> cases h

theorem names_of_passed {P : SigType → SigType → Prop}
    (h : List.Forall₂ (fun tp tp' => tp'.name = f tp.name ∧ tp'.variance = tp.variance ∧
      P tp.bounds tp'.bounds) tparams tparams') :
    tparams'.map (·.name) = (tparams.map (·.name)).map f := by
  rw [List.map_map]
  exact map_eq_of_forall₂ (h.imp fun tp tp' hname => hname.1)

theorem Clear.of_plain {kind : SigKind Name SigType} (h : Clear keys shown hidden (.mk kind))
    (hkind : kind.binders = []) {c : SigType} (hc : c ∈ kind.children) :
    Clear keys shown hidden c := by
  apply ((clear_mk.1 h).2 c hc).mono
  · intro x hx
    exact ⟨hx, by simp [hkind]⟩
  · exact Set.subset_union_left

theorem binders_of_isPlain {kind : SigKind Name SigType} (hkind : kind.IsPlain) :
    kind.binders = [] := by
  cases kind <;> first | exact absurd hkind id | rfl

theorem nameless_plain {kind : SigKind Name SigType} (hkind : kind.IsPlain) :
    (SigType.mk kind).nameless [] =
      .mk ((kind.unnamed (resolve [])).map fun c => c.nameless []) := by
  rw [nameless_mk]
  cases kind <;> first | exact absurd hkind id | rfl

/-! ## References -/

theorem place_nil (v : Nameless) (x : Var) : place (some v) x [] = v := by
  by_cases hv : ∃ y, v = .mk (.ref y [])
  · obtain ⟨y, rfl⟩ := hv
    exact place_name y x []
  · rw [place_of_not_name fun y hy => hv ⟨y, hy⟩]
    rfl

/-- Only the form of a name is that of a name. -/
theorem nameless_eq_name {v : SigType} {y : Var} (h : v.nameless [] = .mk (.ref y [])) :
    ∃ x, v = .ref x [] := by
  obtain ⟨kind⟩ := v
  rw [nameless_mk] at h
  cases kind with
  | ref x args =>
      have hargs := (SigKind.ref.inj (Nameless.mk.inj h)).2
      exact ⟨x, congrArg (SigType.mk ∘ SigKind.ref x) (List.map_eq_nil_iff.1 hargs)⟩
  | _ => cases h

theorem nameless_of_replaced {sym : Name} {args : List SigType} {r : SigType}
    (hmap : ∀ x tparams result, map.lookup x ≠ some (.poly tparams result))
    (h : Replaced n map sym args r) :
    r.nameless [] = place (map.nameless sym) (.free sym) (args.map fun a => a.nameless []) := by
  cases h with
  | head y hy =>
      rw [nameless_lookup hy, nameless_name, place_name, nameless_ref]
      rfl
  | beta tparams result r hlookup => exact absurd hlookup (hmap _ _ _)
  | whole v hv hnil =>
      rw [nameless_lookup hv, hnil, List.map_nil, place_nil]
  | left hname hleft =>
      rw [nameless_ref]
      cases hv : map.lookup sym with
      | none =>
          rw [nameless_lookup_none hv, place_none]
          rfl
      | some v =>
          rw [nameless_lookup hv, place_of_not_name]
          · rcases hleft with hnone | hargs
            · rw [hv] at hnone
              cases hnone
            · rw [if_neg (by simpa using hargs)]
              rfl
          · intro y hy
            obtain ⟨x, rfl⟩ := nameless_eq_name hy
            exact hname x hv

/-! ## Induction on the fuel -/

theorem correct_succ (hn : Correct n) (hk : KeepsClear n) : Correct (n + 1) := by
  intro t r map keys shown hidden hmap hclear h
  by_cases hempty : map.isEmpty = true
  · rw [applySubst_of_isEmpty hempty] at h
    cases h
    rw [Subst.isEmpty_iff.1 hempty, nameless_empty, subst_none]
  · obtain ⟨kind⟩ := t
    induction kind using SigKind.cases_on_binders with
    | ref sym args =>
        obtain ⟨args', hargs, hr⟩ := applySubst_ref_eq hempty h
        have hargs' : args'.map (fun a => a.nameless []) =
            (args.map fun a => a.nameless []).map fun a => a.subst map.nameless := by
          rw [List.map_map]
          exact map_of_mapM hargs fun a ha a' ha' => hn hmap (hclear.of_plain rfl ha) ha'
        have hleft := nameless_ref sym args []
        rw [SigType.ref] at hleft
        rw [nameless_of_replaced hmap.notLambda hr, hargs', hleft]
        exact (subst_ref _ _ _).symm
    | binds isPoly tparams result =>
        rw [applySubst_binder isPoly hempty] at h
        obtain ⟨⟨tparams', result'⟩, hbinder, rfl⟩ := Option.map_eq_some_iff.1 h
        obtain ⟨f, ρ, hρ, htparams, hresult⟩ := applyBinder_passed hbinder
        obtain ⟨hsep, hbelow⟩ := clear_mk.1 hclear
        have hnames : (binder isPoly tparams result).binders = tparams.map (·.name) :=
          binders_binder isPoly
        have hfits := hmap.without tparams
        have hchild (c c' : SigType) (hc : c ∈ (binder isPoly tparams result).children)
            (hpassed : Passed (applySubst n) ρ (without map tparams) c c') :
            c'.nameless [tparams'.map (·.name)] =
              (c.nameless [tparams.map (·.name)]).subst map.nameless := by
          have hpasses := hpassed.nameless hn hk hρ (fun x hx => notMem_of_values hx)
            (fun x hx => hfits.mem_shown hx) hnames hsep (hnames ▸ hbelow c hc) hfits
          rw [names_of_passed htparams]
          calc c'.nameless [(tparams.map (·.name)).map f]
              = (c'.nameless []).close [(tparams.map (·.name)).map f] 0 := nameless_append c' [] _
            _ = ((c.nameless []).close [tparams.map (·.name)] 0).subst map.nameless := by
                rw [hpasses]
                exact close_subst (agrees_of_separate hρ hnames hmap hsep hc)
            _ = (c.nameless [tparams.map (·.name)]).subst map.nameless :=
                congrArg _ (nameless_append c [] _).symm
        have hmem {c : SigType} (hc : c ∈ tparams.map (·.bounds) ++ [result]) :
            c ∈ (binder isPoly tparams result).children := by
          rw [children_binder]
          exact hc
        have hparams : tparams'.map (fun tp => (⟨[], tp.bounds.nameless [tparams'.map (·.name)],
              tp.variance⟩ : TParam Nameless)) =
            tparams.map fun tp => ⟨[], (tp.bounds.nameless [tparams.map (·.name)]).subst map.nameless,
              tp.variance⟩ := by
          apply map_eq_of_forall₂
          have hin := (List.forall₂_and_left tparams tparams').2 ⟨fun tp htp => htp, htparams⟩
          apply hin.imp
          intro tp tp' h
          obtain ⟨htp, -, hvariance, hpassed⟩ := h
          rw [hvariance, hchild tp.bounds tp'.bounds
            (hmem (List.mem_append_left _ (List.mem_map_of_mem htp))) hpassed]
        rw [nameless_binder, nameless_binder, subst_unnamedBinder, hparams,
          hchild result result' (hmem (by simp)) hresult, List.map_map]
        rfl
    | plain kind hkind =>
        rw [applySubst_plain hkind hempty] at h
        obtain ⟨kind', hkind', rfl⟩ := Option.map_eq_some_iff.1 h
        have hmaps : kind'.map (fun c => c.nameless []) =
            kind.map fun c => (c.nameless []).subst map.nameless :=
          SigKind.map_of_traverse hkind' fun c hc c' hc' =>
            hn hmap (hclear.of_plain (binders_of_isPlain hkind) hc) hc'
        have hnotRef : (kind.unnamed (resolve [])).NotFree := by
          intro x args heq
          cases kind <;> first | exact absurd hkind id | cases heq
        rw [nameless_plain (SigKind.isPlain_of_traverse hkind' hkind), nameless_plain hkind,
          subst_mk (hnotRef.map _), ← SigKind.map_unnamed, hmaps, SigKind.map_unnamed,
          SigKind.map_map]
        rfl

theorem separate_of_nil {kind : SigKind Name SigType} (h : kind.binders = []) :
    Separate keys shown hidden kind := by
  constructor <;> intro x hx <;> exact absurd hx (h ▸ List.not_mem_nil)

theorem clear_of_plain {kind : SigKind Name SigType} (hkind : kind.binders = [])
    (h : ∀ c ∈ kind.children, Clear keys shown hidden c) : Clear keys shown hidden (.mk kind) := by
  apply Clear.mk (separate_of_nil hkind)
  intro c hc
  apply (h c hc).mono Set.sdiff_subset
  intro x hx
  rcases hx with hx | ⟨y, hy, -⟩
  · exact hx
  · exact absurd hy (hkind ▸ List.not_mem_nil)

/-- A name that is free below a binder after the passes is a parameter, or it was free below it, or
the second pass made it of a name that was. -/
theorem free_of_passed {range : Set Name} {c c' : SigType} (hρ : Renamer free names f ρ)
    (hmap : SuffixesOnly map range) (hkeys : ∀ x v, map.lookup x = some v → x ∉ names.map f)
    (h : c'.nameless [] = ((c.nameless []).subst ρ.nameless).subst map.nameless)
    (hy : y ∈ c'.freeNames) :
    y ∈ names.map f ∨ (y ∉ names ∧ y ∈ c.freeNames) ∨
      y ∈ range ∧ ∃ x, x ∉ names ∧ x ∈ c.freeNames ∧ Suffixes x y := by
  rw [SigType.freeNames, h] at hy
  obtain ⟨w, hw, hwy⟩ := (mem_freeNames_renamed hmap.renamesTo).1 hy
  obtain ⟨z, hz, hzw⟩ := (mem_freeNames_renamed hρ.suffixesOnly.renamesTo).1 hw
  have hw' : w ∈ names.map f ∨ w = z ∧ z ∉ names := by
    rcases hρ.suffixesOnly.renamesTo_cases hzw with ⟨hnone, rfl⟩ | ⟨-, ⟨x, hx, -, rfl⟩, -⟩
    · by_cases hin : w ∈ names
      · have hfree : w ∉ free := by
          intro hfree
          rw [hρ.lookup, if_pos ⟨hin, hfree⟩] at hnone
          cases hnone
        exact .inl (List.mem_map.2 ⟨w, hin, hρ.kept w hin hfree⟩)
      · exact .inr ⟨rfl, hin⟩
    · exact .inl (List.mem_map_of_mem hx)
  rcases hmap.renamesTo_cases hwy with ⟨-, rfl⟩ | ⟨⟨v, hv⟩, hrange, hsuffixes⟩
  · rcases hw' with hw' | ⟨rfl, hnot⟩
    · exact .inl hw'
    · exact .inr (.inl ⟨hnot, hz⟩)
  · rcases hw' with hw' | ⟨rfl, hnot⟩
    · exact absurd hw' (hkeys w v hv)
    · exact .inr (.inr ⟨hrange, w, hnot, hz, hsuffixes⟩)

/-- The parameters of a binder are still apart after the passes. -/
theorem separate_of_passed {kind kind' : SigKind Name SigType} (hρ : Renames free names f)
    (hfree : ∀ x ∈ free, x ∈ shown) (hnames : kind.binders = names)
    (hnames' : kind'.binders = names.map f) (hkeys : ∀ x ∈ names, x ∈ keys → x ∉ free)
    (hchildren : ∀ c' ∈ kind'.children, ∀ y ∈ c'.freeNames, y ∈ names.map f ∨
      (y ∉ names ∧ ∃ c ∈ kind.children, y ∈ c.freeNames) ∨
      y ∉ keys ∧ ∃ x, x ∉ names ∧ (∃ c ∈ kind.children, x ∈ c.freeNames) ∧ Suffixes x y)
    (hsep : Separate keys shown hidden kind) : Separate keys shown hidden kind' := by
  have hback {x' y : Name} (hx' : x' ∈ names.map f) (hy : Becomes shown (names.map f) x' y) :
      ∃ x ∈ names, f x = x' ∧ Becomes shown names x y := by
    obtain ⟨x, hx, rfl⟩ := List.mem_map.1 hx'
    exact ⟨x, hx, rfl, hρ.becomes_trans hfree hx hy⟩
  subst hnames
  constructor <;> rw [hnames']
  · intro x' hx' y hy hykeys
    obtain ⟨x, hx, rfl, hbecomes⟩ := hback hx' hy
    have hin := hsep.key x hx y hbecomes hykeys
    exact List.mem_map.2 ⟨y, hin, hρ.kept y hin (hkeys y hin hykeys)⟩
  · intro x' hx' y hy c' hc' hyfree
    obtain ⟨x, hx, rfl, hbecomes⟩ := hback hx' hy
    rcases hchildren c' hc' y hyfree with hin | ⟨hnot, c, hc, hyc⟩ | ⟨-, z, hnot, ⟨c, hc, hz⟩, hzy⟩
    · exact hin
    · exact absurd (hsep.free x hx y hbecomes c hc hyc) hnot
    · -- What it grew out of was met before.
      rcases hy.before hzy with rfl | hbefore
      · exact hx'
      · exact absurd (hsep.free x hx z (hρ.becomes_trans hfree hx hbefore) c hc hz) hnot
  · intro x' hx' y hy k hk hknot hkfree
    obtain ⟨x, hx, rfl, hbecomes⟩ := hback hx' hy
    obtain ⟨c', hc', hkc⟩ := hkfree
    rcases hchildren c' hc' k hkc with hin | ⟨hnot, c, hc, hkc⟩ | ⟨hnot, -⟩
    · exact absurd hin hknot
    · exact hsep.hidden x hx y hbecomes k hk hnot ⟨c, hc, hkc⟩
    · exact absurd hk hnot
  · intro x' hx' y hy hne z' hz' hzx w hw hwshown
    obtain ⟨x, hx, rfl⟩ := List.mem_map.1 hx'
    obtain ⟨z, hz, rfl⟩ := List.mem_map.1 hz'
    exact hsep.sibling x hx y (hρ.becomes_trans hfree hx hy) (hρ.ne_of_becomes hfree hx hy hne) z hz
      (fun heq => hzx (congrArg f heq)) w (hρ.becomes_trans hfree hz hw) hwshown

theorem mem_children_of_passed {P : SigType → SigType → Prop} (isPoly : Bool)
    (htparams : List.Forall₂ (fun tp tp' => tp'.name = f tp.name ∧ tp'.variance = tp.variance ∧
      P tp.bounds tp'.bounds) tparams tparams') (hresult : P result result') :
    ∀ c' ∈ (binder isPoly tparams' result').children,
      ∃ c ∈ (binder isPoly tparams result).children, P c c' := by
  intro c' hc'
  rw [children_binder] at hc' ⊢
  rcases List.mem_append.1 hc' with hc' | hc'
  · obtain ⟨tp', htp', rfl⟩ := List.mem_map.1 hc'
    obtain ⟨tp, htp, -, -, hpassed⟩ := exists_of_forall₂ htparams htp'
    exact ⟨tp.bounds, List.mem_append_left _ (List.mem_map_of_mem htp), hpassed⟩
  · rw [List.mem_singleton.1 hc']
    exact ⟨result, by simp, hresult⟩

theorem keepsClear_succ (hn : Correct n) (hk : KeepsClear n) : KeepsClear (n + 1) := by
  intro t r map keys' range keys shown hidden hmap hsuffixes hclear' hclear hrange hdisjoint h
  by_cases hempty : map.isEmpty = true
  · rw [applySubst_of_isEmpty hempty] at h
    cases h
    exact hclear
  · obtain ⟨kind⟩ := t
    induction kind using SigKind.cases_on_binders with
    | ref sym args =>
        obtain ⟨args', hargs, hr⟩ := applySubst_ref_eq hempty h
        have hargs' (y : Name) : Clear keys shown hidden (.ref y args') := by
          apply clear_of_plain rfl
          intro a' ha'
          obtain ⟨a, ha, haa'⟩ := exists_of_forall₂ (forall₂_of_mapM hargs) ha'
          exact hk hmap hsuffixes (hclear'.of_plain rfl ha) (hclear.of_plain rfl ha) hrange hdisjoint
            haa'
        cases hr with
        | head y _ => exact hargs' y
        | beta tparams result _ hlookup => exact absurd hlookup (hmap.notLambda _ _ _)
        | whole _ hlookup hnil =>
            obtain ⟨y, -, rfl, -⟩ := hsuffixes _ _ hlookup
            exact hnil ▸ hargs' y
        | left => exact hargs' sym
    | binds isPoly tparams result =>
        rw [applySubst_binder isPoly hempty] at h
        obtain ⟨⟨tparams', result'⟩, hbinder, rfl⟩ := Option.map_eq_some_iff.1 h
        obtain ⟨f, ρ, hρ, htparams, hresult⟩ := applyBinder_passed hbinder
        obtain ⟨hsep', hbelow'⟩ := clear_mk.1 hclear'
        obtain ⟨hsep, hbelow⟩ := clear_mk.1 hclear
        have hnames : (binder isPoly tparams result).binders = tparams.map (·.name) :=
          binders_binder isPoly
        have hnames' : (binder isPoly tparams' result').binders = (tparams.map (·.name)).map f :=
          (binders_binder isPoly).trans (names_of_passed htparams)
        have hfits := hmap.without tparams
        have hwithout := hsuffixes.without tparams
        have hdot : ∀ x ∈ (without map tparams).values.flatMap bareNames, '.' ∉ x := fun x hx =>
          notMem_of_values hx
        have hfree : ∀ x ∈ (without map tparams).values.flatMap bareNames, x ∈ range := fun x hx =>
          hfits.mem_shown hx
        have hfree' : ∀ x ∈ (without map tparams).values.flatMap bareNames, x ∈ shown := fun x hx =>
          hrange (hfree x hx)
        have hcome := mem_children_of_passed isPoly htparams hresult
        -- A key is never a name that has to be avoided.
        have hnotFree : ∀ x ∈ keys, x ∉ (without map tparams).values.flatMap bareNames :=
          fun x hx hfreex => Set.disjoint_left.1 hdisjoint (hfree x hfreex) hx
        apply Clear.mk
        · apply separate_of_passed hρ.toRenames hfree' hnames hnames'
            (fun x _ hx => hnotFree x hx) (fun c' hc' y hy => ?_) hsep
          obtain ⟨c, hc, hpassed⟩ := hcome c' hc'
          have hpasses := hpassed.nameless hn hk hρ hdot hfree hnames hsep' (hnames ▸ hbelow' c hc)
            hfits
          have hkeys : ∀ x v, (without map tparams).lookup x = some v →
              x ∉ (tparams.map (·.name)).map f := by
            intro x v hx hin
            obtain ⟨z, hz, rfl⟩ := List.mem_map.1 hin
            obtain ⟨hnot, hx⟩ := lookup_without_eq_some.1 hx
            apply hnot
            have hbecomes := hρ.toRenames.becomes hfree hz
            rw [← hnames] at hz hbecomes ⊢
            exact hsep'.key z hz (f z) hbecomes (hmap.key _ v hx)
          rcases free_of_passed hρ hwithout hkeys hpasses hy with hin | ⟨hnot, hyc⟩ |
            ⟨hyrange, z, hnot, hz, hzy⟩
          · exact .inl hin
          · exact .inr (.inl ⟨hnot, c, hc, hyc⟩)
          · exact .inr (.inr ⟨Set.disjoint_left.1 hdisjoint hyrange, z, hnot, ⟨c, hc, hz⟩, hzy⟩)
        · intro c' hc'
          obtain ⟨c, hc, hpassed⟩ := hcome c' hc'
          have hkept := hpassed.keeps hn hk hρ hdot hfree hnames hsep' (hnames ▸ hbelow' c hc) hsep
            (hnames ▸ hbelow c hc) hfits hwithout hrange hdisjoint
          apply hkept.mono
          · intro x hx
            refine ⟨hx.1, fun hin => hx.2 ?_⟩
            rw [hnames']
            exact List.mem_map.2 ⟨x, hin, hρ.kept x hin (hnotFree x hx.1)⟩
          · rw [hnames']
            exact Set.union_subset_union_right shown (hρ.toRenames.renamings_subset hfree')
    | plain kind hkind =>
        rw [applySubst_plain hkind hempty] at h
        obtain ⟨kind', hkind', rfl⟩ := Option.map_eq_some_iff.1 h
        apply clear_of_plain (binders_of_isPlain (SigKind.isPlain_of_traverse hkind' hkind))
        intro c' hc'
        obtain ⟨c, hc, hcc'⟩ := SigKind.mem_of_traverse hkind' hc'
        have hnil := binders_of_isPlain hkind
        exact hk hmap hsuffixes (hclear'.of_plain hnil hc) (hclear.of_plain hnil hc) hrange hdisjoint
          hcc'

theorem correct_and_keepsClear (n : ℕ) : Correct n ∧ KeepsClear n := by
  induction n with
  | zero =>
      constructor
      · intro t r map keys shown hidden _ _ h
        cases h
      · intro t r map keys' range keys shown hidden _ _ _ _ _ _ h
        cases h
  | succ n ih => exact ⟨correct_succ ih.1 ih.2, keepsClear_succ ih.1 ih.2⟩

/-! ## Free names of the result -/

theorem mem_freeNames_place {v : Option Nameless} {z : Var} {args : List Nameless} {a : Nameless}
    (ha : a ∈ args) (hy : y ∈ a.freeNames) : y ∈ (place v z args).freeNames := by
  have hargs (u : Var) : y ∈ (Nameless.mk (.ref u args)).freeNames := by
    cases u with
    | bound i j => exact (mem_freeNames_mk (notFree_bound i j args)).2 ⟨a, ha, hy⟩
    | free u => exact mem_freeNames_ref.2 (.inr ⟨a, ha, hy⟩)
  cases v with
  | none => rw [place_none]; exact hargs z
  | some w =>
      by_cases hw : ∃ u, w = .mk (.ref u [])
      · obtain ⟨u, rfl⟩ := hw
        rw [place_name]
        exact hargs u
      · rw [place_of_not_name fun u hu => hw ⟨u, hu⟩, if_neg]
        · exact hargs z
        · cases args with
          | nil => exact absurd ha List.not_mem_nil
          | cons b args => exact Bool.false_ne_true

/-- What is free in a part of a type is free in the type. -/
theorem mem_freeNames_subst_mk {μ : Name → Option Nameless} {kind : SigKind Var Nameless}
    {c : Nameless} (hc : c ∈ kind.children) (hy : y ∈ (c.subst μ).freeNames) :
    y ∈ ((Nameless.mk kind).subst μ).freeNames := by
  induction kind using SigKind.cases_on_free with
  | free x args =>
      rw [subst_ref]
      exact mem_freeNames_place (List.mem_map_of_mem hc) hy
  | other kind hkind =>
      rw [subst_mk hkind, mem_freeNames_mk (hkind.map _), SigKind.children_map]
      exact ⟨_, List.mem_map_of_mem hc, hy⟩

theorem mem_freeNames_of_none {μ : Name → Option Nameless} {t : Nameless} (hx : x ∈ t.freeNames)
    (hμ : μ x = none) : x ∈ (t.subst μ).freeNames := by
  induction t using Nameless.induct with
  | h kind ih =>
      induction kind using SigKind.cases_on_free with
      | free z args =>
          rcases mem_freeNames_ref.1 hx with rfl | ⟨a, ha, hxa⟩
          · rw [subst_ref, hμ, place_none]
            exact mem_freeNames_ref.2 (.inl rfl)
          · exact mem_freeNames_subst_mk ha (ih a ha hxa)
      | other kind hkind =>
          obtain ⟨c, hc, hxc⟩ := (mem_freeNames_mk hkind).1 hx
          exact mem_freeNames_subst_mk hc (ih c hc hxc)

/-- There is a reference to a name that its replacement takes the place of. -/
inductive Yields (v : Nameless) (x : Name) : Nameless → Prop
  | here {args : List Nameless} : args = [] ∨ (∃ y, v = .mk (.ref y [])) →
      Yields v x (.mk (.ref (.free x) args))
  | inside {kind : SigKind Var Nameless} {c : Nameless} : c ∈ kind.children → Yields v x c →
      Yields v x (.mk kind)

theorem freeNames_of_yields {μ : Name → Option Nameless} {t v : Nameless} (h : Yields v x t)
    (hμ : μ x = some v) : v.freeNames ⊆ (t.subst μ).freeNames := by
  intro y hy
  induction h with
  | here h =>
      rw [subst_ref, hμ]
      rcases h with rfl | ⟨z, rfl⟩
      · rw [List.map_nil, place_nil]
        exact hy
      · rw [place_name]
        cases z with
        | bound i j =>
            obtain ⟨c, hc, -⟩ := (mem_freeNames_mk (notFree_bound i j [])).1 hy
            exact absurd hc List.not_mem_nil
        | free z =>
            rcases mem_freeNames_ref.1 hy with rfl | ⟨c, hc, -⟩
            · exact mem_freeNames_ref.2 (.inl rfl)
            · exact absurd hc List.not_mem_nil
  | inside hc _ ih => exact mem_freeNames_subst_mk hc ih

/-! ## The result is the standard one -/

/-- Somewhere in a type there is a polymorphic type. -/
inductive ContainsPoly : SigType → Prop
  | here (tparams : List (TParam SigType)) (result : SigType) : ContainsPoly (.poly tparams result)
  | inside {kind : SigKind Name SigType} {c : SigType} : c ∈ kind.children → ContainsPoly c →
      ContainsPoly (.mk kind)

/-- Up to the names of its binders the result is that of the standard substitution, and what is free
in the type, or in what replaces something, stays free. -/
def AvoidsCapture (t : SigType) (map : Subst) : Prop :=
  ∃ r, (∀ᶠ n in atTop, applySubst n t map = some r) ∧
    r.nameless [] = (t.nameless []).subst map.nameless ∧
    (∀ x ∈ t.freeNames, map.lookup x = none → x ∈ r.freeNames) ∧
    ∀ x v, map.lookup x = some v → Yields (v.nameless []) x (t.nameless []) →
      v.freeNames ⊆ r.freeNames

namespace Subst

def keyNames (map : Subst) : Set Name := {x | ∃ v, map.lookup x = some v}

/-- The names that `bare_names` finds in the replacements. -/
def shownNames (map : Subst) : Set Name := {y | y ∈ map.values.flatMap bareNames}

/-- The free names of a replacement that `bare_names` does not find. -/
def hiddenNames (map : Subst) (x : Name) : Set Name :=
  {y | ∃ v, map.lookup x = some v ∧ y ∈ v.freeNames ∧ y ∉ bareNames v}

end Subst

theorem fits_self (h : ∀ v ∈ map.values, ¬ContainsPoly v) :
    Fits map map.keyNames map.shownNames map.hiddenNames where
  key _ v hx := ⟨v, hx⟩
  shown x v hx _ hy := List.mem_flatMap.2 ⟨v, Subst.mem_values.2 ⟨x, hx⟩, hy⟩
  hidden _ v hx _ hy hnot := ⟨v, hx, hy, hnot⟩
  notLambda x tparams result hx := h _ (Subst.mem_values.2 ⟨x, hx⟩) (.here tparams result)

/-- `A := B` -/
def exampleMap : Subst := AList.insert ['A'] (.ref ['B'] []) ∅

theorem lookup_exampleMap {v : SigType} :
    exampleMap.lookup x = some v ↔ x = ['A'] ∧ v = .ref ['B'] [] := by
  rw [exampleMap]
  by_cases hx : x = ['A']
  · rw [hx, AList.lookup_insert]
    simp [eq_comm]
  · rw [AList.lookup_insert_ne hx]
    simp [hx]

theorem bareNames_exampleMap : exampleMap.values.flatMap bareNames = [['B']] := by
  have hvalues : exampleMap.values = [.ref ['B'] []] := rfl
  rw [hvalues, List.flatMap_singleton, bareNames_name (by decide)]

theorem not_containsPoly_exampleMap : ∀ v ∈ exampleMap.values, ¬ContainsPoly v := by
  intro v hv h
  obtain ⟨x, hx⟩ := Subst.mem_values.1 hv
  rw [(lookup_exampleMap.1 hx).2] at h
  cases h with
  | inside hc _ => exact absurd hc List.not_mem_nil

/-- `[B] P[A, B]` -/
def exampleType : SigType :=
  .poly [⟨['B'], .mk .none, 0⟩] (.ref ['P'] [.ref ['A'] [], .ref ['B'] []])

/-- The parameter `B` may become `B$1`, and nothing else. -/
theorem becomes_exampleMap (h : Becomes exampleMap.shownNames [['B']] ['B'] x) :
    x = ['B'] ∨ x = suffixed ['B'] 1 := by
  have hshown {y : Name} (hy : y ∈ exampleMap.shownNames) : y = ['B'] := by
    have hy : y ∈ exampleMap.values.flatMap bareNames := hy
    rw [bareNames_exampleMap] at hy
    exact List.mem_singleton.1 hy
  cases h with
  | self => exact .inl rfl
  | @renamed y m _ hy hone hfirst =>
      obtain rfl := hshown hy
      have hle : m ≤ 1 := by
        by_contra hlt
        rcases hfirst 1 le_rfl (by omega) with hin | ⟨z, hz, hne, -⟩
        · exact absurd (hshown hin) (by decide)
        · exact hne (List.mem_singleton.1 hz)
      obtain rfl : m = 1 := by omega
      exact .inr rfl

/-- `[B] P[A, B, B$1]` -/
def capturedType : SigType :=
  .poly [⟨['B'], .mk .none, 0⟩]
    (.ref ['P'] [.ref ['A'] [], .ref ['B'] [], .ref (suffixed ['B'] 1) []])

theorem applySubst_capturedType (n : ℕ) : applySubst (n + 4) capturedType exampleMap =
    some (.poly [⟨suffixed ['B'] 1, .mk .none, 0⟩]
      (.ref ['P'] [.ref ['B'] [], .ref (suffixed ['B'] 1) [], .ref (suffixed ['B'] 1) []])) := by
  have havoid : avoidCapture (applySubst (n + 3)) (n + 3) [⟨['B'], .mk .none, 0⟩]
      (.ref ['P'] [.ref ['A'] [], .ref ['B'] [], .ref (suffixed ['B'] 1) []]) exampleMap =
        some ([⟨suffixed ['B'] 1, .mk .none, 0⟩],
          .ref ['P'] [.ref ['A'] [], .ref (suffixed ['B'] 1) [], .ref (suffixed ['B'] 1) []]) := by
    rw [avoidCapture, bareNames_exampleMap]
    rfl
  have hwithout : without exampleMap [⟨['B'], .mk .none, 0⟩] = exampleMap := rfl
  rw [capturedType, SigType.poly, applySubst, if_neg (by decide)]
  simp only [applyBinder, hwithout, havoid]
  rfl

end ScalaRs.SigTypes
