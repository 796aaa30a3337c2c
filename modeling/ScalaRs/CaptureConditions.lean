import Mathlib.Data.Set.Disjoint
import ScalaRs.NamelessTypes

/-! # Names that renamed binders do not meet

A binder is renamed to its name with a suffix, and a later pass may rename it again. The new names
are compared with the replacements and with the other parameters of the binder only, so nothing
else in its reach may have them. -/
namespace ScalaRs.SigTypes
open Relation

def Suffixes (x y : Name) : Prop := ∃ m, y = suffixed x m

theorem length_lt_of_suffixes {x y : Name} (h : TransGen Suffixes x y) : x.length < y.length := by
  have hstep {x y : Name} (h : Suffixes x y) : x.length < y.length := by
    obtain ⟨m, rfl⟩ := h
    simp [suffixed]
  induction h with
  | single h => exact hstep h
  | tail _ h ih => exact Nat.lt_trans ih (hstep h)

theorem not_suffixes_self (x : Name) : ¬TransGen Suffixes x x := fun h =>
  Nat.lt_irrefl _ (length_lt_of_suffixes h)

/-- What is before the last suffix. -/
theorem suffixes_suffixed {x y : Name} {m : ℕ} (h : TransGen Suffixes x (suffixed y m)) :
    ReflTransGen Suffixes x y := by
  obtain ⟨z, hxz, hz⟩ := TransGen.tail'_iff.1 h
  obtain ⟨k, hk⟩ := hz
  rw [(suffixed_injective hk).1]
  exact hxz

/-- The names that the parameter `x` of a binder with parameters `names` may get, when the names in
`shown` are those that a binder has to avoid. -/
inductive Becomes (shown : Set Name) (names : List Name) (x : Name) : Name → Prop
  | self : Becomes shown names x x
  | renamed {y : Name} {m : ℕ} : Becomes shown names x y → y ∈ shown → 1 ≤ m →
      (∀ i, 1 ≤ i → i < m → suffixed y i ∈ shown ∨
        ∃ z ∈ names, z ≠ x ∧ ReflTransGen Suffixes z (suffixed y i)) →
      Becomes shown names x (suffixed y m)

/-- The new names that the parameters of a binder may get. -/
def renamings (shown : Set Name) (names : List Name) : Set Name :=
  {y | ∃ x ∈ names, Becomes shown names x y ∧ y ≠ x}

variable {shown shown' keys keys' : Set Name} {names names' : List Name} {x y : Name}

theorem Becomes.suffixes (h : Becomes shown names x y) : ReflTransGen Suffixes x y := by
  induction h with
  | self => exact .refl
  | renamed _ _ _ _ ih => exact ih.tail ⟨_, rfl⟩

theorem Becomes.mono (h : Becomes shown' names x y) (hshown : shown' ⊆ shown) :
    Becomes shown names x y := by
  induction h with
  | self => exact .self
  | renamed _ hy hm hfirst ih =>
      exact .renamed ih (hshown hy) hm fun i hi him => (hfirst i hi him).imp_left fun h => hshown h

theorem renamings_mono (h : shown' ⊆ shown) (names : List Name) :
    renamings shown' names ⊆ renamings shown names := by
  intro y hy
  obtain ⟨x, hx, hxy, hne⟩ := hy
  exact ⟨x, hx, hxy.mono h, hne⟩

/-- A new name is a name that had to be avoided, with a suffix. -/
theorem exists_of_mem_renamings (h : y ∈ renamings shown names) :
    ∃ z ∈ shown, Suffixes z y := by
  obtain ⟨x, hx, hxy, hne⟩ := h
  cases hxy with
  | self => exact absurd rfl hne
  | renamed _ hz _ _ => exact ⟨_, hz, _, rfl⟩

/-- What is before the last suffix is reached before. -/
theorem Becomes.before {z : Name} (h : Becomes shown names x y) (hz : Suffixes z y) :
    y = x ∨ Becomes shown names x z := by
  cases h with
  | self => exact .inl rfl
  | renamed hw _ _ _ =>
      obtain ⟨m, hm⟩ := hz
      exact .inr ((suffixed_injective hm).1 ▸ hw)

/-! ## One pass -/

/-- The names of a binder after one pass that avoids the names in `free`. -/
structure Renames (free names : List Name) (f : Name → Name) : Prop where
  kept : ∀ x ∈ names, x ∉ free → f x = x
  fresh : ∀ x ∈ names, x ∈ free → IsFresh (free ++ names) x (f x)

variable {free : List Name} {f : Name → Name}

theorem Renames.notMem_free (h : Renames free names f) (hx : x ∈ names) : f x ∉ free := by
  intro hf
  by_cases hfree : x ∈ free
  · exact (h.fresh x hx hfree).2 (List.mem_append_left _ hf)
  · exact hfree (h.kept x hx hfree ▸ hf)

theorem Renames.injOn (h : Renames free names f) (hx : x ∈ names) (hy : y ∈ names)
    (hxy : f x = f y) : x = y := by
  by_cases hfx : x ∈ free
  · obtain ⟨⟨m, hm, -, -⟩, hnot⟩ := h.fresh x hx hfx
    by_cases hfy : y ∈ free
    · obtain ⟨⟨k, hk, -, -⟩, -⟩ := h.fresh y hy hfy
      rw [hm, hk] at hxy
      exact (suffixed_injective hxy).1
    · rw [hxy, h.kept y hy hfy] at hnot
      exact absurd (List.mem_append_right _ hy) hnot
  · rw [h.kept x hx hfx] at hxy
    by_cases hfy : y ∈ free
    · exact absurd (List.mem_append_right _ (hxy ▸ hx)) (h.fresh y hy hfy).2
    · rw [hxy, h.kept y hy hfy]

theorem Renames.becomes (h : Renames free names f) (hfree : ∀ x ∈ free, x ∈ shown)
    (hx : x ∈ names) : Becomes shown names x (f x) := by
  by_cases hxf : x ∈ free
  · obtain ⟨⟨m, hm, hone, hfirst⟩, -⟩ := h.fresh x hx hxf
    rw [hm]
    apply Becomes.renamed .self (hfree x hxf) hone
    intro i hi him
    rcases List.mem_append.1 (hfirst i hi him) with hin | hin
    · exact .inl (hfree _ hin)
    · refine .inr ⟨_, hin, fun heq => ?_, .refl⟩
      exact not_suffixes_self x (.single ⟨i, heq.symm⟩)
  · rw [h.kept x hx hxf]
    exact .self

/-- What a renamed parameter may become it could become before. -/
theorem Renames.becomes_trans (h : Renames free names f) (hfree : ∀ x ∈ free, x ∈ shown)
    (hx : x ∈ names) (hy : Becomes shown (names.map f) (f x) y) : Becomes shown names x y := by
  induction hy with
  | self => exact h.becomes hfree hx
  | renamed _ hy hm hfirst ih =>
      apply Becomes.renamed ih hy hm
      intro i hi him
      apply (hfirst i hi him).imp_right
      intro hsibling
      obtain ⟨z', hz', hne, hsuffixes⟩ := hsibling
      obtain ⟨z, hz, rfl⟩ := List.mem_map.1 hz'
      exact ⟨z, hz, fun heq => hne (congrArg f heq), (h.becomes hfree hz).suffixes.trans hsuffixes⟩

/-- Suffixes are only added. -/
theorem Renames.ne_of_becomes (h : Renames free names f) (hfree : ∀ x ∈ free, x ∈ shown)
    (hx : x ∈ names) (hy : Becomes shown (names.map f) (f x) y) (hne : y ≠ f x) : y ≠ x := by
  intro heq
  rcases reflTransGen_iff_eq_or_transGen.1 hy.suffixes with heq' | htrans
  · exact hne heq'
  · apply not_suffixes_self x
    rw [heq] at htrans
    exact .trans_right (h.becomes hfree hx).suffixes htrans

theorem Renames.renamings_subset (h : Renames free names f) (hfree : ∀ x ∈ free, x ∈ shown) :
    renamings shown (names.map f) ⊆ renamings shown names := by
  intro y hy
  obtain ⟨x', hx', hxy, hne⟩ := hy
  obtain ⟨x, hx, rfl⟩ := List.mem_map.1 hx'
  exact ⟨x, hx, h.becomes_trans hfree hx hxy, h.ne_of_becomes hfree hx hxy hne⟩

theorem Renames.mem_renamings (h : Renames free names f) (hfree : ∀ x ∈ free, x ∈ shown)
    (hx : x ∈ names) (hxf : x ∈ free) : f x ∈ renamings shown names := by
  refine ⟨x, hx, h.becomes hfree hx, fun heq => ?_⟩
  exact h.notMem_free hx (heq.symm ▸ hxf)

/-! ## The condition -/

/-- What the parameters of a layer may become is not met: it is no key, no free name below, and no
name that a replacement has and `bare_names` misses. The last field is about the maps that rename. -/
structure Separate (keys shown : Set Name) (hidden : Name → Set Name)
    (kind : SigKind Name SigType) : Prop where
  key : ∀ x ∈ kind.binders, ∀ y, Becomes shown kind.binders x y → y ∈ keys → y ∈ kind.binders
  free : ∀ x ∈ kind.binders, ∀ y, Becomes shown kind.binders x y →
    ∀ c ∈ kind.children, y ∈ c.freeNames → y ∈ kind.binders
  hidden : ∀ x ∈ kind.binders, ∀ y, Becomes shown kind.binders x y →
    ∀ k ∈ keys, k ∉ kind.binders → (∃ c ∈ kind.children, k ∈ c.freeNames) → y ∉ hidden k
  sibling : ∀ x ∈ kind.binders, ∀ y, Becomes shown kind.binders x y → y ≠ x →
    ∀ z ∈ kind.binders, z ≠ x → ∀ w, Becomes shown kind.binders z w → w ∈ shown →
      ¬TransGen Suffixes y w

/-- The parameters of all binders in a type are apart, when a map with the keys is applied whose
replacements show some names and hide others. -/
inductive Clear : Set Name → Set Name → (Name → Set Name) → SigType → Prop
  | mk {keys shown : Set Name} {hidden : Name → Set Name} {kind : SigKind Name SigType} :
      Separate keys shown hidden kind →
      (∀ c ∈ kind.children,
        Clear (keys \ {x | x ∈ kind.binders}) (shown ∪ renamings shown kind.binders) hidden c) →
      Clear keys shown hidden (.mk kind)

theorem clear_mk {keys shown : Set Name} {hidden : Name → Set Name}
    {kind : SigKind Name SigType} : Clear keys shown hidden (.mk kind) ↔
      Separate keys shown hidden kind ∧ ∀ c ∈ kind.children,
        Clear (keys \ {x | x ∈ kind.binders}) (shown ∪ renamings shown kind.binders) hidden c := by
  constructor
  · intro h
    cases h with
    | mk hsep hbelow => exact ⟨hsep, hbelow⟩
  · intro h
    exact .mk h.1 h.2

theorem Clear.mono {hidden : Name → Set Name} {t : SigType} (h : Clear keys shown hidden t)
    (hkeys : keys' ⊆ keys) (hshown : shown' ⊆ shown) : Clear keys' shown' hidden t := by
  induction h generalizing keys' shown' with
  | mk hsep _ ih =>
      apply Clear.mk
      · constructor
        · intro x hx y hy hykeys
          exact hsep.key x hx y (hy.mono hshown) (hkeys hykeys)
        · intro x hx y hy
          exact hsep.free x hx y (hy.mono hshown)
        · intro x hx y hy k hk
          exact hsep.hidden x hx y (hy.mono hshown) k (hkeys hk)
        · intro x hx y hy hne z hz hzx w hw hwshown
          exact hsep.sibling x hx y (hy.mono hshown) hne z hz hzx w (hw.mono hshown)
            (hshown hwshown)
      · intro c hc
        apply ih c hc
        · exact Set.sdiff_subset_sdiff_left hkeys
        · exact Set.union_subset_union hshown (renamings_mono hshown _)

/-- For a map to fresh names only the names in its range matter. -/
theorem Clear.restrict {hidden : Name → Set Name} {t : SigType} (h : Clear keys shown hidden t)
    (hshown : shown' ⊆ shown) (hkeys : ∀ y ∈ shown', ∀ x ∈ keys', ¬TransGen Suffixes y x) :
    Clear keys' shown' (fun _ => ∅) t := by
  induction h generalizing keys' shown' with
  | mk hsep _ ih =>
      apply Clear.mk
      · constructor
        · intro x hx y hy hykeys
          cases hy with
          | self => exact hx
          | renamed _ hz _ _ => exact absurd (.single ⟨_, rfl⟩) (hkeys _ hz _ hykeys)
        · intro x hx y hy
          exact hsep.free x hx y (hy.mono hshown)
        · intro x hx y hy k hk hkn hfree
          exact Set.notMem_empty y
        · intro x hx y hy hne z hz hzx w hw hwshown
          exact hsep.sibling x hx y (hy.mono hshown) hne z hz hzx w (hw.mono hshown)
            (hshown hwshown)
      · intro c hc
        apply ih c hc (Set.union_subset_union hshown (renamings_mono hshown _))
        intro y hy x hx hsuffixes
        rcases hy with hy | hy
        · exact hkeys y hy x hx.1 hsuffixes
        · obtain ⟨z, hz, hzy⟩ := exists_of_mem_renamings hy
          exact hkeys z hz x hx.1 (.head hzy hsuffixes)

end ScalaRs.SigTypes
