import Mathlib.Algebra.Order.BigOperators.Group.Finset
import Mathlib.Data.Finset.Card
import Mathlib.Data.List.AList

/-! # Growing families of lists

A map from keys to lists that only grow: what is at one key is passed on to another along given
edges, until nothing new comes. What is reached is the least family that is closed under the
edges, and it is reached, since nothing comes that was not there at some key at first. -/
namespace GrowingFamilies

variable {κ ν : Type} [DecidableEq κ]

abbrev Family (κ ν : Type) := AList (fun _ : κ => List ν)

/-- The list at a key, empty if there is none. -/
def valuesAt (m : Family κ ν) (k : κ) : List ν := (m.lookup k).getD []

/-- The list at a key gets longer. -/
def grow (m : Family κ ν) (k : κ) (add : List ν) : Family κ ν := m.insert k (valuesAt m k ++ add)

theorem valuesAt_of_lookup {m : Family κ ν} {k : κ} {xs : List ν} (h : m.lookup k = some xs) :
    valuesAt m k = xs := by
  rw [valuesAt, h]
  rfl

theorem lookup_eq_valuesAt {m : Family κ ν} {k : κ} (h : k ∈ m) : m.lookup k = some (valuesAt m k) := by
  obtain ⟨xs, hxs⟩ := Option.isSome_iff_exists.1 (AList.lookup_isSome.2 h)
  rw [valuesAt_of_lookup hxs, hxs]

theorem valuesAt_of_notMem {m : Family κ ν} {k : κ} (h : k ∉ m) : valuesAt m k = [] := by
  rw [valuesAt, AList.lookup_eq_none.2 h]
  rfl

@[simp] theorem valuesAt_grow_self (m : Family κ ν) (k : κ) (add : List ν) :
    valuesAt (grow m k add) k = valuesAt m k ++ add :=
  valuesAt_of_lookup (AList.lookup_insert m)

theorem valuesAt_grow_of_ne (m : Family κ ν) {k k' : κ} (h : k' ≠ k) (add : List ν) :
    valuesAt (grow m k add) k' = valuesAt m k' := by
  rw [grow, valuesAt, AList.lookup_insert_ne h]
  rfl

theorem mem_valuesAt_grow {m : Family κ ν} {k k' : κ} {add : List ν} {x : ν} :
    x ∈ valuesAt (grow m k add) k' ↔ x ∈ valuesAt m k' ∨ k' = k ∧ x ∈ add := by
  by_cases h : k' = k
  · subst h
    simp
  · rw [valuesAt_grow_of_ne m h]
    simp [h]

theorem mem_grow {m : Family κ ν} {k k' : κ} {add : List ν} (h : k ∈ m) :
    k' ∈ grow m k add ↔ k' ∈ m := by
  rw [grow, AList.mem_insert]
  constructor
  · rintro (rfl | hmem)
    · exact h
    · exact hmem
  · exact .inr

/-! ## Adding what is new -/

/-- The items that are to be kept and not there yet, each once. -/
def pushNew {ν : Type} [DecidableEq ν] (keep : ν → Bool) (items acc : List ν) : List ν :=
  items.foldl (fun acc x => if keep x && !acc.contains x then acc ++ [x] else acc) acc

section
variable {ν : Type} [DecidableEq ν] {keep : ν → Bool} {items acc : List ν} {x : ν}

theorem mem_pushNew : x ∈ pushNew keep items acc ↔ x ∈ acc ∨ x ∈ items ∧ keep x = true := by
  induction items generalizing acc with
  | nil => simp [pushNew]
  | cons y items ih =>
      rw [pushNew, List.foldl_cons, ← pushNew, ih]
      by_cases hxy : x = y
      · subst hxy
        split <;> grind
      · split <;> simp [hxy]

theorem nodup_pushNew (h : acc.Nodup) : (pushNew keep items acc).Nodup := by
  induction items generalizing acc with
  | nil => exact h
  | cons y items ih =>
      rw [pushNew, List.foldl_cons, ← pushNew]
      apply ih
      split
      · rename_i hnew
        rw [List.nodup_append]
        refine ⟨h, List.nodup_singleton y, fun a ha b hb hab => ?_⟩
        rw [List.mem_singleton] at hb
        simp [← hb, ← hab, ha] at hnew
      · exact h

end

/-! ## Closed families -/

section
variable (first : Family κ ν) (passes : κ → κ → ν → Prop)

/-- The family has what is there at first, and key `k` has what it takes from a key. -/
structure Closed (F : κ → Set ν) : Prop where
  first : ∀ k, ∀ x ∈ valuesAt first k, x ∈ F k
  passes : ∀ k k' x, passes k k' x → x ∈ F k' → x ∈ F k

/-- What may be added at a key: new values, each of which it takes from some key. -/
structure Addable (m : Family κ ν) (k : κ) (add : List ν) : Prop where
  mem : k ∈ m
  nodup : add.Nodup
  fresh : ∀ x ∈ add, x ∉ valuesAt m k
  passed : ∀ x ∈ add, ∃ k', passes k k' x ∧ x ∈ valuesAt m k'

/-- What stays true of the family while it grows. -/
structure Grown (m : Family κ ν) : Prop where
  mem : ∀ k, k ∈ m ↔ k ∈ first
  stem : ∀ k, valuesAt first k <+: valuesAt m k
  nodup : ∀ k, (valuesAt first k).Nodup → (valuesAt m k).Nodup
  least : ∀ F, Closed first passes F → ∀ k, ∀ x ∈ valuesAt m k, x ∈ F k

end

variable {first m : Family κ ν} {passes : κ → κ → ν → Prop} {k : κ} {add : List ν}

theorem Grown.refl : Grown first passes first :=
  ⟨fun _ => .rfl, fun _ => List.prefix_rfl, fun _ h => h, fun _ hF => hF.first⟩

/-- Growth keeps what stays true. -/
theorem Grown.grow (hm : Grown first passes m) (hadd : Addable passes m k add) :
    Grown first passes (GrowingFamilies.grow m k add) := by
  refine ⟨fun k' => ?_, fun k' => ?_, fun k' hnodup => ?_, fun F hF k' x hx => ?_⟩
  · rw [mem_grow hadd.mem]
    exact hm.mem k'
  · by_cases h : k' = k
    · subst h
      rw [valuesAt_grow_self]
      exact (hm.stem k').trans (List.prefix_append _ _)
    · rw [valuesAt_grow_of_ne m h]
      exact hm.stem k'
  · by_cases h : k' = k
    · subst h
      rw [valuesAt_grow_self, List.nodup_append]
      refine ⟨hm.nodup k' hnodup, hadd.nodup, fun a ha b hb hab => ?_⟩
      exact hadd.fresh b hb (hab ▸ ha)
    · rw [valuesAt_grow_of_ne m h]
      exact hm.nodup k' hnodup
  · rcases mem_valuesAt_grow.1 hx with hold | ⟨rfl, hnew⟩
    · exact hm.least F hF k' x hold
    · obtain ⟨k'', hpass, hk''⟩ := hadd.passed x hnew
      exact hF.passes _ _ _ hpass (hm.least F hF k'' x hk'')

/-! ## Termination -/

variable [DecidableEq ν]

/-- All that is there at first. -/
def values (first : Family κ ν) : Finset ν :=
  first.keys.toFinset.biUnion fun k => (valuesAt first k).toFinset

theorem mem_values {x : ν} : x ∈ values first ↔ ∃ k ∈ first, x ∈ valuesAt first k := by
  simp [values, AList.mem_keys]

/-- All that is there at first, everywhere, is a closed family. -/
theorem closed_values : Closed first passes fun _ => {x | x ∈ values first} := by
  refine ⟨fun k x hx => mem_values.2 ⟨k, ?_, hx⟩, fun _ _ _ _ hx => hx⟩
  by_contra hk
  rw [valuesAt_of_notMem hk] at hx
  cases hx

/-- How much may still be added. -/
def missing (first m : Family κ ν) : ℕ :=
  ∑ k ∈ first.keys.toFinset, (values first \ (valuesAt m k).toFinset).card

theorem missing_grow_lt (hm : Grown first passes m) (hadd : Addable passes m k add)
    (hne : add ≠ []) : missing first (grow m k add) < missing first m := by
  apply Finset.sum_lt_sum
  · intro k' _
    apply Finset.card_le_card
    intro x hx
    rw [Finset.mem_sdiff, List.mem_toFinset, mem_valuesAt_grow, not_or] at hx
    rw [Finset.mem_sdiff, List.mem_toFinset]
    exact ⟨hx.1, hx.2.1⟩
  · refine ⟨k, List.mem_toFinset.2 (AList.mem_keys.1 ((hm.mem k).1 hadd.mem)), ?_⟩
    obtain ⟨x, hx⟩ := List.exists_mem_of_ne_nil add hne
    obtain ⟨k', -, hk'⟩ := hadd.passed x hx
    apply Finset.card_lt_card
    rw [Finset.ssubset_iff_of_subset]
    · refine ⟨x, ?_, ?_⟩
      · rw [Finset.mem_sdiff, List.mem_toFinset]
        exact ⟨hm.least _ closed_values k' x hk', hadd.fresh x hx⟩
      · rw [Finset.mem_sdiff, List.mem_toFinset, mem_valuesAt_grow]
        exact fun h => h.2 (.inr ⟨rfl, hx⟩)
    · intro y hy
      rw [Finset.mem_sdiff, List.mem_toFinset, mem_valuesAt_grow, not_or] at hy
      rw [Finset.mem_sdiff, List.mem_toFinset]
      exact ⟨hy.1, hy.2.1⟩

end GrowingFamilies
