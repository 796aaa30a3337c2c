import ScalaRs.PatmatLiterals
import ScalaRs.Propositions
import Mathlib.Data.List.AList
import Mathlib.Data.List.Sort

/-! # The symbols of a formula, numbered from 1 -/
namespace ScalaRs.Patmat

structure SymbolMapping where
  varForSym : AList fun _ : SymId => ℤ
  symForVar : AList fun _ : ℤ => SymId
  /-- `relevantVars`, sorted. -/
  relevant : List ℕ

namespace SymbolMapping

/-- One round of the loop of `new`, on the `i`th symbol. -/
def number (maps : AList (fun _ : SymId => ℤ) × AList (fun _ : ℤ => SymId)) (s : SymId × ℕ) :
    AList (fun _ : SymId => ℤ) × AList (fun _ : ℤ => SymId) :=
  (maps.1.insert s.1 (s.2 + 1), maps.2.insert (s.2 + 1) s.1)

def new (symbols : List SymId) : SymbolMapping :=
  let maps := symbols.zipIdx.foldl number (∅, ∅)
  { varForSym := maps.1
    symForVar := maps.2
    relevant := ((maps.2.keys.map Int.natAbs).insertionSort (· ≤ ·)).dedup }

/-- `none` where the source's index of a symbol that was not numbered panics. -/
def lit (m : SymbolMapping) (s : SymId) : Option Lit := (m.varForSym.lookup s).map Lit.mk

def size (m : SymbolMapping) : ℕ := m.varForSym.keys.length

/-- The two tables number the symbols in order. -/
structure Numbered (symbols : List SymId)
    (maps : AList (fun _ : SymId => ℤ) × AList (fun _ : ℤ => SymId)) : Prop where
  varForSym : ∀ s x, maps.1.lookup s = some x ↔ ∃ i : ℕ, symbols[i]? = some s ∧ x = i + 1
  symForVar : ∀ x s, maps.2.lookup x = some s ↔ ∃ i : ℕ, symbols[i]? = some s ∧ x = i + 1

theorem getElem?_concat_eq_some {α : Type*} {xs : List α} {x y : α} {i : ℕ} :
    (xs ++ [x])[i]? = some y ↔ xs[i]? = some y ∨ i = xs.length ∧ x = y := by
  rcases lt_trichotomy i xs.length with h | rfl | h
  · rw [List.getElem?_append_left h]
    simp [h.ne]
  · simp
  · rw [List.getElem?_eq_none (by simp; omega), List.getElem?_eq_none h.le]
    simp [h.ne']

theorem numbered_foldl {symbols : List SymId} (h : symbols.Nodup) :
    Numbered symbols (symbols.zipIdx.foldl number (∅, ∅)) := by
  induction symbols using List.reverseRecOn with
  | nil => constructor <;> simp
  | append_singleton symbols s ih =>
    obtain ⟨hsymbols, -, hs⟩ := List.nodup_append.mp h
    have ih := ih hsymbols
    rw [List.zipIdx_append, List.foldl_append]
    constructor
    · intro t x
      simp only [List.zipIdx_singleton, Nat.zero_add, List.foldl_cons, List.foldl_nil, number,
        getElem?_concat_eq_some]
      by_cases hst : t = s
      · subst hst
        rw [AList.lookup_insert]
        constructor
        · intro hx
          exact ⟨_, .inr ⟨rfl, rfl⟩, (Option.some_inj.mp hx).symm⟩
        · rintro ⟨i, hi | ⟨rfl, -⟩, rfl⟩
          · exact absurd rfl (hs t (List.mem_of_getElem? hi) t (by simp))
          · rfl
      · rw [AList.lookup_insert_ne hst, ih.varForSym]
        exact exists_congr fun i => and_congr_left fun _ => by simp [Ne.symm hst]
    · intro x t
      simp only [List.zipIdx_singleton, Nat.zero_add, List.foldl_cons, List.foldl_nil, number,
        getElem?_concat_eq_some]
      by_cases hx : x = symbols.length + 1
      · subst hx
        rw [AList.lookup_insert]
        constructor
        · intro ht
          exact ⟨_, .inr ⟨rfl, Option.some_inj.mp ht⟩, rfl⟩
        · rintro ⟨i, hi | ⟨-, rfl⟩, hx⟩
          · have := (List.getElem?_eq_some_iff.mp hi).1
            omega
          · rfl
      · rw [AList.lookup_insert_ne hx, ih.symForVar]
        refine exists_congr fun i => and_congr_left fun hi => ?_
        simp [show i ≠ symbols.length by omega]

variable {symbols : List SymId} (h : symbols.Nodup)

include h

theorem lit_new {s : SymId} {l : Lit} :
    (new symbols).lit s = some l ↔ ∃ i : ℕ, symbols[i]? = some s ∧ l = ⟨i + 1⟩ := by
  simp only [lit, Option.map_eq_some_iff, new, (numbered_foldl h).varForSym]
  exact ⟨fun ⟨_, ⟨i, hi, hx⟩, hl⟩ => ⟨i, hi, hx ▸ hl.symm⟩, fun ⟨i, hi, hl⟩ => ⟨_, ⟨i, hi, rfl⟩, hl.symm⟩⟩

theorem symForVar_new {x : ℤ} {s : SymId} :
    (new symbols).symForVar.lookup x = some s ↔ ∃ i : ℕ, symbols[i]? = some s ∧ x = i + 1 :=
  (numbered_foldl h).symForVar x s

theorem mem_relevant_new {x : ℕ} : x ∈ (new symbols).relevant ↔ 0 < x ∧ x ≤ symbols.length := by
  have hkeys : ∀ y : ℤ, y ∈ (new symbols).symForVar.keys ↔ ∃ i < symbols.length, y = i + 1 := by
    intro y
    rw [← AList.mem_keys, ← AList.lookup_isSome, Option.isSome_iff_exists]
    simp only [symForVar_new h]
    constructor
    · rintro ⟨s, i, hi, rfl⟩
      exact ⟨i, (List.getElem?_eq_some_iff.mp hi).1, rfl⟩
    · rintro ⟨i, hi, rfl⟩
      exact ⟨_, i, List.getElem?_eq_getElem hi, rfl⟩
  have hmem : x ∈ (new symbols).relevant ↔ ∃ y ∈ (new symbols).symForVar.keys, y.natAbs = x := by
    simp [new]
  simp only [hmem, hkeys]
  constructor
  · rintro ⟨y, ⟨i, hi, rfl⟩, hx⟩
    omega
  · rintro ⟨h0, hx⟩
    exact ⟨x, ⟨x - 1, by omega, by omega⟩, by simp⟩

theorem size_new : (new symbols).size = symbols.length := by
  have hperm : (new symbols).varForSym.keys.Perm symbols := by
    refine (List.perm_ext_iff_of_nodup (AList.keys_nodup _) h).mpr fun s => ?_
    rw [← AList.mem_keys, ← AList.lookup_isSome, Option.isSome_iff_exists]
    simp only [new, (numbered_foldl h).varForSym]
    constructor
    · rintro ⟨x, i, hi, -⟩
      exact List.mem_of_getElem? hi
    · intro hs
      obtain ⟨i, hi⟩ := List.mem_iff_getElem?.mp hs
      exact ⟨_, i, hi, rfl⟩
  exact hperm.length_eq

end SymbolMapping
end ScalaRs.Patmat
