import Mathlib.Data.List.Nodup
import Mathlib.Data.List.Pairwise
import Mathlib.Data.List.Induction

/-! # Concatenation that replaces

`prependReplacing a b` is every element of `a` that `b` does not list, then all
of `b`. A list is closed under a relation when it lists whatever its elements
are related to. Concatenation keeps lists free of repetition and closed, and it
keeps an order in which no later element is related to an earlier one. -/
namespace ScalaRs.ReplacingConcatenation

universe u

variable {α : Type u} [DecidableEq α]

def prependReplacing (a b : List α) : List α := a.filter (· ∉ b) ++ b

@[simp] theorem mem_prependReplacing {a b : List α} {x : α} :
    x ∈ prependReplacing a b ↔ x ∈ a ∨ x ∈ b := by
  simp only [prependReplacing, List.mem_append, List.mem_filter, decide_eq_true_eq]
  tauto

theorem nodup_prependReplacing {a b : List α} (ha : a.Nodup) (hb : b.Nodup) :
    (prependReplacing a b).Nodup := by
  apply List.Nodup.append (ha.filter _) hb
  intro x hx
  simpa using (List.mem_filter.mp hx).2

def Closed (r : α → α → Prop) (xs : List α) : Prop := ∀ x ∈ xs, ∀ y, r x y → y ∈ xs

/-- No later element is related to an earlier one. -/
def Ordered (r : α → α → Prop) (xs : List α) : Prop := xs.Pairwise fun x y => ¬ r y x

variable {r : α → α → Prop}

theorem Closed.prependReplacing {a b : List α} (ha : Closed r a) (hb : Closed r b) :
    Closed r (prependReplacing a b) := by
  intro x hx y hxy
  rw [mem_prependReplacing] at hx ⊢
  exact hx.imp (fun hx => ha x hx y hxy) (fun hx => hb x hx y hxy)

/-- What the left operand keeps is related to by nothing in the closed right one. -/
theorem Ordered.prependReplacing {a b : List α} (ha : Ordered r a) (hb : Ordered r b)
    (hclosed : Closed r b) : Ordered r (prependReplacing a b) := by
  apply List.pairwise_append.mpr ⟨ha.sublist List.filter_sublist, hb, ?_⟩
  intro x hx y hy hyx
  have hxb : x ∉ b := by simpa using (List.mem_filter.mp hx).2
  exact hxb (hclosed y hy x hyx)

/-- The right-associative fold, the first list innermost. -/
def foldReplacing (ls : List (List α)) : List α := ls.foldl (fun acc l => prependReplacing l acc) []

theorem foldReplacing_concat (ls : List (List α)) (l : List α) :
    foldReplacing (ls ++ [l]) = prependReplacing l (foldReplacing ls) := by
  simp [foldReplacing]

theorem mem_foldReplacing {ls : List (List α)} {x : α} :
    x ∈ foldReplacing ls ↔ ∃ l ∈ ls, x ∈ l := by
  induction ls using List.reverseRecOn with
  | nil => simp [foldReplacing]
  | append_singleton ls l ih =>
    rw [foldReplacing_concat, mem_prependReplacing, ih]
    simp [or_and_right, exists_or, or_comm]

theorem nodup_foldReplacing {ls : List (List α)} (h : ∀ l ∈ ls, l.Nodup) :
    (foldReplacing ls).Nodup := by
  induction ls using List.reverseRecOn with
  | nil => exact List.nodup_nil
  | append_singleton ls l ih =>
    rw [foldReplacing_concat]
    apply nodup_prependReplacing (h l (by simp)) (ih fun m hm => h m (by simp [hm]))

theorem ordered_foldReplacing {ls : List (List α)} (hc : ∀ l ∈ ls, Closed r l)
    (ho : ∀ l ∈ ls, Ordered r l) : Closed r (foldReplacing ls) ∧ Ordered r (foldReplacing ls) := by
  induction ls using List.reverseRecOn with
  | nil => exact ⟨fun _ hx => absurd hx List.not_mem_nil, List.Pairwise.nil⟩
  | append_singleton ls l ih =>
    obtain ⟨ihc, iho⟩ := ih (fun m hm => hc m (by simp [hm])) (fun m hm => ho m (by simp [hm]))
    rw [foldReplacing_concat]
    exact ⟨(hc l (by simp)).prependReplacing ihc, (ho l (by simp)).prependReplacing iho ihc⟩

/-- An element of an ordered list comes before whatever it is related to. -/
theorem idxOf_lt_of_ordered {xs : List α} (h : Ordered r xs) {x y : α}
    (hx : x ∈ xs) (hy : y ∈ xs) (hxy : r x y) (hne : x ≠ y) : xs.idxOf x < xs.idxOf y := by
  have hlx := List.idxOf_lt_length_iff.mpr hx
  have hly := List.idxOf_lt_length_iff.mpr hy
  rcases Nat.lt_trichotomy (xs.idxOf x) (xs.idxOf y) with hlt | heq | hgt
  · exact hlt
  · exact absurd ((List.idxOf_inj hx).mp heq) hne
  · have hpair := List.pairwise_iff_getElem.mp h _ _ hly hlx hgt
    rw [List.getElem_idxOf, List.getElem_idxOf] at hpair
    exact absurd hxy hpair

end ScalaRs.ReplacingConcatenation
