import Mathlib.Data.List.Chain
import Mathlib.Data.List.Nodup
import Mathlib.Logic.Relator

/-! # Lassos

A chain that ends where it meets itself again: a path into a cycle, and once
around. Along a relation in which each element has at most one successor, a
starting point has at most one lasso, and each point of its cycle has that same
cycle, from itself on. -/
namespace Lassos

universe u

variable {α : Type u} {r : α → α → Prop}

/-- A closed chain without repetition, from its first element around. -/
def IsCycle (r : α → α → Prop) (l : List α) : Prop :=
  ∃ e t, l = e :: t ∧ (e :: (t ++ [e])).IsChain r ∧ l.Nodup

/-- A chain along `path` and then through the cycle `l`. -/
def Lasso (r : α → α → Prop) (path l : List α) : Prop :=
  ∃ trunk e t, l = e :: t ∧ path <+: trunk ++ l ∧ (trunk ++ e :: (t ++ [e])).IsChain r ∧
    (trunk ++ l).Nodup

theorem Lasso.isCycle {path l : List α} (h : Lasso r path l) : IsCycle r l := by
  obtain ⟨trunk, e, t, rfl, -, hchain, hnodup⟩ := h
  exact ⟨e, t, rfl, hchain.right_of_append, hnodup.of_append_right⟩

theorem IsCycle.lasso {e : α} {t : List α} (h : IsCycle r (e :: t)) : Lasso r [e] (e :: t) := by
  obtain ⟨e', t', heq, hchain, hnodup⟩ := h
  cases heq
  exact ⟨[], e, t, rfl, ⟨t, rfl⟩, hchain, hnodup⟩

theorem IsCycle.imp {s : α → α → Prop} {l : List α} (h : IsCycle r l) (hrs : ∀ x y, r x y → s x y) :
    IsCycle s l := by
  obtain ⟨e, t, rfl, hchain, hnodup⟩ := h
  exact ⟨e, t, rfl, hchain.imp hrs, hnodup⟩

/-- The last point of a cycle leads to its first. -/
theorem IsCycle.closes {e z : α} {t : List α} (h : IsCycle r (e :: t))
    (hz : (e :: t).getLast? = some z) : r z e := by
  obtain ⟨e', t', heq, hchain, -⟩ := h
  cases heq
  rw [← List.cons_append, List.isChain_append] at hchain
  exact hchain.2.2 z hz e rfl

/-- A cycle may start at any of its points. -/
theorem IsCycle.rotate {a b : List α} {m : α} (h : IsCycle r (a ++ m :: b)) :
    IsCycle r (m :: b ++ a) := by
  obtain ⟨e, t, heq, hchain, hnodup⟩ := h
  refine ⟨m, b ++ a, rfl, ?_, (List.perm_append_comm.nodup_iff).mp hnodup⟩
  cases a with
  | nil =>
    cases heq
    simpa using hchain
  | cons e' a =>
    obtain ⟨rfl, rfl⟩ := List.cons.inj heq
    have hsplit : e' :: (a ++ m :: b ++ [e']) = (e' :: a) ++ m :: (b ++ [e']) := by simp
    have hboth : ((e' :: a) ++ m :: (b ++ [e'])).IsChain r := by
      rw [← hsplit]
      exact hchain
    rw [List.isChain_split] at hboth
    have hjoin : m :: (b ++ e' :: a ++ [m]) = (m :: b) ++ e' :: (a ++ [m]) := by simp
    rw [hjoin, List.isChain_split]
    exact ⟨hboth.2, hboth.1⟩

/-- Two chains from one point run along each other. -/
theorem chains_agree (hr : Relator.RightUnique r) {l : List α} : ∀ {x : α} {l' : List α},
    (x :: l).IsChain r → (x :: l').IsChain r → l <+: l' ∨ l' <+: l := by
  induction l with
  | nil => exact fun _ _ => .inl List.nil_prefix
  | cons y l ih =>
    intro x l' h h'
    cases l' with
    | nil => exact .inr List.nil_prefix
    | cons y' l' =>
      rw [List.isChain_cons_cons] at h h'
      obtain rfl := hr h.1 h'.1
      simpa only [List.cons_prefix_cons, true_and] using ih h.2 h'.2

/-- A lasso that starts out along another is the same. -/
private theorem eq_of_along {trunk trunk' t t' : List α} {e e' : α}
    (hnodup : (trunk ++ e :: t).Nodup) (hnodup' : (trunk' ++ e' :: t').Nodup)
    (h : trunk ++ e :: (t ++ [e]) <+: trunk' ++ e' :: (t' ++ [e'])) : e :: t = e' :: t' := by
  have hend : ∀ (trunk t : List α) (e : α),
      trunk ++ e :: (t ++ [e]) = (trunk ++ e :: t) ++ [e] := by simp
  rw [hend trunk' t' e', List.prefix_concat_iff] at h
  rcases h with h | h
  · rw [hend] at h
    obtain ⟨hbody, hlast⟩ := List.append_inj' h rfl
    obtain rfl := List.singleton_inj.mp hlast
    have hfresh := (List.nodup_cons.mp (List.nodup_middle.mp hnodup)).1
    rw [List.mem_append, not_or] at hfresh
    obtain ⟨-, -, rfl⟩ := (List.append_cons_inj_of_notMem hfresh.1 hfresh.2).mp hbody
    rfl
  · have htwice := h.sublist.nodup hnodup'
    rw [hend, List.nodup_append] at htwice
    exact absurd rfl (htwice.2.2 e (by simp) e (by simp))

theorem Lasso.unique (hr : Relator.RightUnique r) {x : α} {l l' : List α}
    (h : Lasso r [x] l) (h' : Lasso r [x] l') : l = l' := by
  obtain ⟨trunk, e, t, rfl, ⟨s, hs⟩, hchain, hnodup⟩ := h
  obtain ⟨trunk', e', t', rfl, ⟨s', hs'⟩, hchain', hnodup'⟩ := h'
  have hw : trunk ++ e :: (t ++ [e]) = x :: (s ++ [e]) := by
    rw [← List.cons_append, ← List.append_assoc, ← hs]
    rfl
  have hw' : trunk' ++ e' :: (t' ++ [e']) = x :: (s' ++ [e']) := by
    rw [← List.cons_append, ← List.append_assoc, ← hs']
    rfl
  rw [hw] at hchain
  rw [hw'] at hchain'
  rcases chains_agree hr hchain hchain' with hle | hle
  · apply eq_of_along hnodup hnodup'
    rw [hw, hw', List.cons_prefix_cons]
    exact ⟨rfl, hle⟩
  · apply Eq.symm
    apply eq_of_along hnodup' hnodup
    rw [hw, hw', List.cons_prefix_cons]
    exact ⟨rfl, hle⟩

end Lassos
