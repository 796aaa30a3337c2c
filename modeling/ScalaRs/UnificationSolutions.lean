import Mathlib.Data.Fintype.Defs
import Mathlib.Data.Set.Finite.Basic
import Mathlib.Logic.Relation
import Mathlib.Order.WellFounded
import ScalaRs.TypeUnification

/-! # Solutions of a unification

A binding is stored as it was found and may mention further unknowns. The solution
of an unknown replaces them all, at every depth, by their own solutions. What
`solved` returns is that solution exactly when one replacement is enough. -/
namespace ScalaRs.Unification

/-! ## What a solution is -/

/-- The type mentions none of the unknowns. -/
def Closed (unknowns : Unknowns) (t : Ty) : Prop :=
  ∀ id, unknowns.containsKey id = true → ¬ Free id t

/-- The binding of `id` mentions the unknown `met`. -/
def Meets (u : Unify) (id met : SymbolId) : Prop :=
  ∃ t, u.bound.lookup id = some t ∧ Free met t ∧ u.unknowns.containsKey met = true

/-- The bindings reachable from that of `tp` have no cycle, and every unknown met on
the way is bound. -/
def Solvable (u : Unify) (tp : SymbolId) : Prop :=
  ∀ id, Relation.ReflTransGen (Meets u) tp id →
    (u.bound.lookup id).isSome = true ∧ ¬ Relation.TransGen (Meets u) id id

/-- The substitution of these types for the unknowns. -/
def unknownSubst (unknowns : Unknowns) (f : SymbolId → Ty) : Subst :=
  fun id => if unknowns.containsKey id then some (f id) else none

/-- The binding with all unknowns replaced by their own solutions. -/
inductive Solves (u : Unify) : SymbolId → Ty → Prop
  | bound {id : SymbolId} {t : Ty} (f : SymbolId → Ty) (ht : u.bound.lookup id = some t)
      (hf : ∀ met, u.unknowns.containsKey met = true → Free met t → Solves u met (f met)) :
      Solves u id (t.replace (unknownSubst u.unknowns f) (unknownSubst u.unknowns f))

/-- `solved` finds the solution of `tp` exactly when there is one. -/
def FindsSolution (u : Unify) (tp : SymbolId) : Prop :=
  ((u.solved tp).isSome = true ↔ Solvable u tp) ∧
    ∀ t, u.solved tp = some t →
      (∃ s, Solves u tp s ∧ t.normal = s.normal) ∧ Closed u.unknowns t

/-! ## The chain of aliases -/

/-- The type reached from the binding of `tp` over `n` unknowns bound to unknowns. -/
def Unify.headAfter (u : Unify) (tp : SymbolId) : ℕ → Option Ty
  | 0 => u.bound.lookup tp
  | n + 1 =>
    match u.headAfter tp n with
    | some (.typeParam id) => u.bound.lookup id
    | _ => none

/-- The chain of aliases of `tp` ends after `n` of them, at this type. -/
def EndsAfter (u : Unify) (tp : SymbolId) (n : ℕ) (h : Ty) : Prop :=
  u.headAfter tp n = some h ∧ u.headAfter tp (n + 1) = none

/-- One replacement of the bindings tells whether there is a solution, and gives it. -/
def OneRoundSuffices (u : Unify) (tp : SymbolId) : Prop :=
  u.bound.lookup tp = none ∨
  (Solvable u tp ∧ ∃ n ≤ 8, ∃ h, EndsAfter u tp n h ∧
    ∀ id, u.unknowns.containsKey id = true → Free id h →
      ¬ Overloaded id h ∧ ∃ t, u.bound.lookup id = some t ∧ Closed u.unknowns t) ∨
  (Solvable u tp ∧ ∃ h, EndsAfter u tp 9 h ∧ Closed u.unknowns h) ∨
  (¬ Solvable u tp ∧
    ((∃ n ≤ 8, ∃ h, EndsAfter u tp n h ∧ LeftVisible u.unknowns u.bound h) ∨
      ∃ h, u.headAfter tp 9 = some h ∧ Visible u.unknowns h))

section Chain

variable {u : Unify} {tp : SymbolId}

theorem headAfter_succ_eq_some {n : ℕ} {t : Ty} (h : u.headAfter tp (n + 1) = some t) :
    ∃ id, u.headAfter tp n = some (.typeParam id) ∧ u.bound.lookup id = some t := by
  simp only [Unify.headAfter] at h
  split at h
  · exact ⟨_, ‹_›, h⟩
  · simp at h

theorem headAfter_eq_none_of_le {n m : ℕ} (hnm : n ≤ m) (h : u.headAfter tp n = none) :
    u.headAfter tp m = none := by
  induction hnm with
  | refl => exact h
  | step _ ih => simp [Unify.headAfter, ih]

theorem EndsAfter.unique {n m : ℕ} {h k : Ty} (hn : EndsAfter u tp n h) (hm : EndsAfter u tp m k) :
    n = m ∧ h = k := by
  have hnm : n = m := by
    by_contra hne
    rcases Nat.lt_or_gt_of_ne hne with hlt | hlt
    · have := headAfter_eq_none_of_le hlt hn.2
      simp [hm.1] at this
    · have := headAfter_eq_none_of_le hlt hm.2
      simp [hn.1] at this
  subst hnm
  exact ⟨rfl, Option.some.inj (hn.1.symm.trans hm.1)⟩

theorem EndsAfter.headAfter_eq_none {n m : ℕ} {h : Ty} (hn : EndsAfter u tp n h) (hm : n < m) :
    u.headAfter tp m = none :=
  headAfter_eq_none_of_le hm hn.2

/-- The chain ends within so many aliases or goes on beyond them. -/
theorem endsAfter_or_headAfter {t : Ty} (ht : u.bound.lookup tp = some t) (m : ℕ) :
    (∃ n < m, ∃ h, EndsAfter u tp n h) ∨ ∃ h, u.headAfter tp m = some h := by
  induction m with
  | zero => exact Or.inr ⟨t, ht⟩
  | succ m ih =>
    rcases ih with ⟨n, hn, h⟩ | ⟨h, hh⟩
    · exact Or.inl ⟨n, Nat.lt_succ_of_lt hn, h⟩
    · cases hs : u.headAfter tp (m + 1) with
      | none => exact Or.inl ⟨m, Nat.lt_succ_self m, h, hh, hs⟩
      | some k => exact Or.inr ⟨k, rfl⟩

/-- `expand` follows the chain, one alias a step. -/
theorem expandFrom_headAfter {t h : Ty} (ht : u.bound.lookup tp = some t) {n : ℕ} (hn : n ≤ 9)
    (hh : u.headAfter tp n = some h) : u.expand t = u.expandFrom (9 - n) h := by
  induction n generalizing h with
  | zero =>
    have hth : t = h := Option.some.inj (ht.symm.trans hh)
    rw [hth]
    rfl
  | succ n ih =>
    obtain ⟨id, hid, hb⟩ := headAfter_succ_eq_some hh
    have hne : u.bound.isEmpty = false := by
      cases hu : u.bound with
      | nil => simp [hu] at hb
      | cons => rfl
    rw [ih (by omega) hid, show 9 - n = (9 - (n + 1)) + 1 by omega, Unify.expandFrom]
    simp [hne, hb]

theorem expand_of_endsAfter {t h : Ty} (ht : u.bound.lookup tp = some t) {n : ℕ} (hn : n ≤ 8)
    (hh : EndsAfter u tp n h) : u.expand t = substMap u.bound h := by
  have hne : u.bound.isEmpty = false := by
    cases hu : u.bound with
    | nil => simp [hu] at ht
    | cons => rfl
  rw [expandFrom_headAfter ht (by omega) hh.1, show 9 - n = (8 - n) + 1 by omega]
  cases h with
  | typeParam id =>
    have hend : u.bound.lookup id = none := by simpa [Unify.headAfter, hh.1] using hh.2
    simp [Unify.expandFrom, hne, hend]
  | _ => simp [Unify.expandFrom, hne]

end Chain

/-! ## Solutions -/

section Solutions

variable {u : Unify} {tp : SymbolId}

theorem unknownSubst_get_of_unknown {unknowns : Unknowns} {f : SymbolId → Ty} {id : SymbolId}
    (h : unknowns.containsKey id = true) : (unknownSubst unknowns f).get id = f id := by
  simp [unknownSubst, Subst.get, h]

theorem unknownSubst_get_of_known {unknowns : Unknowns} {f : SymbolId → Ty} {id : SymbolId}
    (h : unknowns.containsKey id = false) :
    (unknownSubst unknowns f).get id = .typeParam id := by
  simp [unknownSubst, Subst.get, h]

theorem Closed.replace_unknownSubst {unknowns : Unknowns} {t : Ty} (h : Closed unknowns t)
    (f : SymbolId → Ty) : t.replace (unknownSubst unknowns f) (unknownSubst unknowns f) = t := by
  have hget : ∀ id, Free id t → (unknownSubst unknowns f).get id = Subst.none.get id := by
    intro id hf
    exact unknownSubst_get_of_known (Bool.eq_false_iff.mpr fun hk => h id hk hf)
  rw [replace_congr hget fun id ho => hget id ho.free, replace_none]

theorem Closed.solves {t : Ty} (h : Closed u.unknowns t) {id : SymbolId}
    (ht : u.bound.lookup id = some t) : Solves u id t := by
  have hs : Solves u id (t.replace (unknownSubst u.unknowns .typeParam)
      (unknownSubst u.unknowns .typeParam)) :=
    .bound .typeParam ht fun met hk hf => absurd hf (h met hk)
  rwa [h.replace_unknownSubst] at hs

theorem Solves.closed {s : Ty} {id : SymbolId} (hs : Solves u id s) : Closed u.unknowns s := by
  induction hs with
  | bound f ht hf ih =>
    intro m hm hfree
    obtain ⟨p, hp, hmp⟩ := free_of_free_replace hfree
    cases hk : u.unknowns.containsKey p with
    | true =>
      rw [unknownSubst_get_of_unknown hk] at hmp
      exact ih p hk hp m hm hmp
    | false =>
      rw [unknownSubst_get_of_known hk, free_typeParam] at hmp
      simp [hmp, hk] at hm

theorem Solves.of_lookup {s t : Ty} {id : SymbolId} (hs : Solves u id s)
    (ht : u.bound.lookup id = some t) :
    ∃ f : SymbolId → Ty,
      (∀ met, u.unknowns.containsKey met = true → Free met t → Solves u met (f met)) ∧
        s = t.replace (unknownSubst u.unknowns f) (unknownSubst u.unknowns f) := by
  cases hs with
  | bound f hb hf =>
    obtain rfl := Option.some.inj (hb.symm.trans ht)
    exact ⟨f, hf, rfl⟩

theorem Solves.eq_of_closed {t s : Ty} {id : SymbolId} (hs : Solves u id s)
    (ht : u.bound.lookup id = some t) (h : Closed u.unknowns t) : s = t := by
  obtain ⟨f, -, rfl⟩ := hs.of_lookup ht
  exact h.replace_unknownSubst f

/-- The solution of `tp` is what the end of its chain of aliases becomes. -/
theorem Solves.of_headAfter (hu : OnlyUnknowns u.unknowns u) {s h : Ty} (hs : Solves u tp s)
    {n : ℕ} (hh : u.headAfter tp n = some h) :
    ∃ f : SymbolId → Ty,
      (∀ id, u.unknowns.containsKey id = true → Free id h → Solves u id (f id)) ∧
        s = h.replace (unknownSubst u.unknowns f) (unknownSubst u.unknowns f) := by
  induction n generalizing h with
  | zero => exact hs.of_lookup hh
  | succ n ih =>
    obtain ⟨id, hid, hb⟩ := headAfter_succ_eq_some hh
    obtain ⟨f, hf, heq⟩ := ih hid
    have hk : u.unknowns.containsKey id = true := hu.2 id (by simp [hb])
    rw [replace_typeParam, unknownSubst_get_of_unknown hk] at heq
    rw [heq]
    exact (hf id hk .here).of_lookup hb

theorem Solvable.of_meets {id met : SymbolId} (h : Solvable u id) (hm : Meets u id met) :
    Solvable u met :=
  fun other ho => h other (.head hm ho)

/-- Where the reachable bindings have no cycle there is a solution. -/
theorem Solvable.solves (h : Solvable u tp) : ∃ s, Solves u tp s := by
  let Reached := { id // Relation.ReflTransGen (Meets u) tp id }
  have hfin : Finite Reached := by
    apply Set.Finite.to_subtype
    apply Set.Finite.subset (List.finite_toSet (u.bound.map Prod.fst))
    intro id hid
    obtain ⟨p, hp, hpid⟩ := List.lookup_isSome_iff.mp (h id hid).1
    have hid' : id = p.1 := by simpa using hpid
    exact List.mem_map.mpr ⟨p, hp, hid'.symm⟩
  let Below : Reached → Reached → Prop := fun x y => Relation.TransGen (Meets u) y.1 x.1
  have htrans : IsTrans Reached Below := ⟨fun x y z hxy hyz => hyz.trans hxy⟩
  have hirr : Std.Irrefl Below := ⟨fun x => (h x.1 x.2).2⟩
  have hwf : WellFounded Below := Finite.wellFounded_of_trans_of_irrefl Below
  have hall : ∀ x : Reached, ∃ s, Solves u x.1 s := by
    intro x
    induction x using hwf.induction with
    | _ x ih =>
      obtain ⟨t, ht⟩ := Option.isSome_iff_exists.mp (h x.1 x.2).1
      have hmet : ∀ met, ∃ s, u.unknowns.containsKey met = true → Free met t → Solves u met s := by
        intro met
        by_cases hm : Meets u x.1 met
        · obtain ⟨s, hs⟩ := ih ⟨met, x.2.tail hm⟩ (.single hm)
          exact ⟨s, fun _ _ => hs⟩
        · exact ⟨.noType, fun hk hf => absurd ⟨t, ht, hf, hk⟩ hm⟩
      choose f hf using hmet
      exact ⟨_, .bound f ht hf⟩
  exact hall ⟨tp, .refl⟩

/-! ## What `solved` finds -/

theorem not_mentionsUnknown_of_closed {unknowns : Unknowns} {t : Ty} (h : Closed unknowns t) :
    mentionsUnknown unknowns t = false := by
  rw [Bool.eq_false_iff, Ne, mentionsUnknown_iff_visible]
  intro hv
  obtain ⟨id, hk, hs⟩ := hv.shown
  exact h id hk hs.free

theorem closed_of_normal_eq {unknowns : Unknowns} {s t : Ty} (hn : t.normal = s.normal)
    (hs : Closed unknowns s) : Closed unknowns t := by
  intro id hk hf
  apply hs id hk
  rwa [← free_normal, ← hn, free_normal]

theorem solved_of_lookup {t : Ty} (ht : u.bound.lookup tp = some t) :
    u.solved tp = if mentionsUnknown u.unknowns (u.expand t) then none else some (u.expand t) := by
  simp [Unify.solved, ht]

/-- Where a solution is promised, one substitution yields it exactly if the unknowns
in the way of it are bound to types without unknowns. -/
theorem substMap_finds_iff (hu : OnlyUnknowns u.unknowns u) {n : ℕ} {h s : Ty}
    (hh : u.headAfter tp n = some h) (hs : Solves u tp s) :
    (substMap u.bound h).normal = s.normal ↔
      ∀ id, u.unknowns.containsKey id = true → Free id h →
        ¬ Overloaded id h ∧ ∃ t, u.bound.lookup id = some t ∧ Closed u.unknowns t := by
  obtain ⟨f, hf, rfl⟩ := hs.of_headAfter hu hh
  rw [normal_substMap]
  constructor
  · intro hn id hk hfree
    have hclosed := (hf id hk hfree).closed
    obtain ⟨hov, hget⟩ := normal_get_of_normal_replace hn id
    rw [unknownSubst_get_of_unknown hk] at hov hget
    -- a parameter that stays itself is no solution
    have hself : ∀ t : Ty, t = .typeParam id → t.normal ≠ (f id).normal := by
      intro t ht heq
      apply hclosed id hk
      rw [← free_normal, ← heq, free_normal, ht]
      exact .here
    have hno : ¬ Overloaded id h := fun ho => hself _ rfl (hov ho)
    refine ⟨hno, ?_⟩
    have heq := (hget hfree).resolve_left hno
    cases ht : u.bound.lookup id with
    | none => exact absurd heq (hself _ (by simp [Subst.get, lookupSubst, ht]))
    | some t =>
      refine ⟨t, rfl, ?_⟩
      have hget : (lookupSubst u.bound).get id = t := by simp [Subst.get, lookupSubst, ht]
      rw [hget] at heq
      exact closed_of_normal_eq heq hclosed
  · intro hall
    congr 1
    apply replace_congr
    · intro id hfree
      cases hk : u.unknowns.containsKey id with
      | true =>
        obtain ⟨-, t, ht, hclosed⟩ := hall id hk hfree
        rw [unknownSubst_get_of_unknown hk, (hf id hk hfree).eq_of_closed ht hclosed]
        simp [Subst.get, lookupSubst, ht]
      | false =>
        rw [unknownSubst_get_of_known hk]
        have hnone : u.bound.lookup id = none := by
          by_contra hne
          have := hu.2 id (Option.isSome_iff_ne_none.mpr hne)
          simp [hk] at this
        simp [Subst.get, lookupSubst, hnone]
    · intro id hov
      cases hk : u.unknowns.containsKey id with
      | true => exact absurd hov (hall id hk hov.free).1
      | false =>
        rw [unknownSubst_get_of_known hk]
        rfl

/-- Where there is no solution, none is found exactly if the test for unknowns sees one. -/
theorem findsSolution_iff_of_not_solvable {t : Ty} (ht : u.bound.lookup tp = some t)
    (h : ¬ Solvable u tp) : FindsSolution u tp ↔ Visible u.unknowns (u.expand t) := by
  rw [FindsSolution, solved_of_lookup ht, ← mentionsUnknown_iff_visible]
  cases mentionsUnknown u.unknowns (u.expand t) <;> simp [h]

theorem findsSolution_iff_of_solvable {t : Ty} (ht : u.bound.lookup tp = some t)
    (h : Solvable u tp) :
    FindsSolution u tp ↔ ∃ s, Solves u tp s ∧ (u.expand t).normal = s.normal := by
  rw [FindsSolution, solved_of_lookup ht]
  constructor
  · rintro ⟨hsome, hval⟩
    have hsome := hsome.mpr h
    cases hm : mentionsUnknown u.unknowns (u.expand t) with
    | true => simp [hm] at hsome
    | false => exact (hval _ (by simp [hm])).1
  · rintro ⟨s, hs, hn⟩
    have hclosed := closed_of_normal_eq hn hs.closed
    rw [not_mentionsUnknown_of_closed hclosed]
    refine ⟨by simpa using h, ?_⟩
    rintro r hr
    obtain rfl : u.expand t = r := by simpa using hr
    exact ⟨⟨s, hs, hn⟩, hclosed⟩

/-- The chain ends early enough for `expand` to substitute at its end. -/
theorem findsSolution_iff_of_short (hu : OnlyUnknowns u.unknowns u) {t : Ty}
    (ht : u.bound.lookup tp = some t) {n : ℕ} (hn : n ≤ 8) {h : Ty} (hh : EndsAfter u tp n h) :
    FindsSolution u tp ↔ OneRoundSuffices u tp := by
  have hend : ∀ m k, EndsAfter u tp m k → n = m ∧ h = k := fun m k hm => hh.unique hm
  have hnine : u.headAfter tp 9 = none := hh.headAfter_eq_none (by omega)
  by_cases hsol : Solvable u tp
  · rw [findsSolution_iff_of_solvable ht hsol, expand_of_endsAfter ht hn hh]
    constructor
    · rintro ⟨s, hs, heq⟩
      exact Or.inr (Or.inl ⟨hsol, n, hn, h, hh, (substMap_finds_iff hu hh.1 hs).mp heq⟩)
    · rintro (hnone | ⟨-, m, -, k, hm, hall⟩ | ⟨-, k, hm, -⟩ | ⟨hnot, -⟩)
      · simp [ht] at hnone
      · obtain ⟨-, rfl⟩ := hend m k hm
        obtain ⟨s, hs⟩ := hsol.solves
        exact ⟨s, hs, (substMap_finds_iff hu hh.1 hs).mpr hall⟩
      · exact absurd hm.1 (by simp [hnine])
      · exact absurd hsol hnot
  · rw [findsSolution_iff_of_not_solvable ht hsol, expand_of_endsAfter ht hn hh, visible_substMap]
    constructor
    · intro hv
      exact Or.inr (Or.inr (Or.inr ⟨hsol, Or.inl ⟨n, hn, h, hh, hv⟩⟩))
    · rintro (hnone | ⟨hyes, -⟩ | ⟨hyes, -⟩ | ⟨-, ⟨m, -, k, hm, hv⟩ | ⟨k, hk, -⟩⟩)
      · simp [ht] at hnone
      · exact absurd hyes hsol
      · exact absurd hyes hsol
      · obtain ⟨-, rfl⟩ := hend m k hm
        exact hv
      · simp [hnine] at hk

/-- The chain goes on to the depth at which `expand` gives up. -/
theorem findsSolution_iff_of_long (hu : OnlyUnknowns u.unknowns u) {t : Ty}
    (ht : u.bound.lookup tp = some t) {h : Ty} (hh : u.headAfter tp 9 = some h) :
    FindsSolution u tp ↔ OneRoundSuffices u tp := by
  have hexp : u.expand t = h := expandFrom_headAfter ht (le_refl 9) hh
  have hshort : ∀ m ≤ 8, ∀ k, ¬ EndsAfter u tp m k := by
    intro m hm k hk
    have := hk.headAfter_eq_none (m := 9) (by omega)
    simp [hh] at this
  by_cases hsol : Solvable u tp
  · rw [findsSolution_iff_of_solvable ht hsol, hexp]
    constructor
    · rintro ⟨s, hs, heq⟩
      have hclosed := closed_of_normal_eq heq hs.closed
      have hlast : u.headAfter tp 10 = none := by
        by_contra hne
        obtain ⟨k, hk⟩ := Option.ne_none_iff_exists'.mp hne
        obtain ⟨id, hid, hb⟩ := headAfter_succ_eq_some hk
        obtain rfl := Option.some.inj (hh.symm.trans hid)
        exact hclosed id (hu.2 id (by simp [hb])) .here
      exact Or.inr (Or.inr (Or.inl ⟨hsol, h, ⟨hh, hlast⟩, hclosed⟩))
    · rintro (hnone | ⟨-, m, hm, k, hk, -⟩ | ⟨-, k, hk, hclosed⟩ | ⟨hnot, -⟩)
      · simp [ht] at hnone
      · exact absurd hk (hshort m hm k)
      · obtain rfl := Option.some.inj (hh.symm.trans hk.1)
        obtain ⟨s, hs⟩ := hsol.solves
        obtain ⟨f, -, rfl⟩ := hs.of_headAfter hu hh
        rw [hclosed.replace_unknownSubst] at hs
        exact ⟨h, hs, rfl⟩
      · exact absurd hsol hnot
  · rw [findsSolution_iff_of_not_solvable ht hsol, hexp]
    constructor
    · intro hv
      exact Or.inr (Or.inr (Or.inr ⟨hsol, Or.inr ⟨h, hh, hv⟩⟩))
    · rintro (hnone | ⟨hyes, -⟩ | ⟨hyes, -⟩ | ⟨-, ⟨m, hm, k, hk, -⟩ | ⟨k, hk, hv⟩⟩)
      · simp [ht] at hnone
      · exact absurd hyes hsol
      · exact absurd hyes hsol
      · exact absurd hk (hshort m hm k)
      · obtain rfl := Option.some.inj (hh.symm.trans hk)
        exact hv

theorem findsSolution_iff_of_onlyUnknowns (hu : OnlyUnknowns u.unknowns u) :
    FindsSolution u tp ↔ OneRoundSuffices u tp := by
  cases ht : u.bound.lookup tp with
  | none =>
    have hn : ¬ Solvable u tp := by
      intro h
      have := (h tp .refl).1
      simp [ht] at this
    simp [FindsSolution, OneRoundSuffices, Unify.solved, ht, hn]
  | some t =>
    rcases endsAfter_or_headAfter ht 9 with ⟨n, hn, h, hh⟩ | ⟨h, hh⟩
    · exact findsSolution_iff_of_short hu ht (by omega) hh
    · exact findsSolution_iff_of_long hu ht hh

end Solutions

/-- After any calls `solved` finds the solution of a parameter exactly when one
replacement of the bindings suffices for it. -/
theorem solved_finds_solution_iff (typer : Typer) (own undet : List SymbolId) (calls : List Call)
    (tp : SymbolId) :
    FindsSolution ((Unify.new own undet).run typer calls) tp ↔
      OneRoundSuffices ((Unify.new own undet).run typer calls) tp := by
  have hnew : OnlyUnknowns (Unify.new own undet).unknowns (Unify.new own undet) :=
    ⟨rfl, fun id h => by simp [Unify.new] at h⟩
  have hrun := onlyUnknowns_run typer hnew calls
  apply findsSolution_iff_of_onlyUnknowns
  rwa [hrun.1]

/-- A typer that knows of no class. -/
def bareTyper : Typer where
  isSubType _ _ := false
  baseTypeInstance _ _ := none
  functionClassForm _ := none
  etaExpandPair _ _ := none
  lub _ _ := .any
  subtypeClassReaches _ _ := none
  tparams _ := []
  flags _ := ⟨false, false⟩
  isModuleClass _ := false
  jvmName _ := ""
  sameType _ _ := false
  mapOrder entries := entries
  mapOrder_perm entries := List.Perm.refl entries

/-- Three unknowns `P`, `A` and `B` found to be `List[A]`, `List[B]` and `Int`. -/
def nestedCalls : List Call :=
  [.unify (.typeParam 0) (.cls 9 [.typeParam 1]),
   .unify (.typeParam 1) (.cls 9 [.typeParam 2]),
   .unify (.typeParam 2) .int]

/-- An unbound unknown against a type that is no wildcard gets bound to it. -/
theorem unifyStep_unbound (typer : Typer) (unify : Ty → Ty → UnifyM Bool) {u : Unify} {id : SymbolId}
    {b : Ty} (hk : u.unknowns.containsKey id = true) (hid : u.bound.lookup id = none)
    (hs : stripAnnot b = b) (hw : isWildcard b = false) :
    unifyStep typer unify (.typeParam id) b u = bindUnknown id b u := by
  have ha : u.unknownOf (.typeParam id) = some id := by simp [Unify.unknownOf, hk]
  have hp : isWildcard (.typeParam id) = false := rfl
  unfold unifyStep
  simp only [stripAnnot, hs, bind, StateT.bind, get, getThe, MonadStateOf.get, StateT.get, hp, hw,
    Bool.or_self, Bool.false_and, pure, ha, hid]
  rfl

theorem unify_unbound {typer : Typer} {u : Unify} {id : SymbolId} {ty : Ty}
    (hk : u.unknowns.containsKey id = true) (hid : u.bound.lookup id = none)
    (hs : stripAnnot ty = ty) (hw : isWildcard ty = false) (hn : isNoTypeOrError ty = false)
    (hm : mentionsUnknown [(id, false)] ty = false) :
    unify typer (.typeParam id) ty u =
      (true, { u with bound := (id, ty) :: u.bound.filter (·.1 != id) }) := by
  have hstep := unifyStep_unbound typer (unifyAt typer 24) hk hid hs hw
  unfold bindUnknown at hstep
  rw [hn, hw, hm] at hstep
  exact hstep

/-- Their state: nothing but the three bindings. -/
def nestedState : Unify where
  unknowns := [(0, true), (1, true), (2, true)]
  evidenceConstructors := false
  bound := [(2, .int), (1, .cls 9 [.typeParam 2]), (0, .cls 9 [.typeParam 1])]

theorem nestedState_eq_run : (Unify.new [0, 1, 2] []).run bareTyper nestedCalls = nestedState := by
  have h0 : unify bareTyper (.typeParam 0) (.cls 9 [.typeParam 1]) (Unify.new [0, 1, 2] []) =
      (true, { Unify.new [0, 1, 2] [] with bound := [(0, .cls 9 [.typeParam 1])] }) :=
    unify_unbound (by decide) rfl rfl rfl rfl (by simp [mentionsUnknown, Unknowns.containsKey])
  have h1 : unify bareTyper (.typeParam 1) (.cls 9 [.typeParam 2])
      { Unify.new [0, 1, 2] [] with bound := [(0, .cls 9 [.typeParam 1])] } =
      (true, { Unify.new [0, 1, 2] [] with
        bound := [(1, .cls 9 [.typeParam 2]), (0, .cls 9 [.typeParam 1])] }) :=
    unify_unbound (by decide) rfl rfl rfl rfl (by simp [mentionsUnknown, Unknowns.containsKey])
  have h2 : unify bareTyper (.typeParam 2) .int { Unify.new [0, 1, 2] [] with
        bound := [(1, .cls 9 [.typeParam 2]), (0, .cls 9 [.typeParam 1])] } =
      (true, nestedState) :=
    unify_unbound (by decide) rfl rfl rfl rfl (by simp [mentionsUnknown])
  simp only [Unify.run, nestedCalls, List.foldl_cons, List.foldl_nil, Call.perform, h0, h1, h2]

theorem meets_nestedState {i j : SymbolId} (h : Meets nestedState i j) :
    i < j ∧ (j = 0 ∨ j = 1 ∨ j = 2) := by
  obtain ⟨t, ht, hf, hk⟩ := h
  have hj : j = 0 ∨ j = 1 ∨ j = 2 := by
    simpa [nestedState, Unknowns.containsKey, List.lookup_isSome_iff] using hk
  refine ⟨?_, hj⟩
  simp only [nestedState, List.lookup_cons, List.lookup_nil] at ht
  split at ht
  · obtain rfl := Option.some.inj ht
    rw [free_iff_of_ne (by simp)] at hf
    simp [Ty.kids] at hf
  split at ht
  · obtain rfl := Option.some.inj ht
    rw [free_iff_of_ne (by simp)] at hf
    simp_all [Ty.kids]
  split at ht
  · obtain rfl := Option.some.inj ht
    rw [free_iff_of_ne (by simp)] at hf
    simp_all [Ty.kids]
  · simp at ht

/-- `P` is `List[List[Int]]`, but no solution is found for it. -/
theorem nested_not_found :
    ¬ FindsSolution ((Unify.new [0, 1, 2] []).run bareTyper nestedCalls) 0 := by
  rw [nestedState_eq_run]
  intro h
  have hsolvable : Solvable nestedState 0 := by
    intro id hid
    have hcases : id = 0 ∨ id = 1 ∨ id = 2 := by
      cases hid with
      | refl => exact Or.inl rfl
      | tail _ hm => exact (meets_nestedState hm).2
    constructor
    · rcases hcases with rfl | rfl | rfl <;> rfl
    · intro hc
      have hlt : ∀ j, Relation.TransGen (Meets nestedState) id j → id < j := by
        intro j hj
        induction hj with
        | single hm => exact (meets_nestedState hm).1
        | tail _ hm ih => exact ih.trans (meets_nestedState hm).1
      exact absurd (hlt id hc) (lt_irrefl id)
  have hend : EndsAfter nestedState 0 0 (.cls 9 [.typeParam 1]) := ⟨rfl, rfl⟩
  have hget : (lookupSubst nestedState.bound).get 1 = .cls 9 [.typeParam 2] := rfl
  have hsubst : substMap nestedState.bound (.cls 9 [.typeParam 1]) =
      .cls 9 [.cls 9 [.typeParam 2]] := by
    rw [substMap_of_ne _ (by simp) (by simp) (by simp)]
    simp [Ty.mapKids, hideParams, hget]
  have hmention : mentionsUnknown nestedState.unknowns (.cls 9 [.cls 9 [.typeParam 2]]) = true := by
    simp [mentionsUnknown, nestedState, Unknowns.containsKey]
  have hnone : nestedState.solved 0 = none := by
    rw [solved_of_lookup hend.1, expand_of_endsAfter hend.1 (by omega) hend, hsubst, hmention]
    rfl
  have hsome := h.1.mpr hsolvable
  rw [hnone] at hsome
  exact absurd hsome (by simp)

end ScalaRs.Unification
