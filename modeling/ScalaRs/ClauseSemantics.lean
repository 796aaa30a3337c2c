import Mathlib.Data.Finset.Card
import Mathlib.Data.Finset.Dedup
import Mathlib.Logic.Function.Basic

/-! # Satisfaction of clause lists

A clause is anything with literals as members. A literal is a variable with a
polarity; an assignment gives every variable a truth value. -/
namespace ScalaRs.ClauseSemantics

universe u v w

class Literal (L : Type u) (V : outParam (Type v)) where
  var : L → V
  pos : L → Bool
  ext : ∀ a b, var a = var b → pos a = pos b → a = b

open Literal

variable {L : Type u} {V : Type v} [Literal L V] {C : Type w} [Membership L C]

def Holds (σ : V → Bool) (l : L) : Prop := σ (var l) = pos l

/-- The two literals of one variable. -/
def Opposite (a b : L) : Prop := var a = var b ∧ pos b = !pos a

def SatClause (σ : V → Bool) (c : C) : Prop := ∃ l : L, l ∈ c ∧ Holds σ l

def Satisfies (σ : V → Bool) (cs : List C) : Prop := ∀ c ∈ cs, SatClause σ c

def Satisfiable (cs : List C) : Prop := ∃ σ : V → Bool, Satisfies σ cs

/-- A total assignment that makes every listed literal true. -/
def Extends (σ : V → Bool) (lits : List L) : Prop := ∀ l ∈ lits, Holds σ l

/-- No variable is listed with both polarities. -/
def Consistent (lits : List L) : Prop := ∀ a ∈ lits, ∀ b ∈ lits, var a = var b → a = b

instance (σ : V → Bool) (l : L) : Decidable (Holds σ l) :=
  inferInstanceAs (Decidable (σ (var l) = pos l))

theorem Opposite.holds_iff {a b : L} (h : Opposite a b) (σ : V → Bool) :
    Holds σ b ↔ ¬ Holds σ a := by
  unfold Holds
  rw [h.2, ← h.1]
  cases σ (var a) <;> cases pos a <;> decide

/-- Literals of one variable are equal or opposite. -/
theorem eq_or_opposite {a b : L} (h : var a = var b) : a = b ∨ Opposite a b := by
  by_cases hp : pos a = pos b
  · exact .inl (ext a b h hp)
  · refine .inr ⟨h, ?_⟩
    revert hp
    cases pos a <;> cases pos b <;> decide

theorem satisfies_nil (σ : V → Bool) : Satisfies (L := L) σ ([] : List C) :=
  fun _ h => absurd h List.not_mem_nil

theorem satisfies_cons {σ : V → Bool} {c : C} {cs : List C} :
    Satisfies (L := L) σ (c :: cs) ↔ SatClause (L := L) σ c ∧ Satisfies (L := L) σ cs := by
  simp [Satisfies]

theorem satisfies_append {σ : V → Bool} {cs ds : List C} :
    Satisfies (L := L) σ (cs ++ ds) ↔ Satisfies (L := L) σ cs ∧ Satisfies (L := L) σ ds := by
  simp only [Satisfies, List.mem_append]
  exact ⟨fun h => ⟨fun c hc => h c (.inl hc), fun c hc => h c (.inr hc)⟩,
    fun h c hc => hc.elim (h.1 c) (h.2 c)⟩

theorem Satisfies.sublist {σ : V → Bool} {cs ds : List C} (h : Satisfies (L := L) σ cs)
    (hsub : ∀ c ∈ ds, c ∈ cs) : Satisfies (L := L) σ ds :=
  fun c hc => h c (hsub c hc)

theorem satClause_singleton {σ : V → Bool} {c : C} {l : L} (hc : ∀ x, x ∈ c ↔ x = l) :
    SatClause (L := L) σ c ↔ Holds σ l := by
  simp [SatClause, hc]

/-- Dropping the clauses a true literal satisfies, and its opposite from the
rest, changes nothing under an assignment that makes it true. -/
theorem satisfies_propagate {σ : V → Bool} {l : L} (hl : Holds σ l)
    (p : C → Bool) (strip : C → C) (cs : List C) (hp : ∀ c ∈ cs, p c = false → l ∈ c)
    (hstrip : ∀ c ∈ cs, ∀ x, x ∈ strip c ↔ x ∈ c ∧ ¬ Opposite l x) :
    Satisfies (L := L) σ ((cs.filter p).map strip) ↔ Satisfies (L := L) σ cs := by
  simp only [Satisfies, List.mem_map, List.mem_filter]
  constructor
  · intro h c hc
    cases hpc : p c with
    | false => exact ⟨l, hp c hc hpc, hl⟩
    | true =>
      obtain ⟨x, hx, hσ⟩ := h (strip c) ⟨c, ⟨hc, hpc⟩, rfl⟩
      exact ⟨x, ((hstrip c hc x).mp hx).1, hσ⟩
  · rintro h - ⟨c, ⟨hc, -⟩, rfl⟩
    obtain ⟨x, hx, hσ⟩ := h c hc
    exact ⟨x, (hstrip c hc x).mpr ⟨hx, fun ho => (ho.holds_iff σ).mp hσ hl⟩, hσ⟩

/-- The clauses a true literal satisfies may be dropped. -/
theorem satisfies_filter {σ : V → Bool} {l : L} (hl : Holds σ l)
    (p : C → Bool) (cs : List C) (hp : ∀ c ∈ cs, p c = false → l ∈ c) :
    Satisfies (L := L) σ (cs.filter p) ↔ Satisfies (L := L) σ cs := by
  constructor
  · intro h c hc
    cases hpc : p c with
    | false => exact ⟨l, hp c hc hpc, hl⟩
    | true => exact h c (List.mem_filter.mpr ⟨hc, hpc⟩)
  · exact fun h => h.sublist fun c hc => (List.mem_filter.mp hc).1

/-- Every assignment makes a literal or its opposite true. -/
theorem satisfiable_split {a b : L} (hab : Opposite a b) {cs : List C} {ca cb : C}
    (ha : ∀ x, x ∈ ca ↔ x = a) (hb : ∀ x, x ∈ cb ↔ x = b)
    (h : Satisfiable (L := L) cs) :
    Satisfiable (L := L) (cs ++ [ca]) ∨ Satisfiable (L := L) (cs ++ [cb]) := by
  obtain ⟨σ, hσ⟩ := h
  by_cases hh : Holds σ a
  · refine .inl ⟨σ, satisfies_append.mpr ⟨hσ, satisfies_cons.mpr ⟨?_, satisfies_nil σ⟩⟩⟩
    exact (satClause_singleton ha).mpr hh
  · refine .inr ⟨σ, satisfies_append.mpr ⟨hσ, satisfies_cons.mpr ⟨?_, satisfies_nil σ⟩⟩⟩
    exact (satClause_singleton hb).mpr ((hab.holds_iff σ).mpr hh)

/-- Consistent literals have a total assignment that extends them. -/
theorem Consistent.exists_extends [DecidableEq V] {lits : List L} (h : Consistent lits) :
    ∃ σ : V → Bool, Extends σ lits := by
  refine ⟨fun v => lits.any fun l => decide (var l = v) && pos l, fun l hl => ?_⟩
  unfold Holds
  cases hp : pos l with
  | true =>
    exact List.any_eq_true.mpr ⟨l, hl, by simp [hp]⟩
  | false =>
    refine List.any_eq_false.mpr fun b hb => ?_
    by_cases hv : var b = var l
    · simp [h b hb l hl hv, hp]
    · simp [hv]

theorem Consistent.cons {l : L} {lits : List L} (h : Consistent lits)
    (hl : ∀ a ∈ lits, var a ≠ var l) : Consistent (l :: lits) := by
  intro a ha b hb hv
  rcases List.mem_cons.mp ha with ea | ha <;> rcases List.mem_cons.mp hb with eb | hb
  · rw [ea, eb]
  · exact absurd (ea ▸ hv.symm) (hl b hb)
  · exact absurd (eb ▸ hv) (hl a ha)
  · exact h a ha b hb hv

/-- The variables of some literals, for counting those still undecided. -/
def varsOf [DecidableEq V] (lits : List L) : Finset V := (lits.map var).toFinset

theorem mem_varsOf [DecidableEq V] {lits : List L} {v : V} :
    v ∈ varsOf lits ↔ ∃ l ∈ lits, var l = v := by simp [varsOf]

/-- Deciding a variable that occurred lowers the count of the undecided ones. -/
theorem card_varsOf_lt [DecidableEq V] {ls ms : List L} {l : L} (hl : l ∈ ls)
    (hsub : ∀ x ∈ ms, x ∈ ls ∧ var x ≠ var l) : (varsOf ms).card < (varsOf ls).card := by
  refine Finset.card_lt_card ⟨fun v hv => ?_, fun h => ?_⟩
  · obtain ⟨x, hx, rfl⟩ := mem_varsOf.mp hv
    exact mem_varsOf.mpr ⟨x, (hsub x hx).1, rfl⟩
  · obtain ⟨x, hx, hv⟩ := mem_varsOf.mp (h (mem_varsOf.mpr ⟨l, hl, rfl⟩))
    exact (hsub x hx).2 hv

end ScalaRs.ClauseSemantics
