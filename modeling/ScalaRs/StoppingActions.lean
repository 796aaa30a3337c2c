import Mathlib.Control.Monad.Basic
import ScalaRs.MonadicRelations

/-! # When an action stops

An action without a result has run out of fuel. Here it is told for which conditions it
has a result, in states that keep an invariant. -/
namespace StoppingActions

universe u

variable {σ α β γ : Type u} {I : σ → Prop} {E C D : Prop}

/-- The action keeps `I` and has a result if `C` holds; where `E` holds it has one only then. -/
structure Stops (I : σ → Prop) (E C : Prop) (m : StateT σ Option α) : Prop where
  keeps : ∀ s r, I s → m s = some r → I r.2
  stops : C → ∀ s, I s → ∃ r, m s = some r
  needs : E → ∀ s r, I s → m s = some r → C

/-- The action has the result `v`, or perhaps `w` where `E` does not hold. -/
def Recalls (I : σ → Prop) (E : Prop) (v w : α) (m : StateT σ Option α) : Prop :=
  ∀ s, I s → ∃ r, m s = some r ∧ I r.2 ∧ (r.1 = v ∨ ¬ E ∧ r.1 = w)

namespace Stops

theorem of_iff {m : StateT σ Option α} (h : Stops I E C m) (hcd : C ↔ D) : Stops I E D m :=
  propext hcd ▸ h

theorem pure (a : α) : Stops I E True (Pure.pure a : StateT σ Option α) where
  keeps := by
    intro s r hs hrun
    cases hrun
    exact hs
  stops := fun _ s _ => ⟨(a, s), rfl⟩
  needs := fun _ _ _ _ _ => trivial

theorem modify {f : σ → σ} (hf : ∀ s, I s → I (f s)) :
    Stops I E True (modifyThe σ f : StateT σ Option PUnit) where
  keeps := by
    intro s r hs hrun
    cases hrun
    exact hf s hs
  stops := fun _ s _ => ⟨(⟨⟩, f s), rfl⟩
  needs := fun _ _ _ _ _ => trivial

theorem get : Stops I E True (getThe σ : StateT σ Option σ) where
  keeps := by
    intro s r hs hrun
    cases hrun
    exact hs
  stops := fun _ s _ => ⟨(s, s), rfl⟩
  needs := fun _ _ _ _ _ => trivial

theorem failure : Stops I E False (Alternative.failure : StateT σ Option α) where
  keeps := by
    intro s r _ hrun
    cases hrun
  stops := False.elim
  needs := by
    intro _ s r _ hrun
    cases hrun

theorem bind {m : StateT σ Option α} {f : α → StateT σ Option β} (hm : Stops I E C m)
    (hf : ∀ a, Stops I E D (f a)) : Stops I E (C ∧ D) (m >>= f) where
  keeps := by
    intro s r hs hrun
    obtain ⟨q, hq, hrest⟩ := Option.bind_eq_some_iff.mp hrun
    exact (hf q.1).keeps q.2 r (hm.keeps s q hs hq) hrest
  stops := by
    intro hcd s hs
    obtain ⟨q, hq⟩ := hm.stops hcd.1 s hs
    obtain ⟨r, hr⟩ := (hf q.1).stops hcd.2 q.2 (hm.keeps s q hs hq)
    exact ⟨r, Option.bind_eq_some_iff.mpr ⟨q, hq, hr⟩⟩
  needs := by
    intro he s r hs hrun
    obtain ⟨q, hq, hrest⟩ := Option.bind_eq_some_iff.mp hrun
    exact ⟨hm.needs he s q hs hq, (hf q.1).needs he q.2 r (hm.keeps s q hs hq) hrest⟩

theorem failure_bind {f : α → StateT σ Option β} :
    Stops I E False (Alternative.failure >>= f) where
  keeps := by
    intro s r _ hrun
    cases hrun
  stops := False.elim
  needs := by
    intro _ s r _ hrun
    cases hrun

/-- An action before one that needs nothing. -/
theorem bind_true {m : StateT σ Option α} {f : α → StateT σ Option β} (hm : Stops I E C m)
    (hf : ∀ a, Stops I E True (f a)) : Stops I E C (m >>= f) :=
  (hm.bind hf).of_iff (and_iff_left trivial)

/-- An action that needs nothing, before another one. -/
theorem true_bind {m : StateT σ Option α} {f : α → StateT σ Option β} (hm : Stops I E True m)
    (hf : ∀ a, Stops I E D (f a)) : Stops I E D (m >>= f) :=
  (hm.bind hf).of_iff (and_iff_right trivial)

theorem mapM {f : γ → StateT σ Option α} {D : γ → Prop} (l : List γ)
    (hf : ∀ c ∈ l, Stops I E (D c) (f c)) : Stops I E (∀ c ∈ l, D c) (l.mapM f) := by
  induction l with
  | nil =>
      rw [List.mapM_nil]
      exact (Stops.pure _).of_iff (by simp)
  | cons c l ih =>
      rw [List.mapM_cons]
      apply ((hf c List.mem_cons_self).bind fun a => ?_).of_iff List.forall_mem_cons.symm
      exact (ih fun d hd => hf d (List.mem_cons_of_mem c hd)).bind_true fun bs => Stops.pure _

theorem findM {σ α : Type} {I : σ → Prop} {f : α → StateT σ Option Bool} (l : List α)
    (hf : ∀ a, Stops I E True (f a)) : Stops I E True (l.findM? f) := by
  induction l with
  | nil => exact Stops.pure none
  | cons a l ih =>
      apply (hf a).true_bind
      intro found
      cases found with
      | false => exact ih
      | true => exact Stops.pure (some a)

end Stops

namespace Recalls

variable {v w : α}

theorem stops {m : StateT σ Option α} (h : Recalls I E v w m) : Stops I E True m where
  keeps := by
    intro s r hs hrun
    obtain ⟨q, hq, hkeep, -⟩ := h s hs
    cases hq.symm.trans hrun
    exact hkeep
  stops := by
    intro _ s hs
    obtain ⟨r, hr, -⟩ := h s hs
    exact ⟨r, hr⟩
  needs := fun _ _ _ _ _ => trivial

theorem pure (a : α) : Recalls I E a w (Pure.pure a : StateT σ Option α) :=
  fun s hs => ⟨(a, s), rfl, hs, .inl rfl⟩

theorem other {u : α} {m : StateT σ Option α} (h : Recalls I E u w m) (hu : v = u ∨ u = w) :
    Recalls I False v w m := by
  intro s hs
  obtain ⟨r, hr, hkeep, hor⟩ := h s hs
  refine ⟨r, hr, hkeep, ?_⟩
  cases hor with
  | inl hru => exact hu.imp (fun h => hru.trans h.symm) fun h => ⟨not_false, hru.trans h⟩
  | inr hrw => exact .inr ⟨not_false, hrw.2⟩

/-- What follows the other result has to stop without a condition. -/
theorem bind_stops {m : StateT σ Option α} {f : α → StateT σ Option β} (hm : Recalls I E v w m)
    (hv : Stops I E C (f v)) (hw : Stops I E True (f w)) : Stops I E C (m >>= f) where
  keeps := by
    intro s r hs hrun
    obtain ⟨q, hq, hrest⟩ := Option.bind_eq_some_iff.mp hrun
    obtain ⟨q', hq', hkeep, hor⟩ := hm s hs
    cases hq'.symm.trans hq
    cases hor with
    | inl h => exact hv.keeps q.2 r hkeep (h ▸ hrest)
    | inr h => exact hw.keeps q.2 r hkeep (h.2 ▸ hrest)
  stops := by
    intro hc s hs
    obtain ⟨q, hq, hkeep, hor⟩ := hm s hs
    have hrest : ∃ r, f q.1 q.2 = some r := by
      cases hor with
      | inl h => exact h ▸ hv.stops hc q.2 hkeep
      | inr h => exact h.2 ▸ hw.stops trivial q.2 hkeep
    obtain ⟨r, hr⟩ := hrest
    exact ⟨r, Option.bind_eq_some_iff.mpr ⟨q, hq, hr⟩⟩
  needs := by
    intro he s r hs hrun
    obtain ⟨q, hq, hrest⟩ := Option.bind_eq_some_iff.mp hrun
    obtain ⟨q', hq', hkeep, hor⟩ := hm s hs
    cases hq'.symm.trans hq
    cases hor with
    | inl h => exact hv.needs he q.2 r hkeep (h ▸ hrest)
    | inr h => exact absurd he h.1

/-- Where the first action has its other result, what follows may have either. -/
theorem bind {v' w' : β} {m : StateT σ Option α} {f : α → StateT σ Option β}
    (hm : Recalls I E v w m) (hv : Recalls I E v' w' (f v))
    (hw : Recalls I False v' w' (f w)) : Recalls I E v' w' (m >>= f) := by
  intro s hs
  obtain ⟨q, hq, hkeep, hor⟩ := hm s hs
  have hrest : ∃ r, f q.1 q.2 = some r ∧ I r.2 ∧ (r.1 = v' ∨ ¬ E ∧ r.1 = w') := by
    cases hor with
    | inl h => exact h ▸ hv q.2 hkeep
    | inr h =>
        obtain ⟨r, hr, hkeep', hor'⟩ := hw q.2 hkeep
        exact ⟨r, h.2 ▸ hr, hkeep', hor'.imp_right fun h' => ⟨h.1, h'.2⟩⟩
  obtain ⟨r, hr, hrest⟩ := hrest
  exact ⟨r, Option.bind_eq_some_iff.mpr ⟨q, hq, hr⟩, hrest⟩

end Recalls

/-! ## More fuel -/

/-- A result of the first action is one of the second. -/
def moreFuel : ScalaRs.MonadicRelations.MonadRel (StateT σ Option) (StateT σ Option) where
  Rel m m' := ∀ s r, m s = some r → m' s = some r
  pure := fun _ _ _ h => h
  bind := by
    intro α β x y f g hxy hfg s r hrun
    obtain ⟨q, hq, hrest⟩ := Option.bind_eq_some_iff.mp hrun
    exact Option.bind_eq_some_iff.mpr ⟨q, hxy s q hq, hfg q.1 q.2 r hrest⟩

theorem moreFuel_self (m : StateT σ Option α) : moreFuel.Rel m m := fun _ _ h => h

end StoppingActions
