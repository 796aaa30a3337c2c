import Mathlib.Control.Monad.Basic

/-! # Invariants of stateful actions

An action keeps a property of its state when it leads from a state that has it to
one that has it. What actions are put together from carries over to the whole. -/
namespace StateInvariants

variable {σ α β : Type}

/-- The action leads from states with the property to states with the property. -/
def Keeps (P : σ → Prop) (m : StateM σ α) : Prop := ∀ s, P s → P (m s).2

variable {P : σ → Prop}

theorem keeps_pure (a : α) : Keeps P (pure a : StateM σ α) := fun _ h => h

theorem keeps_bind {m : StateM σ α} {f : α → StateM σ β} (hm : Keeps P m)
    (hf : ∀ a, Keeps P (f a)) : Keeps P (m >>= f) :=
  fun s h => hf _ _ (hm s h)

/-- An action that reads the state first may use that the property holds of it. -/
theorem keeps_get_bind {f : σ → StateM σ β} (hf : ∀ s, P s → Keeps P (f s)) :
    Keeps P (get >>= f) :=
  fun s h => hf s h s h

theorem keeps_modify {f : σ → σ} (hf : ∀ s, P s → P (f s)) :
    Keeps P (modify f : StateM σ PUnit) :=
  fun s h => hf s h

theorem keeps_ite {c : Prop} [Decidable c] {m n : StateM σ α} (hm : c → Keeps P m)
    (hn : ¬ c → Keeps P n) : Keeps P (if c then m else n) := by
  split
  · exact hm ‹c›
  · exact hn ‹¬ c›

theorem keeps_and {m n : StateM σ Bool} (hm : Keeps P m) (hn : Keeps P n) :
    Keeps P (m <&&> n) := by
  apply keeps_bind hm
  intro a
  cases a with
  | false => exact keeps_pure false
  | true => exact hn

theorem keeps_allM {f : α → StateM σ Bool} {xs : List α} (hf : ∀ x ∈ xs, Keeps P (f x)) :
    Keeps P (xs.allM f) := by
  induction xs with
  | nil => exact keeps_pure true
  | cons x xs ih =>
    apply keeps_bind (hf x List.mem_cons_self)
    intro a
    cases a with
    | false => exact keeps_pure false
    | true => exact ih fun y hy => hf y (List.mem_cons_of_mem x hy)

theorem keeps_foldl {f : α → StateM σ β} (hf : ∀ x, Keeps P (f x)) (xs : List α) {s : σ}
    (h : P s) : P (xs.foldl (fun s x => (f x s).2) s) := by
  induction xs generalizing s with
  | nil => exact h
  | cons x xs ih => exact ih (hf x s h)

end StateInvariants
