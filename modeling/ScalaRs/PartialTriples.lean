import Mathlib.Control.Monad.Basic

/-! # Triples of actions that may fail

What holds after an action, if it does not fail, when something holds before. -/
namespace PartialTriples

variable {σ α β : Type}

def Triple (P : σ → Prop) (m : StateT σ Option α) (Q : α → σ → Prop) : Prop :=
  ∀ s, P s → ∀ a s', m s = some (a, s') → Q a s'

/-- The action keeps a property of the state. -/
abbrev Keeps (P : σ → Prop) (m : StateT σ Option α) : Prop := Triple P m fun _ => P

variable {P : σ → Prop} {Q : β → σ → Prop} {R : α → σ → Prop}

theorem triple_pure {a : α} (h : ∀ s, P s → R a s) : Triple P (pure a) R := by
  intro s hs a' s' hrun
  cases hrun
  exact h s hs

theorem triple_bind {m : StateT σ Option α} {f : α → StateT σ Option β} (hm : Triple P m R)
    (hf : ∀ a, Triple (R a) (f a) Q) : Triple P (m >>= f) Q := by
  intro s hs b s' hrun
  obtain ⟨r, hr, hrest⟩ := Option.bind_eq_some_iff.mp hrun
  exact hf r.1 r.2 (hm s hs r.1 r.2 hr) b s' hrest

theorem triple_get_bind {f : σ → StateT σ Option β} (hf : ∀ s, P s → Triple (· = s) (f s) Q) :
    Triple P (get >>= f) Q :=
  fun s hs b s' hrun => hf s hs s rfl b s' hrun

theorem triple_get {Q : σ → σ → Prop} (h : ∀ s, P s → Q s s) : Triple P get Q := by
  intro s hs a s' hrun
  cases hrun
  exact h s hs

theorem triple_modify {f : σ → σ} {Q : PUnit → σ → Prop} (h : ∀ s, P s → Q ⟨⟩ (f s)) :
    Triple P (modify f : StateT σ Option PUnit) Q := by
  intro s hs a s' hrun
  cases hrun
  exact h s hs

theorem triple_failure {Q : α → σ → Prop} : Triple P (failure : StateT σ Option α) Q := by
  intro s hs a s' hrun
  cases hrun

theorem triple_ite {c : Prop} [Decidable c] {m n : StateT σ Option α} (hm : c → Triple P m R)
    (hn : ¬ c → Triple P n R) : Triple P (if c then m else n) R := by
  split
  · exact hm ‹c›
  · exact hn ‹¬ c›

theorem triple_weaken {P' : σ → Prop} {m : StateT σ Option α} {R' : α → σ → Prop}
    (h : Triple P m R) (hpre : ∀ s, P' s → P s) (hpost : ∀ a s, R a s → R' a s) :
    Triple P' m R' :=
  fun s hs a s' hrun => hpost a s' (h s (hpre s hs) a s' hrun)

/-- Two actions that keep a property, one after the other. -/
theorem keeps_bind {m : StateT σ Option α} {f : α → StateT σ Option β} (hm : Keeps P m)
    (hf : ∀ a, Keeps P (f a)) : Keeps P (m >>= f) := triple_bind hm hf

theorem keeps_forM {f : α → StateT σ Option PUnit} {xs : List α} (hf : ∀ x ∈ xs, Keeps P (f x)) :
    Keeps P (xs.forM f) := by
  induction xs with
  | nil => exact triple_pure fun _ h => h
  | cons x xs ih =>
    apply keeps_bind (hf x List.mem_cons_self)
    intro _
    exact ih fun y hy => hf y (List.mem_cons_of_mem x hy)

end PartialTriples
