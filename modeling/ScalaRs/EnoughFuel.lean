import Mathlib.Order.Filter.AtTopBot.Basic

/-! # Enough fuel

A function with fuel returns a value if it does so with all fuel from some amount on. -/
namespace EnoughFuel
open Filter

theorem eventually_succ {p : ℕ → Prop} (h : ∀ᶠ n in atTop, p (n + 1)) : ∀ᶠ n in atTop, p n := by
  obtain ⟨k, hk⟩ := eventually_atTop.1 h
  apply eventually_atTop.2
  refine ⟨k + 1, fun n hn => ?_⟩
  obtain ⟨m, rfl⟩ := Nat.exists_eq_add_of_le' hn
  exact hk (m + k) (Nat.le_add_left k m)

theorem eventually_next {p : ℕ → Prop} (h : ∀ᶠ n in atTop, p n) : ∀ᶠ n in atTop, p (n + 1) := by
  obtain ⟨k, hk⟩ := eventually_atTop.1 h
  exact eventually_atTop.2 ⟨k, fun n hn => hk (n + 1) (Nat.le_succ_of_le hn)⟩

/-- There is only one value that is returned with enough fuel. -/
theorem eventually_eq_iff {α : Type} {f : ℕ → α} {x : α} (h : ∀ᶠ n in atTop, f n = x) (y : α) :
    (∀ᶠ n in atTop, f n = y) ↔ x = y := by
  constructor
  · intro hy
    obtain ⟨n, hn, hn'⟩ := (h.and hy).exists
    exact hn.symm.trans hn'
  · intro heq
    exact heq ▸ h

theorem eventually_forall_mem {α : Type} {p : α → ℕ → Prop} {l : List α}
    (h : ∀ a ∈ l, ∀ᶠ n in atTop, p a n) : ∀ᶠ n in atTop, ∀ a ∈ l, p a n := by
  induction l with
  | nil => exact .of_forall fun n a ha => absurd ha List.not_mem_nil
  | cons a l ih =>
      filter_upwards [h a List.mem_cons_self, ih fun b hb => h b (List.mem_cons_of_mem a hb)]
        with n hn hl
      exact List.forall_mem_cons.2 ⟨hn, hl⟩

end EnoughFuel
