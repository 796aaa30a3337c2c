import ScalaRs.WhileLoops

/-! # Recursion as a loop

A recursive procedure whose last calls start its body again instead. Its other calls are calls of
the procedure that loops. -/
namespace ScalaRs.RecursionAsLoops
open WhileLoops (Step run run_mono run_done run_next)

variable {α β ρ : Type}

/-- What the second one returns where the first one returns is the same. -/
def Extends (g h : α → Option ρ) : Prop := ∀ a r, g a = some r → h a = some r

/-- The procedure with calls at most `n` deep. -/
def plain (f : (α → Option ρ) → α → Option ρ) : ℕ → α → Option ρ
  | 0 => fun _ => none
  | n + 1 => f (plain f n)

/-- The procedure that runs its body in a loop, with calls at most `n` deep. -/
def invoke (body : (α → Option ρ) → β → Option (Step ρ β)) (enter : α → β) : ℕ → α → Option ρ
  | 0 => fun _ => none
  | n + 1 => fun a => run (body (invoke body enter n)) (n + 1) (enter a)

/-- What is returned after one run through the body. -/
def after (g : α → Option ρ) (args : β → α) : Step ρ β → Option ρ
  | .done r => some r
  | .next b => g (args b)

/-- A loop for a recursive procedure: its body returns what the procedure returns, or goes on with
the arguments of the last call. -/
structure Loops (f : (α → Option ρ) → α → Option ρ)
    (body : (α → Option ρ) → β → Option (Step ρ β)) (enter : α → β) (args : β → α) : Prop where
  mono : ∀ g h, Extends g h → ∀ b x, body g b = some x → body h b = some x
  enter : ∀ n a, plain f n (args (enter a)) = plain f n a
  unfold : ∀ n b, f (plain f n) (args b) = (body (plain f n) b).bind (after (plain f n) args)

/-! ## More fuel -/

theorem Extends.refl (g : α → Option ρ) : Extends g g := fun _ _ h => h

theorem Extends.trans {g h k : α → Option ρ} (hgh : Extends g h) (hhk : Extends h k) :
    Extends g k := fun a r hr => hhk a r (hgh a r hr)

theorem extends_of_le {g : ℕ → α → Option ρ} (hstep : ∀ n, Extends (g n) (g (n + 1))) {n m : ℕ}
    (h : n ≤ m) : Extends (g n) (g m) := by
  induction h with
  | refl => exact Extends.refl _
  | step _ ih => exact ih.trans (hstep _)

variable {f : (α → Option ρ) → α → Option ρ} {body : (α → Option ρ) → β → Option (Step ρ β)}
  {enter : α → β} {args : β → α}

/-- A run of the loop with other calls of the procedure. -/
theorem Loops.run_extends (h : Loops f body enter args) {g k : α → Option ρ} (hgk : Extends g k)
    {n : ℕ} {b : β} {r : ρ} (hrun : run (body g) n b = some r) : run (body k) n b = some r := by
  induction n generalizing b with
  | zero => cases hrun
  | succ n ih =>
      cases hb : body g b with
      | none =>
          rw [run, hb] at hrun
          cases hrun
      | some x =>
          have hk := h.mono g k hgk b x hb
          cases x with
          | done r' =>
              rw [run_done hb] at hrun
              rw [run_done hk, hrun]
          | next b' =>
              rw [run_next hb] at hrun
              rw [run_next hk]
              exact ih hrun

theorem Loops.invoke_succ (h : Loops f body enter args) (n : ℕ) :
    Extends (invoke body enter n) (invoke body enter (n + 1)) := by
  induction n with
  | zero =>
      intro a r hr
      cases hr
  | succ n ih =>
      intro a r hr
      exact run_mono (Nat.le_succ _) (h.run_extends ih hr)

theorem Loops.plain_succ (h : Loops f body enter args) (n : ℕ) :
    Extends (plain f n) (plain f (n + 1)) := by
  induction n with
  | zero =>
      intro a r hr
      cases hr
  | succ n ih =>
      intro a r hr
      rw [← h.enter, plain, h.unfold, Option.bind_eq_some_iff] at hr ⊢
      obtain ⟨x, hx, hafter⟩ := hr
      refine ⟨x, h.mono _ _ ih _ _ hx, ?_⟩
      cases x with
      | done r' => exact hafter
      | next b => exact ih _ _ hafter

/-! ## The two procedures -/

theorem Loops.run_of_plain (h : Loops f body enter args) {n : ℕ} {b : β} {r : ρ}
    (hr : plain f n (args b) = some r) : run (body (invoke body enter n)) n b = some r := by
  induction n generalizing b r with
  | zero => cases hr
  | succ n ih =>
      have hcalls : Extends (plain f n) (invoke body enter (n + 1)) := by
        intro a r' hr'
        rw [← h.enter] at hr'
        exact run_mono (Nat.le_succ n) (ih hr')
      rw [plain, h.unfold, Option.bind_eq_some_iff] at hr
      obtain ⟨x, hx, hafter⟩ := hr
      have hbody := h.mono _ _ hcalls _ _ hx
      cases x with
      | done r' =>
          cases hafter
          exact run_done hbody n
      | next b' =>
          rw [run_next hbody]
          exact h.run_extends (h.invoke_succ n) (ih hafter)

theorem Loops.plain_of_run (h : Loops f body enter args) {g : α → Option ρ} {k : ℕ}
    (hg : Extends g (plain f k)) {n : ℕ} {b : β} {r : ρ} (hrun : run (body g) n b = some r) :
    plain f (k + n) (args b) = some r := by
  induction n generalizing b with
  | zero => cases hrun
  | succ n ih =>
      cases hb : body g b with
      | none =>
          rw [run, hb] at hrun
          cases hrun
      | some x =>
          have hmore := hg.trans (extends_of_le h.plain_succ (Nat.le_add_right k n))
          change f (plain f (k + n)) (args b) = _
          rw [h.unfold, h.mono _ _ hmore _ _ hb]
          cases x with
          | done r' =>
              rw [run_done hb] at hrun
              exact hrun
          | next b' =>
              rw [run_next hb] at hrun
              exact ih hrun

theorem Loops.plain_of_invoke (h : Loops f body enter args) (n : ℕ) :
    ∃ k, Extends (invoke body enter n) (plain f k) := by
  induction n with
  | zero => exact ⟨0, fun a r hr => nomatch hr⟩
  | succ n ih =>
      obtain ⟨k, hk⟩ := ih
      refine ⟨k + (n + 1), fun a r hr => ?_⟩
      rw [← h.enter]
      exact h.plain_of_run hk hr

/-- The loop returns what the recursive procedure returns, and where it does. -/
theorem Loops.returns_iff (h : Loops f body enter args) (a : α) (r : ρ) :
    (∃ n, plain f n a = some r) ↔ ∃ n, invoke body enter n a = some r := by
  constructor
  · intro ⟨n, hr⟩
    rw [← h.enter] at hr
    exact ⟨n + 1, run_mono (Nat.le_succ n) (h.run_of_plain hr)⟩
  · intro ⟨n, hr⟩
    obtain ⟨k, hk⟩ := h.plain_of_invoke n
    exact ⟨k, hk a r hr⟩

end ScalaRs.RecursionAsLoops
