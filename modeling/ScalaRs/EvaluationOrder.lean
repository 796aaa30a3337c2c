import Mathlib.Tactic.Common

/-! # The order in which two computations run

A computation changes a state and yields a value or fails. Two of them run in one order or in
the other; for one that only reads the state the order shows exactly when the other one changes
what it reads, or anything at all where it fails. -/
namespace ScalaRs.Effects

/-- A failed run keeps the state it failed in. -/
def Run (S α : Type) := S → Option α × S

namespace Run
variable {S α β γ : Type}

protected def bind (x : Run S α) (f : α → Run S β) : Run S β := fun s =>
  match x s with
  | (some a, s') => f a s'
  | (none, s') => (none, s')

instance : Monad (Run S) where
  pure a := fun s => (some a, s)
  bind := Run.bind

def fail : Run S α := fun s => (none, s)

@[simp] theorem pure_apply (a : α) (s : S) : (pure a : Run S α) s = (some a, s) := rfl

theorem bind_apply (x : Run S α) (f : α → Run S β) (s : S) :
    (x >>= f) s = match x s with
      | (some a, s') => f a s'
      | (none, s') => (none, s') := rfl

@[simp] theorem pure_bind (a : α) (f : α → Run S β) : (pure a >>= f) = f a := rfl

@[simp] theorem bind_assoc (x : Run S α) (f : α → Run S β) (g : β → Run S γ) :
    (x >>= f >>= g) = x >>= fun a => f a >>= g := by
  funext s
  simp only [bind_apply]
  rcases x s with ⟨_ | a, s'⟩ <;> rfl

@[simp] theorem bind_pure (x : Run S α) : (x >>= fun a => pure a) = x := by
  funext s
  rw [bind_apply]
  rcases x s with ⟨_ | a, s'⟩ <;> rfl

theorem bind_congr {x : Run S α} {f g : α → Run S β} (h : ∀ a, f a = g a) :
    (x >>= f) = x >>= g :=
  congrArg (x >>= ·) (funext h)

/-- The value the state has for a reader, if it has one. -/
def reads (o : S → Option α) : Run S α := fun s => (o s, s)

@[simp] theorem reads_apply (o : S → Option α) (s : S) : reads o s = (o s, s) := rfl

/-- The computation leaves every state as it is. -/
def IsRead (x : Run S α) : Prop := ∀ s, (x s).2 = s

theorem IsRead.eq_reads {x : Run S α} (h : x.IsRead) : x = reads fun s => (x s).1 := by
  funext s
  exact Prod.ext rfl (h s)

theorem isRead_pure (a : α) : (pure a : Run S α).IsRead := fun _ => rfl

theorem isRead_reads (o : S → Option α) : (reads o).IsRead := fun _ => rfl

theorem IsRead.bind {x : Run S α} {f : α → Run S β} (hx : x.IsRead) (hf : ∀ a, (f a).IsRead) :
    (x >>= f).IsRead := by
  intro s
  rw [hx.eq_reads, bind_apply, reads_apply]
  cases (x s).1 with
  | none => rfl
  | some a => exact hf a s

def leftFirst (x : Run S α) (y : Run S β) : Run S (α × β) := do
  let a ← x
  let b ← y
  pure (a, b)

def rightFirst (x : Run S α) (y : Run S β) : Run S (α × β) := do
  let b ← y
  let a ← x
  pure (a, b)

/-- Running `f` in state `s` leaves the value read there as it was, and leaves the state itself
where there is nothing to read. -/
def UndisturbedAt (o : S → Option α) (f : Run S β) (s : S) : Prop :=
  match o s with
  | some a => ∀ b s', f s = (some b, s') → o s' = some a
  | none => (f s).2 = s

theorem IsRead.rightFirst_iff {x : Run S α} (hx : x.IsRead) (y : Run S β) (s : S) :
    rightFirst x y s = leftFirst x y s ↔ UndisturbedAt (fun s => (x s).1) y s := by
  generalize ho : (fun s => (x s).1) = o
  rw [hx.eq_reads, ho]
  simp only [rightFirst, leftFirst, UndisturbedAt, bind_apply, reads_apply, pure_apply]
  rcases hy : y s with ⟨_ | b, s'⟩
  · cases o s with
    | none => simp
    | some a => simp [hy]
  · cases ho : o s with
    | none =>
        cases hs : o s' with
        | none => simp [hs]
        | some a =>
            have hne : s' ≠ s := by
              rintro rfl
              simp [ho] at hs
            simp [hs, hne]
    | some a => cases hs : o s' <;> simp [hy, hs]

theorem IsRead.rightFirst_iff_right (x : Run S α) {y : Run S β} (hy : y.IsRead) (s : S) :
    rightFirst x y s = leftFirst x y s ↔ UndisturbedAt (fun s => (y s).1) x s := by
  generalize ho : (fun s => (y s).1) = o
  rw [hy.eq_reads, ho]
  simp only [rightFirst, leftFirst, UndisturbedAt, bind_apply, reads_apply, pure_apply]
  rcases hx : x s with ⟨_ | a, s'⟩
  · cases ho : o s with
    | none => simp [eq_comm]
    | some b => simp [hx]
  · cases ho : o s with
    | none =>
        cases hs : o s' with
        | none => simp [hs, eq_comm]
        | some b =>
            have hne : s' ≠ s := by
              rintro rfl
              simp [ho] at hs
            simp [hs, hne]
    | some b => cases hs : o s' <;> simp [hx, hs, eq_comm]

end Run
end ScalaRs.Effects
