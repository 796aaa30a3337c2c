import Mathlib.Data.Nat.Notation
import Mathlib.Data.List.Basic
import Mathlib.Tactic.Cases
import Mathlib.Algebra.Group.Nat.Defs

/-! # Cursors over big-endian bytes

A cursor is what is left to read. A reader parses a sequence of bytes when it
consumes exactly these, whatever follows. -/
namespace ClassfileCursors

universe u

abbrev Cursor (α : Type) := StateT (List UInt8) Option α

namespace Cursor

def u1 : Cursor UInt8
  | [] => none
  | b :: bs => some (b, bs)

def u2 : Cursor ℕ := do
  let hi ← u1
  let lo ← u1
  pure (hi.toNat * 256 + lo.toNat)

def u4 : Cursor ℕ := do
  let a ← u2
  let b ← u2
  pure (a * 65536 + b)

def bytes (n : ℕ) : Cursor (List UInt8) := fun bs =>
  if n ≤ bs.length then some (bs.take n, bs.drop n) else none

end Cursor

/-- The bytes of a `u16`. -/
def be2 (n : ℕ) : List UInt8 := [UInt8.ofNat (n / 256), UInt8.ofNat n]

/-- The bytes of a `u32`. -/
def be4 (n : ℕ) : List UInt8 := be2 (n / 65536) ++ be2 n

@[simp] theorem length_be2 (n : ℕ) : (be2 n).length = 2 := rfl

@[simp] theorem length_be4 (n : ℕ) : (be4 n).length = 4 := rfl

def Parses {α : Type} (p : Cursor α) (bs : List UInt8) (a : α) : Prop :=
  ∀ rest, p (bs ++ rest) = some (a, rest)

variable {α β : Type}

theorem Parses.pure (a : α) : Parses (Pure.pure a) [] a := fun _ => rfl

/-- Reading goes on after what a first step reads. -/
theorem Parses.bind_run {p : Cursor α} {bs : List UInt8} {a : α} (hp : Parses p bs a)
    (f : α → Cursor β) (rest : List UInt8) : (p >>= f) (bs ++ rest) = f a rest := by
  change (p (bs ++ rest)).bind _ = _
  rw [hp]
  rfl

theorem Parses.bind {p : Cursor α} {f : α → Cursor β} {bs cs : List UInt8} {a : α} {b : β}
    (hp : Parses p bs a) (hf : Parses (f a) cs b) : Parses (p >>= f) (bs ++ cs) b := by
  intro rest
  rw [List.append_assoc, hp.bind_run, hf]

/-- A last step that reads nothing. -/
theorem Parses.then {p : Cursor α} {f : α → Cursor β} {bs : List UInt8} {a : α} {b : β}
    (hp : Parses p bs a) (hf : Parses (f a) [] b) : Parses (p >>= f) bs b := by
  simpa using hp.bind hf

theorem parses_u1 (b : UInt8) : Parses Cursor.u1 [b] b := fun _ => rfl

theorem parses_u1_bind {b : UInt8} {f : UInt8 → Cursor α} {bs : List UInt8} {a : α}
    (h : Parses (f b) bs a) : Parses (Cursor.u1 >>= f) (b :: bs) a := (parses_u1 b).bind h

theorem parses_u2_bytes (hi lo : UInt8) :
    Parses Cursor.u2 [hi, lo] (hi.toNat * 256 + lo.toNat) := fun _ => rfl

theorem be2_toNat (hi lo : UInt8) : be2 (hi.toNat * 256 + lo.toNat) = [hi, lo] := by
  have hhi : (hi.toNat * 256 + lo.toNat) / 256 = hi.toNat := by
    have := lo.toNat_lt
    omega
  have hlo : UInt8.ofNat (hi.toNat * 256 + lo.toNat) = lo := by
    apply UInt8.toNat_inj.mp
    rw [UInt8.toNat_ofNat']
    have := lo.toNat_lt
    omega
  rw [be2, hhi, hlo, UInt8.ofNat_toNat]

theorem parses_u2 {n : ℕ} (h : n < 65536) : Parses Cursor.u2 (be2 n) n := by
  have hread := parses_u2_bytes (UInt8.ofNat (n / 256)) (UInt8.ofNat n)
  have hvalue : (UInt8.ofNat (n / 256)).toNat * 256 + (UInt8.ofNat n).toNat = n := by
    rw [UInt8.toNat_ofNat', UInt8.toNat_ofNat']
    omega
  rwa [hvalue] at hread

theorem parses_u4 {n : ℕ} (h : n < 2 ^ 32) : Parses Cursor.u4 (be4 n) n := by
  have hhigh : Parses Cursor.u2 (be2 (n / 65536)) (n / 65536) := parses_u2 (by omega)
  have hlow : Parses Cursor.u2 (be2 n) (n % 65536) := by
    have hmod : be2 n = be2 (n % 65536) := by
      have hlo : UInt8.ofNat n = UInt8.ofNat (n % 65536) := by
        apply UInt8.toNat_inj.mp
        rw [UInt8.toNat_ofNat', UInt8.toNat_ofNat']
        omega
      have hhi : UInt8.ofNat (n / 256) = UInt8.ofNat (n % 65536 / 256) := by
        apply UInt8.toNat_inj.mp
        rw [UInt8.toNat_ofNat', UInt8.toNat_ofNat']
        omega
      rw [be2, be2, hlo, hhi]
    rw [hmod]
    exact parses_u2 (Nat.mod_lt _ (by decide))
  apply hhigh.bind
  apply hlow.then
  have hvalue : n / 65536 * 65536 + n % 65536 = n := by omega
  rw [hvalue]
  exact Parses.pure n

theorem parses_bytes (bs : List UInt8) : Parses (Cursor.bytes bs.length) bs bs := by
  intro rest
  rw [Cursor.bytes, if_pos (by simp), List.take_left, List.drop_left]

theorem exists_be2 {bs : List UInt8} (h : bs.length = 2) :
    ∃ n, bs = be2 n ∧ Parses Cursor.u2 bs n := by
  obtain ⟨hi, lo, rfl⟩ := List.length_eq_two.mp h
  exact ⟨_, (be2_toNat hi lo).symm, parses_u2_bytes hi lo⟩

/-- Two bytes are read as some `u16`. -/
theorem exists_parses_be2 (n : ℕ) : ∃ m, Parses Cursor.u2 (be2 n) m :=
  ⟨_, parses_u2_bytes (UInt8.ofNat (n / 256)) (UInt8.ofNat n)⟩

/-- What a reader makes of a sequence of bytes, whatever follows. It may fail. -/
def ReadsAs (p : Cursor α) (bs : List UInt8) (a : Option α) : Prop :=
  ∀ rest, p (bs ++ rest) = a.map fun a => (a, rest)

theorem Parses.readsAs {p : Cursor α} {bs : List UInt8} {a : α} (h : Parses p bs a) :
    ReadsAs p bs (some a) := h

theorem Parses.bind_readsAs {p : Cursor α} {f : α → Cursor β} {bs cs : List UInt8} {a : α}
    {b : Option β} (hp : Parses p bs a) (hf : ReadsAs (f a) cs b) :
    ReadsAs (p >>= f) (bs ++ cs) b := by
  intro rest
  rw [List.append_assoc, hp.bind_run, hf]

theorem readsAs_u1_bind {b : UInt8} {f : UInt8 → Cursor α} {bs : List UInt8} {a : Option α}
    (h : ReadsAs (f b) bs a) : ReadsAs (Cursor.u1 >>= f) (b :: bs) a := (parses_u1 b).bind_readsAs h

theorem ReadsAs.bind_run {p : Cursor α} {bs : List UInt8} {a : Option α} (hp : ReadsAs p bs a)
    (f : α → Cursor β) (rest : List UInt8) : (p >>= f) (bs ++ rest) = a.bind fun x => f x rest := by
  change (p (bs ++ rest)).bind _ = _
  rw [hp]
  cases a <;> rfl

theorem ReadsAs.bind {p : Cursor α} {f : α → Cursor β} {bs cs : List UInt8} {a : Option α}
    {g : α → Option β} (hp : ReadsAs p bs a) (hf : ∀ x, a = some x → ReadsAs (f x) cs (g x)) :
    ReadsAs (p >>= f) (bs ++ cs) (a >>= g) := by
  intro rest
  rw [List.append_assoc, hp.bind_run]
  cases a with
  | none => rfl
  | some x => exact hf x rfl rest

/-- A last step that reads nothing. -/
theorem ReadsAs.then {p : Cursor α} {f : α → Cursor β} {bs : List UInt8} {a : Option α}
    {g : α → β} (hp : ReadsAs p bs a) (hf : ∀ x, f x = Pure.pure (g x)) :
    ReadsAs (p >>= f) bs (a >>= fun x => Pure.pure (g x)) := by
  have h : ReadsAs (p >>= f) (bs ++ []) (a >>= fun x => Pure.pure (g x)) := by
    apply hp.bind
    intro x _
    rw [hf x]
    exact Parses.pure (g x)
  rwa [List.append_nil] at h

end ClassfileCursors
