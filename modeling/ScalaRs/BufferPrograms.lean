import Mathlib.Data.Set.Insert
import Mathlib.Tactic.Cases

/-! # Programs that read and write a buffer

A program runs in place, on one buffer, or apart, reading a source that its
writes leave alone. The two runs agree when no position is read after it is
overwritten. -/
namespace BufferPrograms

universe u

variable {β α γ : Type u}

inductive BufferM (β α : Type u) : Type u
  | done (a : α)
  | get (i : ℕ) (next : β → BufferM β α)
  | set (i : ℕ) (b : β) (next : BufferM β α)

namespace BufferM

def bind : BufferM β α → (α → BufferM β γ) → BufferM β γ
  | done a, f => f a
  | get i next, f => get i fun b => bind (next b) f
  | set i b next, f => set i b (bind next f)

instance : Monad (BufferM β) where
  pure := done
  bind := bind

def read (i : ℕ) : BufferM β β := get i done

def write (i : ℕ) (b : β) : BufferM β PUnit := set i b (done ⟨⟩)

@[simp] theorem pure_eq (a : α) : (pure a : BufferM β α) = done a := rfl

@[simp] theorem done_bind (a : α) (f : α → BufferM β γ) : (done a >>= f) = f a := rfl

@[simp] theorem get_bind (i : ℕ) (next : β → BufferM β α) (f : α → BufferM β γ) :
    (get i next >>= f) = get i fun b => next b >>= f := rfl

@[simp] theorem set_bind (i : ℕ) (b : β) (next : BufferM β α) (f : α → BufferM β γ) :
    (set i b next >>= f) = set i b (next >>= f) := rfl

@[simp] theorem read_bind (i : ℕ) (f : β → BufferM β γ) : (read i >>= f) = get i f := rfl

@[simp] theorem write_bind (i : ℕ) (b : β) (f : PUnit → BufferM β γ) :
    (write i b >>= f) = set i b (f ⟨⟩) := rfl

@[simp] theorem map_eq_bind (f : α → γ) (p : BufferM β α) :
    (f <$> p) = p >>= fun a => done (f a) := rfl

/-- The run on one buffer, which fails at an index out of range. -/
def inPlace : BufferM β α → List β → Option (α × List β)
  | done a, buf => some (a, buf)
  | get i next, buf =>
    match buf[i]? with
    | some b => (next b).inPlace buf
    | none => none
  | set i b next, buf => if i < buf.length then next.inPlace (buf.set i b) else none

/-- The run that reads from `src` and writes to a buffer of its own. -/
def apart (src : List β) : BufferM β α → List β → Option (α × List β)
  | done a, buf => some (a, buf)
  | get i next, buf =>
    match src[i]? with
    | some b => (next b).apart src buf
    | none => none
  | set i b next, buf => if i < buf.length then next.apart src (buf.set i b) else none

/-- Run from the contents `src`, the program reads no position in `written` and
none that it has overwritten itself. -/
def ReadsFresh (src : List β) : BufferM β α → Set ℕ → Prop
  | done _, _ => True
  | get i next, written => i ∉ written ∧ ∀ b, src[i]? = some b → (next b).ReadsFresh src written
  | set i _ next, written => next.ReadsFresh src (insert i written)

section
-- Derives the equations of these definitions in front of the proofs that use them.
attribute [local simp] inPlace apart
end

theorem inPlace_eq_apart_of_agree {src : List β} (p : BufferM β α) :
    ∀ {buf : List β} {written : Set ℕ}, p.ReadsFresh src written →
      (∀ i ∉ written, buf[i]? = src[i]?) → p.inPlace buf = p.apart src buf := by
  induction p with
  | done a => exact fun _ _ => rfl
  | get i next ih =>
    intro buf written hfresh hagree
    rw [inPlace, apart, hagree i hfresh.1]
    cases hb : src[i]? with
    | none => rfl
    | some b => exact ih b (hfresh.2 b hb) hagree
  | set i b next ih =>
    intro buf written hfresh hagree
    have hnext : ∀ k ∉ insert i written, (buf.set i b)[k]? = src[k]? := by
      intro k hk
      rw [Set.mem_insert_iff, not_or] at hk
      rw [List.getElem?_set_ne (Ne.symm hk.1), hagree k hk.2]
    rw [inPlace, apart, ih hfresh hnext]

theorem inPlace_eq_apart {p : BufferM β α} {src : List β} (h : p.ReadsFresh src ∅) :
    p.inPlace src = p.apart src src := inPlace_eq_apart_of_agree p h fun _ _ => rfl

/-- What a program that writes the positions from `j` on, one after the other,
returns and writes, if that is what it does. -/
def emits (src : List β) : BufferM β α → ℕ → Option (α × List β)
  | done a, _ => some (a, [])
  | get i next, j =>
    match src[i]? with
    | some b => (next b).emits src j
    | none => none
  | set i b next, j =>
    if i = j then
      match next.emits src (j + 1) with
      | some (a, out) => some (a, b :: out)
      | none => none
    else none

section
attribute [local simp] emits
end

@[simp] theorem emits_done (src : List β) (a : α) (j : ℕ) :
    (done a).emits src j = some (a, []) := rfl

theorem emits_get {src : List β} {i : ℕ} {b : β} (h : src[i]? = some b)
    (next : β → BufferM β α) (j : ℕ) : (get i next).emits src j = (next b).emits src j := by
  rw [emits, h]

@[simp] theorem emits_set (src : List β) (j : ℕ) (b : β) (next : BufferM β α) :
    (set j b next).emits src j =
      (next.emits src (j + 1)).map fun (a, out) => (a, b :: out) := by
  rw [emits, if_pos rfl]
  cases next.emits src (j + 1) <;> rfl

theorem emits_bind {src : List β} {f : α → BufferM β γ} {a : α} (p : BufferM β α) :
    ∀ {j : ℕ} {out : List β}, p.emits src j = some (a, out) →
      (p >>= f).emits src j = ((f a).emits src (j + out.length)).map fun (c, more) =>
        (c, out ++ more) := by
  induction p with
  | done a' =>
    intro j out h
    cases h
    simp
  | get i next ih =>
    intro j out h
    rw [get_bind]
    rw [emits] at h ⊢
    cases hb : src[i]? with
    | none => simp [hb] at h
    | some b => exact ih b (by simpa [hb] using h)
  | set i b next ih =>
    intro j out h
    rw [set_bind]
    rw [emits] at h ⊢
    split at h
    · next hij =>
      cases hnext : next.emits src (j + 1) with
      | none => simp [hnext] at h
      | some r =>
        obtain ⟨a', more⟩ := r
        rw [hnext] at h
        cases h
        rw [if_pos hij, ih hnext, List.length_cons, Nat.add_right_comm, Nat.add_assoc]
        cases (f a).emits src (j + (more.length + 1)) <;> rfl
    · cases h

theorem emits_append {src : List β} (more : List β) (p : BufferM β α) :
    ∀ {j : ℕ} {r : α × List β}, p.emits src j = some r → p.emits (src ++ more) j = some r := by
  induction p with
  | done a => exact fun h => h
  | get i next ih =>
    intro j r h
    rw [emits] at h
    cases hb : src[i]? with
    | none => simp [hb] at h
    | some b =>
      have hi := (List.getElem?_eq_some_iff.mp hb).1
      rw [emits_get (by rw [List.getElem?_append_left hi, hb])]
      exact ih b (by simpa [hb] using h)
  | set i b next ih =>
    intro j r h
    rw [emits] at h ⊢
    split at h
    · next hi =>
      cases hnext : next.emits src (j + 1) with
      | none => simp [hnext] at h
      | some r' =>
        rw [hnext] at h
        rw [if_pos hi, ih hnext]
        exact h
    · cases h

/-- A program that emits `out` overwrites that much of the buffer. -/
theorem apart_of_emits {src : List β} {a : α} (p : BufferM β α) :
    ∀ (before : List β) {out : List β} (rest : List β), p.emits src before.length = some (a, out) →
      out.length ≤ rest.length →
      p.apart src (before ++ rest) = some (a, before ++ out ++ rest.drop out.length) := by
  induction p with
  | done a' =>
    intro before out rest h _
    cases h
    simp [apart]
  | get i next ih =>
    intro before out rest h hrest
    rw [emits] at h
    rw [apart]
    cases hb : src[i]? with
    | none => simp [hb] at h
    | some b => exact ih b before rest (by simpa [hb] using h) hrest
  | set i b next ih =>
    intro before out rest h hrest
    rw [emits] at h
    split at h
    · next hi =>
      subst hi
      cases hnext : next.emits src (before.length + 1) with
      | none => simp [hnext] at h
      | some r =>
        obtain ⟨a', more⟩ := r
        rw [hnext] at h
        cases h
        obtain ⟨old, rest, rfl⟩ := List.exists_cons_of_length_pos (by simp at hrest; omega : 0 < rest.length)
        have hwrite : (before ++ old :: rest).set before.length b = (before ++ [b]) ++ rest := by
          rw [List.set_append_right _ _ (Nat.le_refl _)]
          simp
        rw [apart, if_pos (by simp), hwrite, ih (before ++ [b]) rest (by simpa using hnext) (by simpa using hrest)]
        simp
    · cases h

/-- The program writes the positions from `j` on, one after the other, and
reads none that lies behind. -/
def ReadsAhead (src : List β) : BufferM β α → ℕ → Prop
  | done _, _ => True
  | get i next, j => j ≤ i ∧ ∀ b, src[i]? = some b → (next b).ReadsAhead src j
  | set i _ next, j => i = j ∧ next.ReadsAhead src (j + 1)

@[simp] theorem readsAhead_done (src : List β) (a : α) (j : ℕ) :
    (done a).ReadsAhead src j := trivial

theorem ReadsAhead.readsFresh {src : List β} (p : BufferM β α) : ∀ {j : ℕ} {written : Set ℕ},
    p.ReadsAhead src j → (∀ i ∈ written, i < j) → p.ReadsFresh src written := by
  induction p with
  | done a => exact fun _ _ => trivial
  | get i next ih =>
    intro j written h hwritten
    exact ⟨fun hi => absurd (hwritten i hi) (Nat.not_lt.mpr h.1),
      fun b hb => ih b (h.2 b hb) hwritten⟩
  | set i b next ih =>
    intro j written h hwritten
    apply ih h.2
    intro k hk
    rcases Set.mem_insert_iff.mp hk with rfl | hk
    · rw [h.1]
      exact Nat.lt_succ_self j
    · exact Nat.lt_succ_of_lt (hwritten k hk)

end BufferM
end BufferPrograms
