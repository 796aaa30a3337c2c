import Mathlib.Order.Defs.LinearOrder
import Mathlib.Order.Lattice

/-! # Ordered maps

The entries of a map in the order of their keys. -/
namespace OrderedMaps

variable {κ β : Type} [LinearOrder κ]

def insert (k : κ) (v : β) : List (κ × β) → List (κ × β)
  | [] => [(k, v)]
  | e :: m =>
    if k < e.1 then (k, v) :: e :: m
    else if k = e.1 then (k, v) :: m
    else e :: insert k v m

def find (k : κ) (m : List (κ × β)) : Option β := (m.find? (·.1 = k)).map (·.2)

/-- The value that is there already stays. -/
def orInsert (k : κ) (v : β) (m : List (κ × β)) : List (κ × β) :=
  if m.any (·.1 = k) then m else insert k v m

variable {k : κ} {v : β} {m : List (κ × β)} {e : κ × β}

theorem mem_insert (h : e ∈ insert k v m) : e = (k, v) ∨ e ∈ m := by
  induction m with
  | nil => exact .inl (List.mem_singleton.mp h)
  | cons e' m ih =>
    rw [insert] at h
    split at h
    · exact List.mem_cons.mp h
    · split at h
      · cases List.mem_cons.mp h with
        | inl heq => exact .inl heq
        | inr hmem => exact .inr (List.mem_cons_of_mem e' hmem)
      · cases List.mem_cons.mp h with
        | inl heq => exact .inr (heq ▸ List.mem_cons_self)
        | inr hmem =>
          cases ih hmem with
          | inl heq => exact .inl heq
          | inr hmem => exact .inr (List.mem_cons_of_mem e' hmem)

theorem mem_insert_self (k : κ) (v : β) (m : List (κ × β)) : (k, v) ∈ insert k v m := by
  induction m with
  | nil => exact List.mem_singleton_self _
  | cons e m ih =>
    rw [insert]
    split
    · exact List.mem_cons_self
    · split
      · exact List.mem_cons_self
      · exact List.mem_cons_of_mem e ih

theorem mem_orInsert (h : e ∈ orInsert k v m) : (e = (k, v) ∧ ∀ e' ∈ m, e'.1 ≠ k) ∨ e ∈ m := by
  rw [orInsert] at h
  split at h
  · exact .inr h
  · next hnew =>
    cases mem_insert h with
    | inl heq =>
      refine .inl ⟨heq, fun e' he' hk => hnew ?_⟩
      exact List.any_eq_true.mpr ⟨e', he', decide_eq_true hk⟩
    | inr hmem => exact .inr hmem

end OrderedMaps
