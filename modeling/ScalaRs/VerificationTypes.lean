import Mathlib.Data.Nat.Notation
import Mathlib.Data.Int.Notation

/-! # Verification types

What the assembler knows of each slot of the operand stack and of the locals. -/
namespace ScalaRs.Bytecode

inductive VType where
  | Top
  | Integer
  | Float
  | Long
  | Double
  | Null
  | UninitializedThis
  | Uninitialized (off : ℕ)
  | Object (name : String)
  deriving DecidableEq, Repr

def VType.isWide : VType → Bool
  | Long | Double => true
  | _ => false

def VType.slots (t : VType) : ℤ := if t.isWide then 2 else 1

def vtypeFromDesc (desc : List Char) : VType :=
  match desc with
  | 'I' :: _ | 'Z' :: _ | 'B' :: _ | 'C' :: _ | 'S' :: _ => .Integer
  | 'F' :: _ => .Float
  | 'J' :: _ => .Long
  | 'D' :: _ => .Double
  | 'V' :: _ => .Top
  | '[' :: _ => .Object (String.ofList desc)
  | 'L' :: rest =>
    if rest.getLast? = some ';' then .Object (String.ofList rest.dropLast)
    else .Object (String.ofList desc)
  | _ => .Object "java/lang/Object"

def mergeVtype (a b : VType) (objectLub : Option String) : VType :=
  if a = b then a
  else match a, b with
    | .Null, .Object s | .Object s, .Null => .Object s
    | .Object _, .Object _ => .Object (objectLub.getD "java/lang/Object")
    | _, _ => .Top

/-- The slots that only one of them has are `Top` in the other. -/
def mergeLocals : List VType → List VType → List VType
  | a :: as, b :: bs => mergeVtype a b none :: mergeLocals as bs
  | a :: as, [] => mergeVtype a .Top none :: mergeLocals as []
  | [], b :: bs => mergeVtype .Top b none :: mergeLocals [] bs
  | [], [] => []

/-- Slot by slot; the last one is the top of the stack. -/
def mergeSlots (topLub : Option String) : List VType → List VType → List VType
  | [a], [b] => [mergeVtype a b topLub]
  | a :: as, b :: bs => mergeVtype a b none :: mergeSlots topLub as bs
  | _, _ => []

def mergeStack (a b : List VType) (topLub : Option String) : List VType :=
  if a.length = b.length then mergeSlots topLub a b
  else if a.length < b.length then a
  else b

/-- The locals as a frame lists them: a wide type stands for two slots. -/
def compactSlots : List VType → List VType
  | [] => []
  | t :: slots =>
    if t = .Top then .Top :: compactSlots slots
    else if t.isWide then t :: compactSlots (slots.drop 1)
    else t :: compactSlots slots
termination_by slots => slots.length
decreasing_by
  · exact Nat.lt_succ_self _
  · exact Nat.lt_succ_of_le (by rw [List.length_drop]; exact Nat.sub_le _ _)
  · exact Nat.lt_succ_self _

def compactLocals (slots : List VType) : List VType :=
  ((compactSlots slots).reverse.dropWhile (· = .Top)).reverse

/-! ## What merging keeps -/

variable {off : ℕ}

theorem mergeVtype_uninitialized {a b : VType} {lub : Option String}
    (h : mergeVtype a b lub = .Uninitialized off) : a = .Uninitialized off ∧ b = .Uninitialized off := by
  unfold mergeVtype at h
  split at h
  · next heq => exact ⟨h, heq ▸ h⟩
  · split at h <;> cases h

theorem mem_mergeLocals : ∀ {as bs : List VType}, .Uninitialized off ∈ mergeLocals as bs →
    .Uninitialized off ∈ as ∧ .Uninitialized off ∈ bs
  | a :: as, b :: bs, h => by
    rw [mergeLocals] at h
    cases List.mem_cons.mp h with
    | inl heq =>
      obtain ⟨ha, hb⟩ := mergeVtype_uninitialized heq.symm
      exact ⟨ha ▸ List.mem_cons_self, hb ▸ List.mem_cons_self⟩
    | inr hmem =>
      obtain ⟨ha, hb⟩ := mem_mergeLocals hmem
      exact ⟨List.mem_cons_of_mem a ha, List.mem_cons_of_mem b hb⟩
  | a :: as, [], h => by
    rw [mergeLocals] at h
    cases List.mem_cons.mp h with
    | inl heq => cases (mergeVtype_uninitialized heq.symm).2
    | inr hmem => cases (mem_mergeLocals hmem).2
  | [], b :: bs, h => by
    rw [mergeLocals] at h
    cases List.mem_cons.mp h with
    | inl heq => cases (mergeVtype_uninitialized heq.symm).1
    | inr hmem => cases (mem_mergeLocals hmem).1
  | [], [], h => by
    rw [mergeLocals] at h
    cases h

theorem mem_mergeSlots {lub : Option String} : ∀ {as bs : List VType},
    .Uninitialized off ∈ mergeSlots lub as bs → .Uninitialized off ∈ as
  | [a], [b], h => by
    have heq := List.mem_singleton.mp h
    exact (mergeVtype_uninitialized heq.symm).1 ▸ List.mem_singleton_self _
  | a :: a' :: as, b :: bs, h => by
    rw [mergeSlots] at h
    · cases List.mem_cons.mp h with
      | inl heq => exact (mergeVtype_uninitialized heq.symm).1 ▸ List.mem_cons_self
      | inr hmem => exact List.mem_cons_of_mem a (mem_mergeSlots hmem)
    · simp
  | [a], b :: b' :: bs, h => by
    rw [mergeSlots] at h
    · cases List.mem_cons.mp h with
      | inl heq => exact (mergeVtype_uninitialized heq.symm).1 ▸ List.mem_cons_self
      | inr hmem => exact List.mem_cons_of_mem a (mem_mergeSlots hmem)
    · simp
  | [], _, h => by cases h
  | [_], [], h => by cases h
  | _ :: _ :: _, [], h => by cases h

theorem mem_mergeStack {lub : Option String} {as bs : List VType}
    (h : .Uninitialized off ∈ mergeStack as bs lub) :
    .Uninitialized off ∈ as ∨ .Uninitialized off ∈ bs := by
  rw [mergeStack] at h
  split at h
  · exact .inl (mem_mergeSlots h)
  · split at h
    · exact .inl h
    · exact .inr h

theorem mem_compactSlots {t : VType} {slots : List VType} (h : t ∈ compactSlots slots) : t ∈ slots := by
  induction slots using compactSlots.induct with
  | case1 => rwa [compactSlots] at h
  | case2 slots ih =>
    rw [compactSlots, if_pos rfl] at h
    cases List.mem_cons.mp h with
    | inl heq => exact heq ▸ List.mem_cons_self
    | inr hmem => exact List.mem_cons_of_mem _ (ih hmem)
  | case3 t' slots hne hwide ih =>
    rw [compactSlots, if_neg hne, if_pos hwide] at h
    cases List.mem_cons.mp h with
    | inl heq => exact heq ▸ List.mem_cons_self
    | inr hmem => exact List.mem_cons_of_mem _ (List.mem_of_mem_drop (ih hmem))
  | case4 t' slots hne hwide ih =>
    rw [compactSlots, if_neg hne, if_neg hwide] at h
    cases List.mem_cons.mp h with
    | inl heq => exact heq ▸ List.mem_cons_self
    | inr hmem => exact List.mem_cons_of_mem _ (ih hmem)

theorem mem_compactLocals {t : VType} {slots : List VType} (h : t ∈ compactLocals slots) :
    t ∈ slots := by
  have hrev := List.mem_reverse.mp h
  exact mem_compactSlots (List.mem_reverse.mp ((List.dropWhile_sublist _).mem hrev))

theorem vtypeFromDesc_ne (desc : List Char) : vtypeFromDesc desc ≠ .Uninitialized off := by
  intro h
  unfold vtypeFromDesc at h
  split at h <;> try cases h
  split at h <;> cases h

end ScalaRs.Bytecode
