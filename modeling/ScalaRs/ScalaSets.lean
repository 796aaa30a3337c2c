import Mathlib.Data.List.Nodup
import Mathlib.Data.List.Range

/-! # Scala's immutable sets, as far as their iteration order goes

`Set1`..`Set4` keep insertion order; a fifth element turns the set into a
`HashSet`, whose order is the order of its CHAMP trie from then on. `ListSet`
keeps insertion order at any size. -/
namespace ScalaRs.ScalaSets

/-- `scala.collection.Hashing.improve`. -/
def improve (hcode : BitVec 32) : BitVec 32 :=
  let h := hcode + ~~~(hcode <<< 9)
  let h := h ^^^ (h >>> 14)
  let h := h + (h <<< 4)
  h ^^^ (h >>> 10)

class ScalaHash (α : Type*) where
  /-- The element's `##`. -/
  scalaHash : α → BitVec 32

section Champ
variable {α : Type*}

/-- The 5-bit fragment of an improved hash at `shift`. -/
def fragment (h : BitVec 32) (shift : ℕ) : ℕ := ((h >>> shift) &&& 31).toNat

/-- The non-empty groups of a `BTreeMap` keyed by fragment, in key order. -/
def buckets (items : List (α × BitVec 32)) (shift : ℕ) : List (List (α × BitVec 32)) :=
  ((List.range 32).map fun f => items.filter fun p => fragment p.2 shift = f).filter (· ≠ [])

/-- One level of the trie: the fragments with one key, then the sub-nodes.
`levels` counts the 5-bit levels left, so that the shift runs 0, 5, …, 30. -/
def champLevel : ℕ → List (α × BitVec 32) → List α
  | 0, items => items.map Prod.fst
  | levels + 1, items =>
    let groups := buckets items (30 - 5 * levels)
    ((groups.filter (·.length = 1)).flatMap (·.map Prod.fst)) ++
      (groups.filter (1 < ·.length)).flatMap (champLevel levels)

def champOrder (items : List (α × BitVec 32)) : List α :=
  champLevel 7 (items.map fun p => (p.1, improve p.2))

theorem fragment_lt (h : BitVec 32) (shift : ℕ) : fragment h shift < 32 := by
  simp only [fragment, BitVec.toNat_and]
  exact Nat.lt_succ_of_le Nat.and_le_right

theorem mem_buckets {items : List (α × BitVec 32)} {shift : ℕ} {p : α × BitVec 32} :
    (∃ g ∈ buckets items shift, p ∈ g) ↔ p ∈ items := by
  constructor
  · rintro ⟨g, hg, hp⟩
    obtain ⟨hg, -⟩ := List.mem_filter.mp hg
    obtain ⟨f, -, rfl⟩ := List.mem_map.mp hg
    exact (List.mem_filter.mp hp).1
  · intro hp
    have hmem : p ∈ items.filter fun q => fragment q.2 shift = fragment p.2 shift :=
      List.mem_filter.mpr ⟨hp, by simp⟩
    refine ⟨_, List.mem_filter.mpr ⟨List.mem_map.mpr
      ⟨fragment p.2 shift, List.mem_range.mpr (fragment_lt _ _), rfl⟩, ?_⟩, hmem⟩
    simpa using List.ne_nil_of_mem hmem

theorem mem_champLevel (levels : ℕ) (items : List (α × BitVec 32)) (x : α) :
    x ∈ champLevel levels items ↔ ∃ h, (x, h) ∈ items := by
  induction levels generalizing items with
  | zero => simp [champLevel]
  | succ levels ih =>
    simp only [champLevel, List.mem_append, List.mem_flatMap, List.mem_filter, decide_eq_true_eq,
      List.mem_map, Prod.exists, exists_and_right, exists_eq_right, ih]
    constructor
    · rintro (⟨g, ⟨hg, -⟩, h, hx⟩ | ⟨g, ⟨hg, -⟩, h, hx⟩)
      · exact ⟨h, mem_buckets.mp ⟨g, hg, hx⟩⟩
      · exact ⟨h, mem_buckets.mp ⟨g, hg, hx⟩⟩
    · rintro ⟨h, hx⟩
      obtain ⟨g, hg, hgx⟩ := mem_buckets.mpr hx
      have hpos := List.length_pos_of_mem hgx
      rcases Nat.lt_or_ge 1 g.length with hlen | hlen
      · exact .inr ⟨g, ⟨hg, hlen⟩, h, hgx⟩
      · exact .inl ⟨g, ⟨hg, by omega⟩, h, hgx⟩

@[simp] theorem mem_champOrder (items : List (α × BitVec 32)) (x : α) :
    x ∈ champOrder items ↔ ∃ h, (x, h) ∈ items := by
  simp only [champOrder, mem_champLevel, List.mem_map, Prod.mk.injEq, Prod.exists]
  constructor
  · rintro ⟨_, a, h, hp, rfl, -⟩
    exact ⟨h, hp⟩
  · rintro ⟨h, hp⟩
    exact ⟨_, x, h, hp, rfl, rfl⟩

end Champ

/-- The elements of a `HashSet`. Removal only updates the members; `inserted`
keeps removed elements, listed in `stale`, until they are inserted anew. The
source also caches the trie order and drops the cache at every change. -/
structure HashElems (α : Type*) where
  /-- In insertion order, possibly with elements removed since. -/
  inserted : List α
  members : List α
  stale : List α
  inserted_nodup : inserted.Nodup
  members_nodup : members.Nodup
  mem_inserted : ∀ x, x ∈ inserted ↔ x ∈ members ∨ x ∈ stale
  disjoint : ∀ x ∈ members, x ∉ stale

/-- An immutable Scala `Set`. -/
inductive ScalaSet (α : Type*) where
  | small (v : List α) (nodup : v.Nodup) (short : v.length ≤ 4)
  | hash (h : HashElems α)
  | list (v : List α) (nodup : v.Nodup)

variable {α : Type*} [DecidableEq α]

omit [DecidableEq α] in
theorem nodup_concat {v : List α} {x : α} (hv : v.Nodup) (hx : x ∉ v) : (v ++ [x]).Nodup :=
  List.nodup_append.mpr ⟨hv, List.nodup_singleton x, by
    intro a ha b hb
    rw [List.mem_singleton] at hb
    exact fun h => hx (hb ▸ h ▸ ha)⟩

namespace HashElems

/-- Back after a removal: `x` is inserted anew, last. -/
def reinserted (h : HashElems α) (x : α) : List α :=
  (if x ∈ h.stale then h.inserted.filter (· ≠ x) else h.inserted) ++ [x]

theorem mem_reinserted (h : HashElems α) (x y : α) :
    y ∈ h.reinserted x ↔ y = x ∨ y ∈ h.members ∨ y ∈ h.stale := by
  unfold reinserted
  split
  · by_cases hy : y = x <;> simp [hy, h.mem_inserted]
  · by_cases hy : y = x <;> simp [hy, h.mem_inserted]

theorem reinserted_nodup (h : HashElems α) (x : α) (hx : x ∉ h.members) :
    (h.reinserted x).Nodup := by
  unfold reinserted
  split
  · exact nodup_concat (h.inserted_nodup.filter _) (by simp)
  · next hs => exact nodup_concat h.inserted_nodup (by simp [h.mem_inserted, hx, hs])

def incl (h : HashElems α) (x : α) (hx : x ∉ h.members) : HashElems α where
  inserted := h.reinserted x
  members := h.members ++ [x]
  stale := h.stale.filter (· ≠ x)
  inserted_nodup := h.reinserted_nodup x hx
  members_nodup := nodup_concat h.members_nodup hx
  mem_inserted y := by
    by_cases hy : y = x <;> simp [mem_reinserted, hy]
  disjoint y hy := by
    rcases List.mem_append.mp hy with hm | hm
    · exact fun hs => h.disjoint y hm (List.mem_of_mem_filter hs)
    · simp [List.mem_singleton.mp hm]

def excl (h : HashElems α) (x : α) (hx : x ∈ h.members) : HashElems α where
  inserted := h.inserted
  members := h.members.filter (· ≠ x)
  stale := h.stale ++ [x]
  inserted_nodup := h.inserted_nodup
  members_nodup := h.members_nodup.filter _
  mem_inserted y := by
    by_cases hy : y = x <;> simp [h.mem_inserted, hy, hx]
  disjoint y hy := by
    simp only [List.mem_filter, decide_not, Bool.not_eq_true', decide_eq_false_iff_not] at hy
    simp [h.disjoint y hy.1, hy.2]

end HashElems

namespace ScalaSet

def hashSet (inserted : List α) (nodup : inserted.Nodup) : ScalaSet α :=
  .hash ⟨inserted, inserted, [], nodup, nodup, by simp, by simp⟩

def empty : ScalaSet α := .small [] List.nodup_nil (Nat.zero_le 4)

def emptyList : ScalaSet α := .list [] List.nodup_nil

/-- The elements in no particular order. -/
def unordered : ScalaSet α → List α
  | small v _ _ => v
  | hash h => h.members
  | list v _ => v

instance : Membership α (ScalaSet α) := ⟨fun s x => x ∈ s.unordered⟩

instance (x : α) (s : ScalaSet α) : Decidable (x ∈ s) :=
  inferInstanceAs (Decidable (x ∈ s.unordered))

def contains (s : ScalaSet α) (x : α) : Bool := x ∈ s

def len (s : ScalaSet α) : ℕ := s.unordered.length

def isEmpty (s : ScalaSet α) : Bool := s.len = 0

def rehash [ScalaHash α] (v : List α) : List α :=
  champOrder (v.map fun x => (x, ScalaHash.scalaHash x))

/-- The elements in iteration order. -/
def elems [ScalaHash α] : ScalaSet α → List α
  | small v _ _ => v
  | hash h => rehash (h.inserted.filter (· ∈ h.members))
  | list v _ => v

def head [ScalaHash α] (s : ScalaSet α) : Option α := s.elems.head?

def incl (s : ScalaSet α) (x : α) : ScalaSet α :=
  if hx : x ∈ s then s else match s with
    | small v nodup _ =>
      if hv : (v ++ [x]).length ≤ 4 then .small (v ++ [x]) (nodup_concat nodup hx) hv
      else hashSet (v ++ [x]) (nodup_concat nodup hx)
    | hash h => .hash (h.incl x hx)
    | list v nodup => .list (v ++ [x]) (nodup_concat nodup hx)

def excl (s : ScalaSet α) (x : α) : ScalaSet α :=
  match s with
  | small v nodup short =>
    .small (v.filter (· ≠ x)) (nodup.filter _) ((List.length_filter_le _ _).trans short)
  | hash h => if hx : x ∈ h.members then .hash (h.excl x hx) else .hash h
  | list v nodup => .list (v.filter (· ≠ x)) (nodup.filter _)

/-- `Set.from(xs)`: added one by one. -/
def fromIter (xs : List α) : ScalaSet α := xs.foldl incl empty

/-- `xs.to(ListSet)`. -/
def listFrom (xs : List α) : ScalaSet α := xs.foldl incl emptyList

omit [DecidableEq α] in
theorem mem_def (s : ScalaSet α) (x : α) : x ∈ s ↔ x ∈ s.unordered := Iff.rfl

omit [DecidableEq α] in
theorem unordered_nodup (s : ScalaSet α) : s.unordered.Nodup := by
  cases s with
  | small v nodup short => exact nodup
  | hash h => exact h.members_nodup
  | list v nodup => exact nodup

omit [DecidableEq α] in
@[simp] theorem notMem_empty (x : α) : x ∉ (empty : ScalaSet α) := List.not_mem_nil

omit [DecidableEq α] in
@[simp] theorem notMem_emptyList (x : α) : x ∉ (emptyList : ScalaSet α) := List.not_mem_nil

@[simp] theorem mem_incl (s : ScalaSet α) (x y : α) : y ∈ s.incl x ↔ y = x ∨ y ∈ s := by
  unfold incl
  split
  · next hx => exact ⟨.inr, fun h => h.elim (fun e => e ▸ hx) id⟩
  · cases s with
    | small v nodup short =>
      dsimp only
      split <;> simp [mem_def, unordered, hashSet, or_comm]
    | hash h => simp [mem_def, unordered, HashElems.incl, or_comm]
    | list v nodup => simp [mem_def, unordered, or_comm]

@[simp] theorem mem_excl (s : ScalaSet α) (x y : α) : y ∈ s.excl x ↔ y ∈ s ∧ y ≠ x := by
  cases s with
  | small v nodup short => simp [excl, mem_def, unordered]
  | hash h =>
    unfold excl
    dsimp only
    split
    · simp [mem_def, unordered, HashElems.excl]
    · next hx => exact ⟨fun hy => ⟨hy, fun e => hx (e ▸ hy)⟩, And.left⟩
  | list v nodup => simp [excl, mem_def, unordered]

private theorem mem_foldl_incl (xs : List α) (s : ScalaSet α) (y : α) :
    y ∈ xs.foldl incl s ↔ y ∈ xs ∨ y ∈ s := by
  induction xs generalizing s with
  | nil => simp
  | cons x xs ih =>
    rw [List.foldl_cons, ih, mem_incl, List.mem_cons]
    tauto

@[simp] theorem mem_fromIter (xs : List α) (y : α) : y ∈ fromIter xs ↔ y ∈ xs := by
  simp [fromIter, mem_foldl_incl]

@[simp] theorem mem_listFrom (xs : List α) (y : α) : y ∈ listFrom xs ↔ y ∈ xs := by
  simp [listFrom, mem_foldl_incl]

omit [DecidableEq α] in
theorem len_eq_zero {s : ScalaSet α} : s.len = 0 ↔ ∀ x, x ∉ s := by
  simp [len, mem_def, List.eq_nil_iff_forall_not_mem]

omit [DecidableEq α] in
theorem isEmpty_iff {s : ScalaSet α} : s.isEmpty = true ↔ ∀ x, x ∉ s := by
  simp [isEmpty, len_eq_zero]

omit [DecidableEq α] in
/-- A one-element set contains nothing but that element. -/
theorem eq_of_len_one {s : ScalaSet α} (h : s.len = 1) {x y : α} (hx : x ∈ s) (hy : y ∈ s) :
    x = y := by
  obtain ⟨z, hz⟩ := List.length_eq_one_iff.mp h
  rw [mem_def, hz, List.mem_singleton] at hx hy
  rw [hx, hy]

variable [ScalaHash α]

@[simp] theorem mem_elems (s : ScalaSet α) (x : α) : x ∈ s.elems ↔ x ∈ s := by
  cases s with
  | small v nodup short => rfl
  | hash h =>
    simp only [elems, rehash, mem_champOrder, List.mem_map, List.mem_filter, decide_eq_true_eq,
      Prod.mk.injEq, mem_def, unordered, h.mem_inserted]
    constructor
    · rintro ⟨_, a, ⟨-, ha⟩, rfl, -⟩
      exact ha
    · intro hx
      exact ⟨_, x, ⟨.inl hx, hx⟩, rfl, rfl⟩
  | list v nodup => rfl

theorem mem_of_head {s : ScalaSet α} {x : α} (h : s.head = some x) : x ∈ s :=
  (mem_elems s x).mp (List.mem_of_mem_head? (by simpa [head] using h))

theorem head_isSome {s : ScalaSet α} (h : s.len ≠ 0) : ∃ x, s.head = some x := by
  have hne : s.elems ≠ [] := fun he => h (len_eq_zero.mpr fun x hx => by
    simpa [he] using (mem_elems s x).mpr hx)
  exact ⟨s.elems.head hne, List.head?_eq_some_head hne⟩

end ScalaSet

end ScalaRs.ScalaSets
