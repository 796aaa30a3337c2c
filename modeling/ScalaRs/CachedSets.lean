import Mathlib.Data.Finset.Dedup
import Mathlib.Data.Finset.Insert
import Mathlib.Data.Finset.SDiff
import Mathlib.Data.Finset.Card
import Mathlib.Data.List.Perm.Basic
import Mathlib.Data.Set.Card
import ScalaRs.ScalaSets

/-! # Sets with a cached order

A `HashSet` computes its order when it is read and keeps it until an operation that
changes the set. The order is the one that would be computed anew after every
operation. -/
namespace ScalaRs.ScalaSets

/-! ## The trie order lists every element once -/

section Champ
variable {α : Type*}

theorem filter_lt_perm (key : α → ℕ) (items : List α) (n : ℕ) :
    (((List.range n).map fun f => items.filter fun x => key x = f).flatten).Perm
      (items.filter fun x => key x < n) := by
  induction n with
  | zero => simp
  | succ n ih =>
    rw [List.range_succ, List.map_append, List.flatten_append]
    have hsplit := List.filter_append_perm (fun x => decide (key x < n))
      (items.filter fun x => key x < n + 1)
    rw [List.filter_filter, List.filter_filter] at hsplit
    have hbelow : (items.filter fun x => decide (key x < n) && decide (key x < n + 1)) =
        items.filter fun x => key x < n := by
      apply List.filter_congr
      intro x _
      by_cases h : key x < n
      · simp [h, Nat.lt_succ_of_lt h]
      · simp [h]
    have hlast : (items.filter fun x => !decide (key x < n) && decide (key x < n + 1)) =
        items.filter fun x => key x = n := by
      apply List.filter_congr
      intro x _
      by_cases h : key x = n
      · simp [h]
      · have : ¬ (¬ key x < n ∧ key x < n + 1) := by omega
        simp only [h, decide_false]
        simpa using this
    rw [hbelow, hlast] at hsplit
    refine List.Perm.trans ?_ hsplit
    apply List.Perm.append ih
    simp

theorem buckets_perm (items : List (α × BitVec 32)) (shift : ℕ) :
    (buckets items shift).flatten.Perm items := by
  have h := filter_lt_perm (fun p : α × BitVec 32 => fragment p.2 shift) items 32
  have hall : (items.filter fun p => fragment p.2 shift < 32) = items := by
    apply List.filter_eq_self.mpr
    intro p _
    exact decide_eq_true (fragment_lt p.2 shift)
  rw [hall] at h
  rw [buckets, List.flatten_filter_ne_nil]
  exact h

theorem champLevel_perm (levels : ℕ) (items : List (α × BitVec 32)) :
    (champLevel levels items).Perm (items.map Prod.fst) := by
  induction levels generalizing items with
  | zero => exact .refl _
  | succ levels ih =>
    rw [champLevel]
    have hnodes : ((buckets items (30 - 5 * levels)).filter (1 < ·.length)) =
        (buckets items (30 - 5 * levels)).filter fun g => !decide (g.length = 1) := by
      apply List.filter_congr
      intro g hg
      have hne : g ≠ [] := by simpa using (List.mem_filter.mp hg).2
      have hpos := List.length_pos_of_ne_nil hne
      by_cases h : g.length = 1
      · simp [h]
      · have : 1 < g.length := by omega
        simp [h, this]
    have hsub : ∀ groups : List (List (α × BitVec 32)),
        (groups.flatMap (champLevel levels)).Perm (groups.flatMap (·.map Prod.fst)) :=
      fun groups => List.Perm.flatMap_left groups fun g _ => ih g
    refine List.Perm.trans (List.Perm.append_left _ (hsub _)) ?_
    rw [← List.flatMap_append, hnodes]
    refine List.Perm.trans (List.Perm.flatMap_right _ (List.filter_append_perm _ _)) ?_
    rw [List.flatMap_def, ← List.map_flatten]
    exact (buckets_perm items _).map Prod.fst

end Champ

variable {α : Type*}

theorem rehash_perm [ScalaHash α] (v : List α) : (ScalaSet.rehash v).Perm v := by
  refine List.Perm.trans (champLevel_perm 7 _) ?_
  rw [List.map_map, List.map_map]
  exact List.Perm.of_eq (List.map_id v)

variable [DecidableEq α]

/-! ## The sets of the source -/

/-- The elements of a `HashSet`, as the source holds them. -/
structure CachedElems (α : Type*) where
  /-- In insertion order, possibly with elements removed since. -/
  inserted : List α
  members : Finset α
  /-- Removed elements still in `inserted`. -/
  stale : Finset α
  ordered : Option (List α)

inductive CachedSet (α : Type*) where
  | small (v : List α)
  | hash (h : CachedElems α)
  | list (v : List α)

namespace CachedSet

def hashSet (inserted : List α) : CachedSet α := hash ⟨inserted, inserted.toFinset, ∅, none⟩

def empty : CachedSet α := small []

def emptyList : CachedSet α := list []

def contains (s : CachedSet α) (x : α) : Bool :=
  match s with
  | small v | list v => x ∈ v
  | hash h => x ∈ h.members

def len : CachedSet α → ℕ
  | small v | list v => v.length
  | hash h => h.members.card

def incl (s : CachedSet α) (x : α) : CachedSet α :=
  if s.contains x then s
  else match s with
    | small v => if (v ++ [x]).length ≤ 4 then small (v ++ [x]) else hashSet (v ++ [x])
    | hash h =>
      hash {
        inserted := (if x ∈ h.stale then h.inserted.filter (· ≠ x) else h.inserted) ++ [x]
        members := insert x h.members
        stale := h.stale.erase x
        ordered := none }
    | list v => list (v ++ [x])

def excl (s : CachedSet α) (x : α) : CachedSet α :=
  match s with
  | small v => small (v.filter (· ≠ x))
  | hash h =>
    if x ∈ h.members then
      hash { h with members := h.members.erase x, stale := insert x h.stale, ordered := none }
    else hash h
  | list v => list (v.filter (· ≠ x))

variable [ScalaHash α]

/-- `get_or_init`: the order, from the cache if it is there. -/
def orderOf (h : CachedElems α) : List α :=
  h.ordered.getD (ScalaSet.rehash (h.inserted.filter (· ∈ h.members)))

/-- The elements, and the set whose cache is now filled. -/
def elems : CachedSet α → List α × CachedSet α
  | small v => (v, small v)
  | hash h => (orderOf h, hash { h with ordered := some (orderOf h) })
  | list v => (v, list v)

end CachedSet

/-- A read of the elements is an operation too: it fills the cache. -/
inductive SetOp (α : Type*) where
  | incl (x : α)
  | excl (x : α)
  | read

def SetOp.apply [ScalaHash α] (s : CachedSet α) : SetOp α → CachedSet α
  | incl x => s.incl x
  | excl x => s.excl x
  | read => s.elems.2

/-! ## What they stand for -/

/-- The set that operations lead to. -/
def SetOp.denote (S : Set α) : SetOp α → Set α
  | incl x => insert x S
  | excl x => S \ {x}
  | read => S

/-- The elements that are left, in the order in which they were last inserted. -/
def SetOp.survivors (v : List α) : SetOp α → List α
  | incl x => if x ∈ v then v else v ++ [x]
  | excl x => v.filter (· ≠ x)
  | read => v

variable [ScalaHash α]

/-- The set holds these elements, which were last inserted in this order. -/
inductive CachedSet.Holds : List α → CachedSet α → Prop
  | small {v : List α} (nodup : v.Nodup) : Holds v (small v)
  | list {v : List α} (nodup : v.Nodup) : Holds v (list v)
  | hash {v : List α} (h : CachedElems α) (nodup : v.Nodup)
      (inserted : h.inserted.filter (· ∈ h.members) = v)
      (members : ∀ x, x ∈ h.members → x ∈ h.inserted)
      (stale : ∀ x, x ∉ h.members → (x ∈ h.inserted ↔ x ∈ h.stale))
      (disjoint : ∀ x ∈ h.members, x ∉ h.stale)
      (ordered : ∀ order, h.ordered = some order → order = ScalaSet.rehash v) : Holds v (hash h)

namespace CachedSet.Holds

variable {v : List α} {s : CachedSet α}

theorem nodup (h : Holds v s) : v.Nodup := by
  cases h <;> assumption

theorem contains_iff (h : Holds v s) (x : α) : s.contains x = true ↔ x ∈ v := by
  cases h with
  | small nodup => exact decide_eq_true_iff
  | list nodup => exact decide_eq_true_iff
  | hash h nodup inserted members stale disjoint ordered =>
    rw [contains, decide_eq_true_iff, ← inserted, List.mem_filter, decide_eq_true_iff]
    exact ⟨fun hx => ⟨members x hx, hx⟩, And.right⟩

theorem len_eq (h : Holds v s) : s.len = v.length := by
  cases h with
  | small nodup => rfl
  | list nodup => rfl
  | hash h nodup inserted members stale disjoint ordered =>
    have hmembers : h.members = v.toFinset := by
      ext x
      rw [List.mem_toFinset, ← inserted, List.mem_filter, decide_eq_true_iff]
      exact ⟨fun hx => ⟨members x hx, hx⟩, And.right⟩
    rw [len, hmembers]
    exact List.toFinset_card_of_nodup nodup

theorem elems_hash {h : CachedElems α} (hs : Holds v (CachedSet.hash h)) :
    orderOf h = ScalaSet.rehash v := by
  cases hs with
  | hash h nodup inserted members stale disjoint ordered =>
    rw [orderOf]
    cases horder : h.ordered with
    | some order => exact ordered order horder
    | none => rw [Option.getD_none, inserted]

theorem elems_perm (h : Holds v s) : s.elems.1.Perm v := by
  cases s with
  | small w =>
    cases h
    exact .refl _
  | list w =>
    cases h
    exact .refl _
  | hash e =>
    rw [elems, h.elems_hash]
    exact rehash_perm v

theorem hashSet (nodup : v.Nodup) : Holds v (hashSet v) := by
  refine .hash _ nodup ?_ ?_ ?_ ?_ ?_
  · apply List.filter_eq_self.mpr
    intro x hx
    exact decide_eq_true (List.mem_toFinset.mpr hx)
  · intro x hx
    exact List.mem_toFinset.mp hx
  · intro x hx
    constructor
    · intro hmem
      exact absurd (List.mem_toFinset.mpr hmem) hx
    · intro hmem
      exact absurd hmem (Finset.notMem_empty x)
  · intro x _
    exact Finset.notMem_empty x
  · intro order horder
    cases horder

/-- What an element that is new to the set does to it. -/
theorem incl_new (h : Holds v s) {x : α} (hx : x ∉ v) : Holds (v ++ [x]) (s.incl x) := by
  have hnodup : (v ++ [x]).Nodup := nodup_concat h.nodup hx
  have hnew : s.contains x = false := by
    rw [← Bool.not_eq_true, h.contains_iff]
    exact hx
  unfold CachedSet.incl
  rw [hnew, if_neg Bool.false_ne_true]
  cases h with
  | small nodup =>
    dsimp only
    split
    · exact .small hnodup
    · exact .hashSet hnodup
  | list nodup => exact .list hnodup
  | hash h nodup inserted members stale disjoint ordered =>
    have hmember : x ∉ h.members := by
      intro hmem
      apply hx
      rw [← inserted, List.mem_filter]
      exact ⟨members x hmem, decide_eq_true hmem⟩
    have hrest : ∀ w : List α, x ∉ w →
        w.filter (· ∈ insert x h.members) = w.filter (· ∈ h.members) := by
      intro w hw
      apply List.filter_congr
      intro y hy
      have hne : y ≠ x := fun heq => hw (heq ▸ hy)
      simp [hne]
    refine .hash _ hnodup ?_ ?_ ?_ ?_ ?_
    · dsimp only
      rw [List.filter_append]
      have hlast : [x].filter (· ∈ insert x h.members) = [x] := by simp
      rw [hlast]
      congr 1
      split
      · rw [hrest _ (by simp), List.filter_filter, ← inserted]
        apply List.filter_congr
        intro y _
        by_cases hy : y ∈ h.members
        · have hne : y ≠ x := fun heq => hmember (heq ▸ hy)
          simp [hy, hne]
        · simp [hy]
      · next hstale =>
        rw [hrest _ ((stale x hmember).not.mpr hstale), inserted]
    · intro y hy
      rw [List.mem_append]
      cases Finset.mem_insert.mp hy with
      | inl heq => exact .inr (List.mem_singleton.mpr heq)
      | inr hmem =>
        have hne : y ≠ x := fun heq => hmember (heq ▸ hmem)
        refine .inl ?_
        split
        · exact List.mem_filter.mpr ⟨members y hmem, decide_eq_true hne⟩
        · exact members y hmem
    · intro y hy
      rw [Finset.mem_insert, not_or] at hy
      rw [List.mem_append, List.mem_singleton, Finset.mem_erase, ← stale y hy.2]
      split
      · simp [hy.1]
      · simp [hy.1]
    · intro y hy
      rw [Finset.mem_erase]
      cases Finset.mem_insert.mp hy with
      | inl heq => exact fun h => h.1 heq
      | inr hmem => exact fun h => disjoint y hmem h.2
    · intro order horder
      cases horder

theorem incl (h : Holds v s) (x : α) : Holds (SetOp.survivors v (.incl x)) (s.incl x) := by
  rw [SetOp.survivors]
  split
  · next hx =>
    unfold CachedSet.incl
    rw [if_pos ((h.contains_iff x).mpr hx)]
    exact h
  · next hx => exact h.incl_new hx

theorem excl (h : Holds v s) (x : α) : Holds (v.filter (· ≠ x)) (s.excl x) := by
  have hnodup : (v.filter (· ≠ x)).Nodup := h.nodup.filter _
  cases h with
  | small nodup => exact .small hnodup
  | list nodup => exact .list hnodup
  | hash h nodup inserted members stale disjoint ordered =>
    have hv : ∀ y, y ∈ v ↔ y ∈ h.members := by
      intro y
      rw [← inserted, List.mem_filter, decide_eq_true_iff]
      exact ⟨And.right, fun hy => ⟨members y hy, hy⟩⟩
    rw [CachedSet.excl]
    split
    · next hx =>
      refine .hash _ hnodup ?_ ?_ ?_ ?_ ?_
      · dsimp only
        rw [← inserted, List.filter_filter]
        apply List.filter_congr
        intro y _
        by_cases hy : y = x
        · simp [hy]
        · simp [hy]
      · intro y hy
        exact members y (Finset.mem_of_mem_erase hy)
      · intro y hy
        dsimp only
        rw [Finset.mem_insert]
        by_cases heq : y = x
        · simp [heq, members x hx]
        · rw [Finset.mem_erase, not_and] at hy
          rw [stale y (hy heq)]
          simp [heq]
      · intro y hy
        rw [Finset.mem_erase] at hy
        rw [Finset.mem_insert, not_or]
        exact ⟨hy.1, disjoint y hy.2⟩
      · intro order horder
        cases horder
    · next hx =>
      have hsame : v.filter (· ≠ x) = v := by
        apply List.filter_eq_self.mpr
        intro y hy
        exact decide_eq_true fun heq => hx ((hv x).mp (heq ▸ hy))
      rw [hsame]
      exact .hash _ nodup inserted members stale disjoint ordered

theorem read (h : Holds v s) : Holds v s.elems.2 := by
  cases s with
  | small w => exact h
  | list w => exact h
  | hash e =>
    have horder := h.elems_hash
    cases h with
    | hash e nodup inserted members stale disjoint ordered =>
      refine .hash _ nodup inserted members stale disjoint ?_
      intro order hcache
      rw [← horder]
      exact (Option.some.inj hcache).symm

theorem apply (h : Holds v s) (op : SetOp α) : Holds (op.survivors v) (op.apply s) := by
  cases op with
  | incl x => exact h.incl x
  | excl x => exact h.excl x
  | read => exact h.read

theorem run (h : Holds v s) (ops : List (SetOp α)) :
    Holds (ops.foldl SetOp.survivors v) (ops.foldl SetOp.apply s) := by
  induction ops generalizing v s with
  | nil => exact h
  | cons op ops ih => exact ih (h.apply op)

end CachedSet.Holds

omit [ScalaHash α] in
theorem mem_survivors {v : List α} {S : Set α} (h : ∀ x, x ∈ v ↔ x ∈ S) (op : SetOp α) (x : α) :
    x ∈ op.survivors v ↔ x ∈ op.denote S := by
  cases op with
  | incl y =>
    rw [SetOp.survivors, SetOp.denote, Set.mem_insert_iff, ← h x]
    split
    · next hy => exact ⟨.inr, fun hx => hx.elim (fun heq => heq ▸ hy) id⟩
    · rw [List.mem_append, List.mem_singleton, or_comm]
  | excl y =>
    rw [SetOp.survivors, SetOp.denote, List.mem_filter, decide_eq_true_iff, h x]
    rfl
  | read => exact h x

omit [ScalaHash α] in
theorem mem_foldl_survivors {v : List α} {S : Set α} (h : ∀ x, x ∈ v ↔ x ∈ S)
    (ops : List (SetOp α)) (x : α) :
    x ∈ ops.foldl SetOp.survivors v ↔ x ∈ ops.foldl SetOp.denote S := by
  induction ops generalizing v S with
  | nil => exact h x
  | cons op ops ih => exact ih (mem_survivors h op)

/-- The set that operations make of an empty set or of an empty `ListSet`. -/
def runSet (isList : Bool) (ops : List (SetOp α)) : CachedSet α :=
  ops.foldl SetOp.apply (if isList then .emptyList else .empty)

theorem holds_runSet (isList : Bool) (ops : List (SetOp α)) :
    (runSet isList ops).Holds (ops.foldl SetOp.survivors []) := by
  apply CachedSet.Holds.run
  cases isList with
  | true => exact .list List.nodup_nil
  | false => exact .small List.nodup_nil

/-- Whatever operations came before, the set is the one they stand for, its elements are
listed once, and the order of a `HashSet` is that of its trie, as if computed just now. -/
theorem runSet_correct (isList : Bool) (ops : List (SetOp α)) :
    (∀ x, (runSet isList ops).contains x = true ↔ x ∈ ops.foldl SetOp.denote ∅) ∧
    (ops.foldl SetOp.denote ∅).encard = (runSet isList ops).len ∧
    (runSet isList ops).elems.1.Nodup ∧
    (∀ x, x ∈ (runSet isList ops).elems.1 ↔ x ∈ ops.foldl SetOp.denote ∅) ∧
    (∀ h, runSet isList ops = .hash h → (runSet isList ops).elems.1 =
      ScalaSet.rehash (ops.foldl SetOp.survivors [])) := by
  have hholds := holds_runSet isList ops
  have hmem : ∀ x, x ∈ ops.foldl SetOp.survivors [] ↔ x ∈ ops.foldl SetOp.denote ∅ :=
    mem_foldl_survivors (fun x => by simp) ops
  refine ⟨?_, ?_, ?_, ?_, ?_⟩
  · intro x
    rw [hholds.contains_iff, hmem]
  · have hset : ops.foldl SetOp.denote ∅ = ((ops.foldl SetOp.survivors []).toFinset : Set α) := by
      ext x
      rw [Finset.mem_coe, List.mem_toFinset, hmem]
    rw [hset, Set.encard_coe_eq_coe_finsetCard, List.toFinset_card_of_nodup hholds.nodup,
      hholds.len_eq]
  · exact hholds.elems_perm.nodup_iff.mpr hholds.nodup
  · intro x
    rw [hholds.elems_perm.mem_iff, hmem]
  · intro h heq
    rw [heq] at hholds ⊢
    exact hholds.elems_hash

end ScalaRs.ScalaSets
