import ScalaRs.Linearization
import Mathlib.Algebra.Order.BigOperators.Group.List
import Mathlib.Algebra.Order.Ring.Nat

/-! # The walk without a memo, and what the tables remember of it

The memo-free walk depends on its path only where it truncates. The tables
remember classes from which no cycle is reachable, with the memo-free answer,
as long as the truncation counter does not wrap around. -/
namespace ScalaRs.Linearization.SymbolTable
open ReplacingConcatenation

universe u

variable {α : Type u} [DecidableEq α] (st : SymbolTable α)

/-- The walk with no memo and no cache. -/
def pureLin [Fintype α] (cls : α) (path : List α) : List α :=
  if _h : cls ∈ path then [cls]
  else headed cls ((st.parentsOf cls).map fun p => pureLin p (path ++ [cls]))
termination_by offPath path
decreasing_by exact offPath_concat _h

/-- How often the memo-free walk truncates. -/
def truncationCount [Fintype α] (cls : α) (path : List α) : ℕ :=
  if _h : cls ∈ path then 1
  else ((st.parentsOf cls).map fun p => truncationCount p (path ++ [cls])).sum
termination_by offPath path
decreasing_by exact offPath_concat _h

variable {st} [Fintype α]

theorem truncationCount_mem {cls : α} {path : List α} (h : cls ∈ path) :
    st.truncationCount cls path = 1 := by rw [truncationCount, dif_pos h]

theorem truncationCount_notMem {cls : α} {path : List α} (h : cls ∉ path) :
    st.truncationCount cls path =
      ((st.parentsOf cls).map fun p => st.truncationCount p (path ++ [cls])).sum := by
  rw [truncationCount, dif_neg h]

theorem pureLin_notMem {cls : α} {path : List α} (h : cls ∉ path) :
    st.pureLin cls path =
      headed cls ((st.parentsOf cls).map fun p => st.pureLin p (path ++ [cls])) := by
  rw [pureLin, dif_neg h]

theorem truncationCount_eq_zero (cls : α) (path : List α) :
    st.truncationCount cls path = 0 ↔
      st.AcyclicFrom cls ∧ ∀ x, st.Reachable cls x → x ∉ path := by
  induction cls, path using truncationCount.induct with
  | case1 cls path h =>
    rw [truncationCount_mem h]
    simp only [one_ne_zero, false_iff, not_and, not_forall, not_not]
    exact fun _ => ⟨cls, Relation.ReflTransGen.refl, h⟩
  | case2 cls path h ih =>
    rw [truncationCount_notMem h, List.sum_eq_zero_iff]
    simp only [List.forall_mem_map]
    constructor
    · intro hzero
      have hparent := fun p hp => (ih p).mp (hzero p hp)
      have hself : ¬ st.Ancestor cls cls := by
        intro hcycle
        obtain ⟨p, hp, hreach⟩ := ancestor_iff.mp hcycle
        exact (hparent p hp).2 cls hreach (by simp)
      constructor
      · intro x hx
        rcases reachable_iff.mp hx with rfl | ⟨p, hp, hpx⟩
        · exact hself
        · exact (hparent p hp).1 x hpx
      · intro x hx
        rcases reachable_iff.mp hx with rfl | ⟨p, hp, hpx⟩
        · exact h
        · exact fun hmem => (hparent p hp).2 x hpx (by simp [hmem])
    · intro ⟨hacyclic, hpath⟩ p hp
      apply (ih p).mpr ⟨hacyclic.parent hp, ?_⟩
      intro x hx hmem
      rcases List.mem_append.mp hmem with hmem | hmem
      · exact hpath x (hx.head hp) hmem
      · rw [List.mem_singleton.mp hmem] at hx
        exact hacyclic cls .refl (ancestor_iff.mpr ⟨p, hp, hx⟩)

theorem pureLin_path_independent {cls : α} {path path' : List α}
    (h : st.truncationCount cls path = 0) (h' : st.truncationCount cls path' = 0) :
    st.pureLin cls path = st.pureLin cls path' := by
  induction cls, path using truncationCount.induct generalizing path' with
  | case1 cls path hmem => simp [truncationCount_mem hmem] at h
  | case2 cls path hmem ih =>
    have hmem' : cls ∉ path' := by
      intro hmem'
      simp [truncationCount_mem hmem'] at h'
    rw [truncationCount_notMem hmem, List.sum_eq_zero_iff] at h
    rw [truncationCount_notMem hmem', List.sum_eq_zero_iff] at h'
    rw [pureLin_notMem hmem, pureLin_notMem hmem']
    congr 1
    apply List.map_congr_left
    intro p hp
    exact ih p (h _ (List.mem_map_of_mem hp)) (h' _ (List.mem_map_of_mem hp))

theorem pureLin_spec (cls : α) (path : List α) :
    (st.pureLin cls path).head? = some cls ∧ (st.pureLin cls path).Nodup := by
  induction cls, path using truncationCount.induct with
  | case1 cls path h => simp [pureLin, h]
  | case2 cls path h ih =>
    rw [pureLin_notMem h]
    exact ⟨rfl, nodup_headed cls (by simpa using fun p _ => (ih p).2)⟩

theorem Chain.truncationCount_eq_zero {path : List α} {cls : α} (hchain : st.Chain path cls)
    (h : st.AcyclicFrom cls) : st.truncationCount cls path = 0 := by
  apply (SymbolTable.truncationCount_eq_zero cls path).mpr ⟨h, ?_⟩
  intro x hx hmem
  exact h cls .refl (Relation.TransGen.trans_right hx (hchain x hmem))

/-- A table that remembers only memo-free answers, of classes below which there is
no cycle. -/
def Settled (st : SymbolTable α) (m : Linearizations α) : Prop :=
  ∀ c v, m c = some v → st.AcyclicFrom c ∧ v = st.pureLin c []

theorem Settled.insert {m : Linearizations α} (h : st.Settled m) {cls : α} {v : List α}
    (hc : st.AcyclicFrom cls) (hv : v = st.pureLin cls []) : st.Settled (m.insert cls v) := by
  intro c w hw
  by_cases hcls : c = cls
  · subst hcls
    rw [Linearizations.insert, Function.update_self, Option.some_inj] at hw
    exact ⟨hc, hw ▸ hv⟩
  · rw [Linearizations.insert, Function.update_of_ne hcls] at hw
    exact h c w hw

/-- What a remembered answer means for a walk that gets there along a path. -/
theorem Settled.answer {m : Linearizations α} (h : st.Settled m) {cls : α} {v : List α}
    (hv : m cls = some v) {path : List α} (hchain : st.Chain path cls) :
    v = st.pureLin cls path ∧ st.truncationCount cls path = 0 := by
  obtain ⟨hacyclic, rfl⟩ := h cls v hv
  have hpath := hchain.truncationCount_eq_zero hacyclic
  have hnil : st.truncationCount cls [] = 0 :=
    Chain.truncationCount_eq_zero (by simp [Chain]) hacyclic
  exact ⟨pureLin_path_independent hnil hpath, hpath⟩

variable {cache : LinCache α}

/-- What the walk of a class ends with. -/
structure LinSpec (st : SymbolTable α) (w : Lin α) (lins : List (List α)) (count : ℕ)
    (r : List (List α) × Lin α) : Prop where
  answer : r.1 = lins
  settled : st.Settled r.2.memo
  truncations : r.2.truncations = w.truncations + UInt32.ofNat count
  unresolved : (∀ c, st.hasUnresolvedParent c = false) → r.2.unresolved = w.unresolved

theorem linAll_spec {path : List α} (hlin : ∀ p w, st.Settled w.memo → st.Chain path p →
      st.truncationCount p path < 2 ^ 32 → LinSpec st w [st.pureLin p path]
        (st.truncationCount p path) ([(st.lin cache p path w).1], (st.lin cache p path w).2))
    {parents : List α} (hchain : ∀ p ∈ parents, st.Chain path p) {w : Lin α}
    (hw : st.Settled w.memo)
    (hcount : ((parents.map fun p => st.truncationCount p path)).sum < 2 ^ 32) :
    LinSpec st w (parents.map fun p => st.pureLin p path)
      (parents.map fun p => st.truncationCount p path).sum (st.linAll cache parents path w) := by
  induction parents generalizing w with
  | nil =>
    rw [linAll]
    exact ⟨rfl, hw, by simp, fun _ => rfl⟩
  | cons p parents ih =>
    rw [List.map_cons, List.sum_cons] at hcount
    have hp := hlin p w hw (hchain p (by simp)) (by omega)
    have hrest := ih (fun q hq => hchain q (by simp [hq])) hp.settled (by omega)
    rw [linAll]
    refine ⟨?_, hrest.settled, ?_, fun hn => (hrest.unresolved hn).trans (hp.unresolved hn)⟩
    · rw [List.map_cons, ← hrest.answer, ← (List.cons.inj hp.answer).1]
    · rw [hrest.truncations, hp.truncations, List.map_cons, List.sum_cons, UInt32.add_assoc,
        UInt32.ofNat_add]

/-- Below `2 ^ 32`, the counter stands still only when nothing truncated. -/
theorem wrapped_eq_zero {start : UInt32} {count : ℕ} (hcount : count < 2 ^ 32)
    (h : start + UInt32.ofNat count = start) : count = 0 := by
  have hnat := congrArg UInt32.toNat h
  have hstart := start.toNat_lt
  rw [UInt32.toNat_add, UInt32.toNat_ofNat'] at hnat
  omega

theorem lin_spec (hcache : st.Settled (st.cachedLinearization cache)) (n : ℕ) :
    ∀ {path : List α}, offPath path = n → ∀ cls w, st.Settled w.memo → st.Chain path cls →
      st.truncationCount cls path < 2 ^ 32 → LinSpec st w [st.pureLin cls path]
        (st.truncationCount cls path)
        ([(st.lin cache cls path w).1], (st.lin cache cls path w).2) := by
  induction n using Nat.strong_induction_on with
  | _ n ih =>
    intro path hn cls w hw hchain hcount
    rw [lin]
    split
    case h_1 v hv =>
      obtain ⟨hanswer, hzero⟩ := hw.answer hv hchain
      exact ⟨by rw [hanswer], hw, by simp [hzero], fun _ => rfl⟩
    case h_2 hnone =>
    split
    case h_1 v hv =>
      obtain ⟨hanswer, hzero⟩ := hcache.answer hv hchain
      obtain ⟨hacyclic, hpure⟩ := hcache cls v hv
      exact ⟨by rw [hanswer], hw.insert hacyclic hpure, by simp [hzero], fun _ => rfl⟩
    case h_2 hnone' =>
    split
    case isTrue h =>
      exact ⟨by rw [pureLin, dif_pos h], hw, by rw [truncationCount_mem h]; rfl,
        fun _ => rfl⟩
    case isFalse h =>
      have hpure : st.pureLin cls path = _ := pureLin_notMem h
      have hcut : st.truncationCount cls path = _ := truncationCount_notMem h
      have hall := fun (start : Lin α) (hstart : st.Settled start.memo) =>
        linAll_spec (fun p w' => ih _ (hn ▸ offPath_concat h) rfl p w')
          (fun p hp => hchain.concat hp) hstart (hcut ▸ hcount)
      dsimp only
      generalize hstart : (if st.hasUnresolvedParent cls = true then
        { w with unresolved := w.unresolved + 1 } else w) = start
      have hmemo : start.memo = w.memo ∧ start.truncations = w.truncations := by
        rw [← hstart]
        split <;> exact ⟨rfl, rfl⟩
      have hafter := hall start (hmemo.1 ▸ hw)
      generalize st.linAll cache (st.parentsOf cls) (path ++ [cls]) start = r at hafter ⊢
      obtain ⟨lins, after⟩ := r
      obtain ⟨hlins, hsettled, htrunc, hunres⟩ := hafter
      rw [← hcut, hmemo.2] at htrunc
      have hout : headed cls lins = st.pureLin cls path := by rw [hpure, ← hlins]
      have hunres : (∀ c, st.hasUnresolvedParent c = false) → after.unresolved = w.unresolved := by
        intro hn
        rw [← hstart, hn cls] at hunres
        exact hunres hn
      dsimp only at hlins hsettled htrunc ⊢
      split
      case isFalse => exact ⟨by rw [hout], hsettled, htrunc, hunres⟩
      case isTrue hstill =>
        have hzero : st.truncationCount cls path = 0 := by
          apply wrapped_eq_zero hcount
          rw [← htrunc]
          exact (Prod.mk.inj hstill).1
        obtain ⟨hacyclic, -⟩ := (truncationCount_eq_zero cls path).mp hzero
        have hnil : st.truncationCount cls [] = 0 :=
          Chain.truncationCount_eq_zero (by simp [Chain]) hacyclic
        have hremember : headed cls lins = st.pureLin cls [] := by
          rw [hout, pureLin_path_independent hzero hnil]
        exact ⟨by rw [hout], hsettled.insert hacyclic hremember, htrunc, hunres⟩

end ScalaRs.Linearization.SymbolTable
