import ScalaRs.LinearizationChanges

/-! # Runs of changes and queries

In every state that changes and queries lead to, a query answers as the walk with
no memo and no cache does on the table as it is then. -/
namespace ScalaRs.Linearization

universe u

variable {α : Type u} [DecidableEq α]

namespace SymbolTable

/-! ## Unresolved parent clauses -/

/-- How many classes with a parent clause that does not name its class the memo-free walk
enters. -/
def unresolvedCount [Fintype α] (st : SymbolTable α) (cls : α) (path : List α) : ℕ :=
  if _h : cls ∈ path then 0
  else
    (if st.hasUnresolvedParent cls then 1 else 0) +
      ((st.parentsOf cls).map fun p => unresolvedCount st p (path ++ [cls])).sum
termination_by offPath path
decreasing_by exact offPath_concat _h

variable [Fintype α] {st : SymbolTable α}

theorem unresolvedCount_mem {cls : α} {path : List α} (h : cls ∈ path) :
    st.unresolvedCount cls path = 0 := by rw [unresolvedCount, dif_pos h]

theorem unresolvedCount_notMem {cls : α} {path : List α} (h : cls ∉ path) :
    st.unresolvedCount cls path = (if st.hasUnresolvedParent cls then 1 else 0) +
      ((st.parentsOf cls).map fun p => st.unresolvedCount p (path ++ [cls])).sum := by
  rw [unresolvedCount, dif_neg h]

theorem Named.unresolvedCount {cls : α} (path : List α) (h : st.Named cls) :
    st.unresolvedCount cls path = 0 := by
  fun_induction st.unresolvedCount cls path with
  | case1 => rfl
  | case2 cls path hmem ih =>
    have hcls : ¬ st.hasUnresolvedParent cls = true := by
      rw [h cls .refl]
      exact Bool.false_ne_true
    rw [if_neg hcls, Nat.zero_add, List.sum_eq_zero_iff]
    intro n hn
    obtain ⟨p, hp, rfl⟩ := List.mem_map.mp hn
    exact ih p (h.parent hp)

/-- A walk that neither truncates nor meets an unresolved clause sees all there is below. -/
theorem named_of_count {cls : α} {path : List α} (hcut : st.truncationCount cls path = 0)
    (hzero : st.unresolvedCount cls path = 0) : st.Named cls := by
  fun_induction st.truncationCount cls path with
  | case1 => cases hcut
  | case2 cls path hmem ih =>
    rw [unresolvedCount_notMem hmem, Nat.add_eq_zero_iff, List.sum_eq_zero_iff] at hzero
    rw [List.sum_eq_zero_iff] at hcut
    intro x hx
    cases reachable_iff.mp hx with
    | inl heq =>
      rw [heq]
      have hself := hzero.1
      split at hself
      · cases hself
      · next hcls => exact Bool.eq_false_iff.mpr hcls
    | inr hbelow =>
      obtain ⟨p, hp, hpx⟩ := hbelow
      have hpcut := hcut _ (List.mem_map_of_mem hp)
      have hpzero := hzero.2 _ (List.mem_map_of_mem hp)
      exact ih p hpcut hpzero x hpx

variable {cache : LinCache α}

/-- What the walk of classes leaves in its memo. -/
structure LastSpec (st : SymbolTable α) (w : Lin α) (count : ℕ) (r : Lin α) : Prop where
  named : ∀ c v, r.memo c = some v → st.Named c
  unresolved : r.unresolved = w.unresolved + UInt32.ofNat count

theorem linAll_last {path : List α} (hcache : st.Lasting (st.cachedLinearization cache))
    (hlin : ∀ p w, st.Lasting w.memo → st.Chain path p → st.truncationCount p path < 2 ^ 32 →
      st.unresolvedCount p path < 2 ^ 32 →
      LastSpec st w (st.unresolvedCount p path) (st.lin cache p path w).2)
    {parents : List α} (hchain : ∀ p ∈ parents, st.Chain path p) {w : Lin α}
    (hw : st.Lasting w.memo)
    (hcut : (parents.map fun p => st.truncationCount p path).sum < 2 ^ 32)
    (hcount : (parents.map fun p => st.unresolvedCount p path).sum < 2 ^ 32) :
    LastSpec st w (parents.map fun p => st.unresolvedCount p path).sum
      (st.linAll cache parents path w).2 := by
  induction parents generalizing w with
  | nil =>
    rw [linAll]
    exact ⟨hw.named, by simp⟩
  | cons p parents ih =>
    rw [List.map_cons, List.sum_cons] at hcut hcount
    have hp := hlin p w hw (hchain p List.mem_cons_self) (by omega) (by omega)
    have hsettled := (lin_spec hcache.settled _ rfl p w hw.settled (hchain p List.mem_cons_self)
      (by omega)).settled
    have hrest := ih (fun q hq => hchain q (List.mem_cons_of_mem p hq)) ⟨hsettled, hp.named⟩
      (by omega) (by omega)
    rw [linAll]
    refine ⟨hrest.named, ?_⟩
    rw [hrest.unresolved, hp.unresolved, List.map_cons, List.sum_cons, UInt32.add_assoc,
      UInt32.ofNat_add]

omit [Fintype α] in
theorem named_insert {m : Linearizations α} (h : ∀ c v, m c = some v → st.Named c) {cls : α}
    {out : List α} (hcls : st.Named cls) :
    ∀ c v, m.insert cls out c = some v → st.Named c := by
  intro c v hv
  by_cases hc : c = cls
  · exact hc ▸ hcls
  · rw [Linearizations.insert, Function.update_of_ne hc] at hv
    exact h c v hv

theorem lin_last (hcache : st.Lasting (st.cachedLinearization cache)) (n : ℕ) :
    ∀ {path : List α}, offPath path = n → ∀ cls w, st.Lasting w.memo → st.Chain path cls →
      st.truncationCount cls path < 2 ^ 32 → st.unresolvedCount cls path < 2 ^ 32 →
      LastSpec st w (st.unresolvedCount cls path) (st.lin cache cls path w).2 := by
  induction n using Nat.strong_induction_on with
  | _ n ih =>
    intro path hn cls w hw hchain hcut hcount
    rw [lin]
    split
    case h_1 v hv =>
      refine ⟨hw.named, ?_⟩
      rw [(hw.named cls v hv).unresolvedCount]
      simp
    case h_2 hnone =>
    split
    case h_1 v hv =>
      have hcls := hcache.named cls v hv
      refine ⟨named_insert hw.named hcls, ?_⟩
      rw [hcls.unresolvedCount]
      simp
    case h_2 hnone' =>
    split
    case isTrue h =>
      refine ⟨hw.named, ?_⟩
      rw [unresolvedCount_mem h]
      simp
    case isFalse h =>
      have htruncated : st.truncationCount cls path = _ := truncationCount_notMem h
      have hunresolved : st.unresolvedCount cls path = _ := unresolvedCount_notMem h
      dsimp only
      generalize hstart : (if st.hasUnresolvedParent cls = true then
        { w with unresolved := w.unresolved + 1 } else w) = start
      have hmemo : start.memo = w.memo ∧ start.truncations = w.truncations ∧
          start.unresolved = w.unresolved +
            UInt32.ofNat (if st.hasUnresolvedParent cls then 1 else 0) := by
        rw [← hstart]
        split
        · exact ⟨rfl, rfl, rfl⟩
        · exact ⟨rfl, rfl, by simp⟩
      have hlasting : st.Lasting start.memo := hmemo.1 ▸ hw
      have hbelow : ∀ p ∈ st.parentsOf cls, st.Chain (path ++ [cls]) p :=
        fun p hp => hchain.concat hp
      have hspec := linAll_spec (fun p w' => lin_spec hcache.settled _ rfl p w') hbelow
        hlasting.settled (htruncated ▸ hcut)
      have hafter := linAll_last hcache (fun p w' => ih _ (hn ▸ offPath_concat h) rfl p w') hbelow
        hlasting (htruncated ▸ hcut) (by omega)
      generalize st.linAll cache (st.parentsOf cls) (path ++ [cls]) start = r at hspec hafter ⊢
      obtain ⟨lins, after⟩ := r
      have htrunc := hspec.truncations
      have hunres := hafter.unresolved
      rw [hmemo.2.2, UInt32.add_assoc, ← UInt32.ofNat_add, ← hunresolved] at hunres
      rw [hmemo.2.1, ← htruncated] at htrunc
      dsimp only at htrunc hunres ⊢
      split
      case isFalse => exact ⟨hafter.named, hunres⟩
      case isTrue hstill =>
        obtain ⟨hstill, hstill'⟩ := Prod.mk.inj hstill
        have hnamed : st.Named cls := by
          apply named_of_count
          · exact wrapped_eq_zero hcut (htrunc ▸ hstill)
          · exact wrapped_eq_zero hcount (hunres ▸ hstill')
        exact ⟨named_insert hafter.named hnamed, hunres⟩

/-- What a query leaves in the cache, and what it means that its answer is settled. -/
theorem linearize_last (hcache : st.Lasting (st.cachedLinearization cache)) {cls : α}
    (hcut : st.truncationCount cls [] < 2 ^ 32) (hcount : st.unresolvedCount cls [] < 2 ^ 32) :
    st.Lasting (st.cachedLinearization (st.linearize cache cls).2) ∧
      ((st.linearizeSettled cache cls).1.2 = true → st.AcyclicFrom cls ∧ st.Named cls) := by
  cases hv : st.cachedLinearization cache cls with
  | some v =>
    simp only [linearize, linearizeSettled, hv]
    exact ⟨hcache, fun _ => ⟨(hcache.settled cls v hv).1, hcache.named cls v hv⟩⟩
  | none =>
    simp only [linearize, linearizeSettled, hv]
    have hempty : st.Lasting fun _ => none := ⟨by simp [Settled], by simp⟩
    have hsettled := (lin_spec hcache.settled _ rfl cls ⟨fun _ => none, 0, 0⟩ hempty.settled
      (by simp [Chain]) hcut).settled
    have hnamed := (lin_last hcache _ rfl cls ⟨fun _ => none, 0, 0⟩ hempty
      (by simp [Chain]) hcut hcount).named
    constructor
    · constructor
      · intro c v hv
        cases cachedLinearization_publish hv with
        | inl hold => exact hcache.settled c v hold
        | inr hnew => exact hsettled c v hnew
      · intro c v hv
        cases cachedLinearization_publish hv with
        | inl hold => exact hcache.named c v hold
        | inr hnew => exact hnamed c v hnew
    · intro h
      obtain ⟨v, hv⟩ := Option.isSome_iff_exists.mp h
      exact ⟨(hsettled cls v hv).1, hnamed cls v hv⟩

omit [DecidableEq α] in
theorem publish_gen {entries : Linearizations α} (h : cache.gen ≤ st.graphGen) :
    (st.publishLinearizations cache entries).gen ≤ st.graphGen := by
  unfold publishLinearizations
  split
  · exact h
  · exact le_rfl

theorem linearize_gen (h : cache.gen ≤ st.graphGen) (cls : α) :
    (st.linearize cache cls).2.gen ≤ st.graphGen := by
  cases hv : st.cachedLinearization cache cls with
  | some v =>
    simp only [linearize, linearizeSettled, hv]
    exact h
  | none =>
    simp only [linearize, linearizeSettled, hv]
    exact publish_gen h

end SymbolTable

/-- Classes that name the given parents outright. -/
def Graph.ofParents (parents : Fin 2 → List (Fin 2)) (graphGen : UInt64) : Graph (Fin 2) where
  symbols c := ⟨"C", (parents c).map fun p => .cls p []⟩
  classByJvm _ := none
  intSym := 0
  byteSym := 0
  shortSym := 0
  longSym := 0
  floatSym := 0
  doubleSym := 0
  charSym := 0
  booleanSym := 0
  unitSym := 0
  stringSym := 0
  anySym := 0
  anyrefSym := 0
  anyvalSym := 0
  arraySym := 0
  graphGen

theorem Graph.parentsOf_ofParents (parents : Fin 2 → List (Fin 2)) (graphGen : UInt64)
    (scopes : Scopes (Fin 2)) (c : Fin 2) :
    ((Graph.ofParents parents graphGen).table scopes).parentsOf c = parents c := by
  have hclass : ∀ p, (Graph.ofParents parents graphGen).parentClass scopes (.cls p []) = some p := by
    intro p
    simp [parentClass, functionClassForm, classSymOf]
  have hskip : ∀ p, ((Graph.ofParents parents graphGen).table scopes).skipParent p = false := by
    intro p
    simp [SymbolTable.skipParent, table, Graph.ofParents]
  have hsymbols : ((Graph.ofParents parents graphGen).symbols c).parents =
      (parents c).map fun p => .cls p [] := rfl
  rw [parentsOf_table, hsymbols, List.filterMap_map]
  simp [hclass, hskip]

theorem Graph.hasUnresolvedParent_ofParents (parents : Fin 2 → List (Fin 2)) (graphGen : UInt64)
    (scopes : Scopes (Fin 2)) (c : Fin 2) :
    ((Graph.ofParents parents graphGen).table scopes).hasUnresolvedParent c = false := by
  simp [SymbolTable.hasUnresolvedParent, table, Graph.ofParents, parentNamesItsClass]

/-! ## The superclass of a trait -/

/-- The class that a trait constrains its mixers to. Which symbols are interfaces is read
from their flags. -/
def SymbolTable.traitSuperclass [Fintype α] (st : SymbolTable α) (cache : LinCache α)
    (isInterface : α → Bool) (id : α) : Option α :=
  if !isInterface id then none
  else (st.linearize cache id).1.find? fun s => !isInterface s && !st.skipParent s

/-- A class that the trait inherits from. -/
def SymbolTable.Superclass (st : SymbolTable α) (isInterface : α → Bool) (id c : α) : Prop :=
  st.Ancestor id c ∧ isInterface c = false ∧ st.skipParent c = false

omit [DecidableEq α] in
/-- What stands first in an ordered list is below no other that would do. -/
theorem ordered_find {r : α → α → Prop} {p : α → Bool} {c d : α} {l : List α}
    (h : ReplacingConcatenation.Ordered r l) (hc : l.find? p = some c) (hd : d ∈ l)
    (hp : p d = true) : d = c ∨ ¬ r d c := by
  induction l with
  | nil => cases hd
  | cons x l ih =>
    obtain ⟨hx, hl⟩ := List.pairwise_cons.mp h
    by_cases hpx : p x = true
    · rw [List.find?_cons_of_pos hpx, Option.some_inj] at hc
      cases List.mem_cons.mp hd with
      | inl heq => exact .inl (heq.trans hc)
      | inr hmem => exact .inr (hc ▸ hx d hmem)
    · rw [List.find?_cons_of_neg hpx] at hc
      cases List.mem_cons.mp hd with
      | inl heq => exact absurd (heq ▸ hp) hpx
      | inr hmem => exact ih hl hc hmem

/-! ## Sessions -/

/-- The symbol table with its scopes and the cache that it carries. -/
structure Session (α : Type u) where
  graph : Graph α
  scopes : Scopes α
  cache : LinCache α

namespace Session

def table (s : Session α) : SymbolTable α := s.graph.table s.scopes

/-- What the generation does not see. -/
inductive Quiet [Fintype α] : Session α → Session α → Prop
  | enter (s : Session α) (scopes : Scopes α) : Quiet s { s with scopes }
  | alloc (s : Session α) (sym : α) (name : String) (jvmName : Option String)
      (hfresh : s.graph.Fresh s.scopes sym) (hloaded : s.graph.FunctionsLoaded jvmName) :
      Quiet s { s with graph := s.graph.alloc sym name jvmName }
  | query (s : Session α) (cls : α) (hcut : s.table.truncationCount cls [] < 2 ^ 32)
      (hcount : s.table.unresolvedCount cls [] < 2 ^ 32) :
      Quiet s { s with cache := (s.table.linearize s.cache cls).2 }

/-- The sessions that `n` mutations, of any symbols, may lead to. -/
inductive Reached [Fintype α] : ℕ → Session α → Prop
  | start (graph : Graph α) (scopes : Scopes α) (hgen : graph.graphGen = 0) :
      Reached 0 ⟨graph, scopes, ⟨0, fun _ => none⟩⟩
  | mutate {n : ℕ} {s : Session α} (hs : Reached n s) (graph : Graph α)
      (hgen : graph.graphGen = s.graph.graphGen + 1) : Reached (n + 1) { s with graph }
  | quiet {n : ℕ} {s s' : Session α} (hs : Reached n s) (hstep : Quiet s s') : Reached n s'

/-- The cache is right for the table as it is. -/
structure Current [Fintype α] (n : ℕ) (s : Session α) : Prop where
  graphGen : s.graph.graphGen = UInt64.ofNat n
  cacheGen : s.cache.gen ≤ s.table.graphGen
  lasting : s.table.Lasting (s.table.cachedLinearization s.cache)

variable [Fintype α] {n : ℕ} {s s' : Session α}

theorem Quiet.tables (h : Quiet s s') : SymbolTable.Quiet s.table s'.table := by
  cases h with
  | enter scopes => exact SymbolTable.quiet_scopes s.graph s.scopes scopes
  | alloc sym name jvmName hfresh hloaded => exact SymbolTable.quiet_alloc hfresh hloaded
  | query cls => exact ⟨rfl, fun _ _ => rfl, fun _ => rfl⟩

/-- A quiet change that leaves the cache alone leaves it right. -/
theorem Current.unseen (h : Current n s) (hquiet : SymbolTable.Quiet s.table s'.table)
    (hgraph : s'.graph.graphGen = s.graph.graphGen) (hcache : s'.cache = s.cache) :
    Current n s' where
  graphGen := hgraph.trans h.graphGen
  cacheGen := by
    rw [hcache, hquiet.graphGen]
    exact h.cacheGen
  lasting := by
    have hsame : s'.table.cachedLinearization s'.cache = s.table.cachedLinearization s.cache := by
      funext c
      rw [hcache, SymbolTable.cachedLinearization, SymbolTable.cachedLinearization, hquiet.graphGen]
    rw [hsame]
    exact hquiet.lasting h.lasting

theorem Current.quiet (h : Current n s) (hstep : Quiet s s') : Current n s' := by
  have hquiet := hstep.tables
  cases hstep with
  | enter scopes => exact h.unseen hquiet rfl rfl
  | alloc sym name jvmName => exact h.unseen hquiet rfl rfl
  | query cls hcut hcount =>
    exact ⟨h.graphGen, SymbolTable.linearize_gen h.cacheGen cls,
      (SymbolTable.linearize_last h.lasting hcut hcount).1⟩

theorem Current.mutate (h : Current n s) {graph : Graph α} (hn : n + 1 < 2 ^ 64)
    (hgen : graph.graphGen = s.graph.graphGen + 1) : Current (n + 1) { s with graph } := by
  have hgen : graph.graphGen = UInt64.ofNat (n + 1) := by
    rw [hgen, h.graphGen, UInt64.ofNat_add]
    rfl
  have hcache := h.cacheGen
  have hold : s.table.graphGen = n := by
    rw [table, Graph.table, h.graphGen]
    exact UInt64.toNat_ofNat_of_lt' ((Nat.lt_succ_self n).trans hn)
  have hnew : table { s with graph } = graph.table s.scopes := rfl
  have htable : (graph.table s.scopes).graphGen = n + 1 := by
    rw [Graph.table, hgen]
    exact UInt64.toNat_ofNat_of_lt' hn
  refine ⟨hgen, ?_, ?_⟩
  · rw [hnew, htable]
    exact (hold ▸ hcache).trans (Nat.le_succ n)
  · have hne : s.cache.gen ≠ (graph.table s.scopes).graphGen := by omega
    have hnone : ∀ c, (graph.table s.scopes).cachedLinearization s.cache c = none :=
      fun c => if_pos hne
    constructor
    · intro c v hv
      cases (hnone c).symm.trans hv
    · intro c v hv
      cases (hnone c).symm.trans hv

theorem Reached.current (h : Reached n s) (hn : n < 2 ^ 64) : Current n s := by
  induction h with
  | start graph scopes hgen =>
    refine ⟨hgen, Nat.zero_le _, ?_, ?_⟩
    · intro c v hv
      simp [SymbolTable.cachedLinearization] at hv
    · intro c v hv
      simp [SymbolTable.cachedLinearization] at hv
  | mutate hs graph hgen ih => exact (ih (by omega)).mutate hn hgen
  | quiet hs hstep ih => exact (ih hn).quiet hstep

end Session
end ScalaRs.Linearization
