import ScalaRs.LinearizationWalks

/-! # Sequences of linearization queries -/
namespace ScalaRs.Linearization.SymbolTable
open ReplacingConcatenation

universe u

variable {α : Type u} [DecidableEq α] [Fintype α] {st : SymbolTable α} {cache : LinCache α}

omit [DecidableEq α] in
theorem cachedLinearization_publish {entries : Linearizations α} {c : α} {v : List α}
    (h : st.cachedLinearization (st.publishLinearizations cache entries) c = some v) :
    st.cachedLinearization cache c = some v ∨ entries c = some v := by
  rw [publishLinearizations] at h
  split at h
  · exact .inl h
  · simp only [cachedLinearization, ne_eq, not_true_eq_false, if_false] at h ⊢
    split at h
    · exact .inr h
    · rename_i hgen
      rw [if_neg hgen]
      exact Option.or_eq_some_iff.mp h |>.imp id And.right

theorem linearize_spec (hcache : st.Settled (st.cachedLinearization cache)) {cls : α}
    (hcount : st.truncationCount cls [] < 2 ^ 32) :
    (st.linearize cache cls).1 = st.pureLin cls [] ∧
      st.Settled (st.cachedLinearization (st.linearize cache cls).2) := by
  cases hv : st.cachedLinearization cache cls with
  | some v =>
    simp only [linearize, linearizeSettled, hv]
    exact ⟨(hcache cls v hv).2, hcache⟩
  | none =>
    simp only [linearize, linearizeSettled, hv]
    have hlin := lin_spec hcache _ rfl cls ⟨fun _ => none, 0, 0⟩ (by simp [Settled])
      (by simp [Chain]) hcount
    refine ⟨(List.cons.inj hlin.answer).1, fun c v hv => ?_⟩
    rcases cachedLinearization_publish hv with hv | hv
    · exact hcache c v hv
    · exact hlin.settled c v hv

theorem linearizeQueries_spec {queries : List α} (hcount : ∀ c ∈ queries, st.truncationCount c [] < 2 ^ 32)
    (hcache : st.Settled (st.cachedLinearization cache)) :
    (st.linearizeQueries cache queries).1 = queries.map (fun c => st.pureLin c []) ∧
      st.Settled (st.cachedLinearization (st.linearizeQueries cache queries).2) := by
  induction queries generalizing cache with
  | nil => exact ⟨rfl, hcache⟩
  | cons c queries ih =>
    have hc := linearize_spec hcache (hcount c (by simp))
    have hrest := ih (fun d hd => hcount d (by simp [hd])) hc.2
    exact ⟨congrArg₂ List.cons hc.1 hrest.1, hrest.2⟩

/-! ## Acyclic hierarchies -/

theorem pureLin_acyclic (cls : α) (path : List α) (h : st.truncationCount cls path = 0) :
    (∀ x, x ∈ st.pureLin cls path ↔ st.Reachable cls x) ∧
      Ordered st.Ancestor (st.pureLin cls path) := by
  induction cls, path using truncationCount.induct with
  | case1 cls path hmem => simp [truncationCount_mem hmem] at h
  | case2 cls path hmem ih =>
    obtain ⟨hacyclic, -⟩ := (truncationCount_eq_zero cls path).mp h
    rw [truncationCount_notMem hmem, List.sum_eq_zero_iff] at h
    have hparent := fun p hp => ih p (h _ (List.mem_map_of_mem hp))
    have hfold : ∀ x, x ∈ foldReplacing ((st.parentsOf cls).map fun p =>
        st.pureLin p (path ++ [cls])) ↔ st.Ancestor cls x := by
      intro x
      simp only [mem_foldReplacing, List.mem_map, exists_exists_and_eq_and, ancestor_iff]
      exact exists_congr fun p => and_congr_right fun hp => (hparent p hp).1 x
    have hclosed : ∀ l ∈ (st.parentsOf cls).map (fun p => st.pureLin p (path ++ [cls])),
        Closed st.Ancestor l := by
      simp only [List.forall_mem_map]
      intro p hp x hx y hxy
      rw [(hparent p hp).1] at hx ⊢
      exact hx.trans hxy.to_reflTransGen
    have hordered := ordered_foldReplacing hclosed
      (by simpa only [List.forall_mem_map] using fun p hp => (hparent p hp).2)
    rw [pureLin_notMem hmem, headed]
    constructor
    · intro x
      rw [List.mem_cons, List.mem_filter, hfold, reachable_iff, ← ancestor_iff, decide_eq_true_eq]
      tauto
    · apply List.pairwise_cons.mpr ⟨?_, hordered.2.sublist List.filter_sublist⟩
      intro x hx hcycle
      have hx := (hfold x).mp (List.mem_filter.mp hx).1
      exact hacyclic cls .refl (hx.trans hcycle)

/-- Nothing was published since the last mutation. -/
def Unpublished (st : SymbolTable α) (cache : LinCache α) : Prop :=
  ∀ c, st.cachedLinearization cache c = none

theorem Unpublished.settled (h : st.Unpublished cache) :
    st.Settled (st.cachedLinearization cache) := by
  intro c v hv
  rw [h c] at hv
  exact absurd hv (by simp)

/-- In an acyclic hierarchy a linearization starts with its class, lists exactly
the classes reachable through parents, each once, and lists every class before
its own proper ancestors, whatever was asked before. -/
theorem linearize_acyclic (st : SymbolTable α) (hst : st.Acyclic) (cache : LinCache α)
    (hcache : st.Unpublished cache) (earlier : List α) (cls : α) :
    let answer := (st.linearize (st.linearizeQueries cache earlier).2 cls).1
    answer.head? = some cls ∧ (∀ x, x ∈ answer ↔ st.Reachable cls x) ∧ answer.Nodup ∧
      ∀ x ∈ answer, ∀ y, st.Ancestor x y → answer.idxOf x < answer.idxOf y := by
  have hzero : ∀ c, st.truncationCount c [] = 0 := fun c =>
    Chain.truncationCount_eq_zero (by simp [Chain]) (hst.from c)
  have hcount : ∀ c, st.truncationCount c [] < 2 ^ 32 := fun c => by simp [hzero c]
  have hearlier := linearizeQueries_spec (fun c (_ : c ∈ earlier) => hcount c) hcache.settled
  have hanswer := (linearize_spec hearlier.2 (hcount cls)).1
  obtain ⟨hmem, hordered⟩ := pureLin_acyclic cls [] (hzero cls)
  simp only [hanswer]
  refine ⟨(pureLin_spec cls []).1, hmem, (pureLin_spec cls []).2, fun x hx y hxy => ?_⟩
  have hy : y ∈ st.pureLin cls [] := (hmem y).mpr (((hmem x).mp hx).trans hxy.to_reflTransGen)
  apply idxOf_lt_of_ordered hordered hx hy hxy
  rintro rfl
  exact hst x hxy

theorem linearize_acyclic_example :
    let st : SymbolTable (Fin 4) := ofParents fun c => match c with
      | 3 => [1, 2] | 2 => [0] | 1 => [0] | _ => []
    let answer := (st.linearize (st.linearizeQueries ⟨0, fun _ => none⟩ [2, 0]).2 3).1
    answer.head? = some 3 ∧ (∀ x, x ∈ answer ↔ st.Reachable 3 x) ∧ answer.Nodup ∧
      ∀ x ∈ answer, ∀ y, st.Ancestor x y → answer.idxOf x < answer.idxOf y := by
  apply linearize_acyclic
  · apply acyclic_of_rank Fin.val
    intro c p hp
    rw [parentsOf_ofParents] at hp
    revert p
    revert c
    decide
  · intro c
    rfl

/-- Queries answer as walks with an empty memo and an empty cache do, without
repetition and with the queried class first, and publish only classes from which
no cycle is reachable, as long as no walk truncates `2 ^ 32` times. -/
theorem linearizeQueries_correct (st : SymbolTable α) (cache : LinCache α)
    (hcache : st.Unpublished cache) (queries : List α)
    (hcount : ∀ c ∈ queries, st.truncationCount c [] < 2 ^ 32) :
    let answers := (st.linearizeQueries cache queries).1
    let after := (st.linearizeQueries cache queries).2
    answers = queries.map (fun c => (st.lin ⟨st.graphGen, fun _ => none⟩ c []
      ⟨fun _ => none, 0, 0⟩).1) ∧
    answers = queries.map (fun c => st.pureLin c []) ∧
    (∀ c ∈ queries, (st.pureLin c []).head? = some c ∧ (st.pureLin c []).Nodup) ∧
    ∀ c v, st.cachedLinearization after c = some v → st.AcyclicFrom c := by
  have hspec := linearizeQueries_spec hcount hcache.settled
  refine ⟨?_, hspec.1, fun c _ => pureLin_spec c [], fun c v hv => (hspec.2 c v hv).1⟩
  rw [hspec.1]
  apply List.map_congr_left
  intro c hc
  have hempty : st.Settled (st.cachedLinearization ⟨st.graphGen, fun _ => none⟩) := by
    simp [Settled, cachedLinearization]
  have hlin := lin_spec hempty _ rfl c ⟨fun _ => none, 0, 0⟩ (by simp [Settled])
    (by simp [Chain]) (hcount c hc)
  exact (List.cons.inj hlin.answer).1.symm

/-- `X extends Y with Z`, `Y extends Z`, `Z extends X`. -/
theorem linearizeQueries_correct_example :
    let st : SymbolTable (Fin 3) := ofParents fun c => match c with
      | 0 => [1, 2] | 1 => [2] | 2 => [0]
    let cache : LinCache (Fin 3) := ⟨0, fun _ => none⟩
    let answers := (st.linearizeQueries cache [0, 2, 0]).1
    let after := (st.linearizeQueries cache [0, 2, 0]).2
    answers = [0, 2, 0].map (fun c => (st.lin ⟨0, fun _ => none⟩ c [] ⟨fun _ => none, 0, 0⟩).1) ∧
    answers = [0, 2, 0].map (fun c => st.pureLin c []) ∧
    (∀ c ∈ [0, 2, 0], (st.pureLin c []).head? = some c ∧ (st.pureLin c []).Nodup) ∧
    ∀ c v, st.cachedLinearization after c = some v → st.AcyclicFrom c := by
  apply linearizeQueries_correct
  · intro c
    rfl
  · intro c hc
    simp only [List.mem_cons, List.not_mem_nil, or_false] at hc
    rcases hc with rfl | rfl | rfl <;>
      simp [truncationCount_notMem, truncationCount_mem, parentsOf_ofParents]

end ScalaRs.Linearization.SymbolTable
