import ScalaRs.SignatureQueries
import ScalaRs.ReplacingConcatenation
import Mathlib.Logic.Relation

/-! # Linearizing class signatures

A walk that no limit cuts lists the classes reachable through parents that name a
class. Positions are those of concatenation that replaces. Substitutions are those
of the path that takes, at every class, the last parent that leads on. -/
namespace ScalaRs.Signatures
open MonadicRelations ReplacingConcatenation

/-- What a type's reference to a class names, with the arguments it passes. -/
def parentRef : SigType → Option (String × List SigType)
  | .Ref sym args => if isDotted (parentName sym) then some (parentName sym, args) else none
  | _ => none

/-- Which signature each class has. -/
abbrev ClassTable := ClassKey → Except LoadError ClassSig

def tableOf (src : ClassSource) : ClassTable := fun q => answer src q.1 q.2

namespace ClassTable

variable (g : ClassTable)

/-- The declared parents that name a class. -/
def parentRefs (c : ClassKey) : List (String × List SigType) :=
  match g c with
  | .ok sig => sig.parents.filterMap parentRef
  | .error _ => []

def parents (c : ClassKey) : List ClassKey := (g.parentRefs c).map fun p => (p.1, false)

def Reachable : ClassKey → ClassKey → Prop := Relation.ReflTransGen fun c p => p ∈ g.parents c

def Ancestor : ClassKey → ClassKey → Prop := Relation.TransGen fun c p => p ∈ g.parents c

/-- The substitution a parent is seen through, from the one its child is. -/
def passed (src : ClassSource) (subst : Subst) (p : String × List SigType) : Subst :=
  match g (p.1, false) with
  | .ok psig => bindings psig.tparams (p.2.map fun a => src.applySubst a subst)
  | .error _ => emptySubst

/-- `LastPath target c σ τ`: the path from `c` that takes at every class the last
parent from which `target` is reachable turns `σ` into `τ`. -/
inductive LastPath (src : ClassSource) (target : ClassKey) : ClassKey → Subst → Subst → Prop
  | here (σ : Subst) : LastPath src target target σ σ
  | step {c : ClassKey} {σ τ : Subst} {before after : List (String × List SigType)}
      {p : String × List SigType} (hne : c ≠ target)
      (hparents : g.parentRefs c = before ++ p :: after)
      (hreach : g.Reachable (p.1, false) target)
      (hlast : ∀ q ∈ after, ¬ g.Reachable (q.1, false) target)
      (hrest : LastPath src target (p.1, false) (g.passed src σ p) τ) : LastPath src target c σ τ

end ClassTable

/-- `L(c) = c, L(pn) +: … +: L(p1)` for the parents `p1`, …, `pn` of `c`. -/
inductive Linearizes {α : Type} [DecidableEq α] (parents : α → List α) : α → List α → Prop
  | intro (c : α) (ls : List (List α))
      (h : List.Forall₂ (Linearizes parents) (parents c) ls) :
      Linearizes parents c (c :: foldReplacing ls)

/-! ## Merging the parents' steps -/

theorem key_takeOver (plin : List LinStep) (existing : LinStep) :
    (takeOver plin existing).key = existing.key := by
  unfold takeOver
  split <;> rfl

theorem map_key_takeOver (plin acc : List LinStep) :
    (acc.map (takeOver plin)).map LinStep.key = acc.map LinStep.key := by
  rw [List.map_map]
  apply List.map_congr_left
  intro existing _
  exact key_takeOver plin existing

theorem map_key_mergeParent (plin acc : List LinStep) :
    (mergeParent plin acc).map LinStep.key =
      prependReplacing (plin.map LinStep.key) (acc.map LinStep.key) := by
  rw [mergeParent, List.map_append, map_key_takeOver, prependReplacing, List.filter_map]
  simp [Function.comp_def]

/-- A step of the merged list comes with the later parent's substitution, if that
parent has a step for its class. -/
theorem mem_mergeParent {plin acc : List LinStep} {s : LinStep} (h : s ∈ mergeParent plin acc) :
    (∃ t ∈ plin, t.key = s.key ∧ t.subst = s.subst) ∨
      (s ∈ acc ∧ s.key ∉ plin.map LinStep.key) := by
  rcases List.mem_append.mp h with h | h
  · exact Or.inl ⟨s, (List.mem_filter.mp h).1, rfl, rfl⟩
  · obtain ⟨existing, hmem, rfl⟩ := List.mem_map.mp h
    rw [key_takeOver]
    cases hfind : plin.find? fun e => e.key = existing.key with
    | some later =>
      have hkey : later.key = existing.key := by simpa using List.find?_some hfind
      refine Or.inl ⟨later, List.mem_of_find?_eq_some hfind, hkey, ?_⟩
      rw [takeOver, hfind]
    | none =>
      have hsame : takeOver plin existing = existing := by rw [takeOver, hfind]
      rw [hsame]
      refine Or.inr ⟨hmem, ?_⟩
      intro hkey
      obtain ⟨e, he, hek⟩ := List.mem_map.mp hkey
      exact List.find?_eq_none.mp hfind e he (decide_eq_true hek)

/-- The steps of the parents, the last parent's taking over. -/
def mergeAll {β : Type} (visits : List (β × List LinStep)) : List LinStep :=
  visits.foldl (fun acc v => mergeParent v.2 acc) []

theorem mergeAll_concat {β : Type} (visits : List (β × List LinStep)) (v : β × List LinStep) :
    mergeAll (visits ++ [v]) = mergeParent v.2 (mergeAll visits) := by
  simp [mergeAll]

theorem map_key_mergeAll {β : Type} (visits : List (β × List LinStep)) :
    (mergeAll visits).map LinStep.key =
      foldReplacing (visits.map fun v => v.2.map LinStep.key) := by
  induction visits using List.reverseRecOn with
  | nil => rfl
  | append_singleton visits v ih =>
    rw [mergeAll_concat, map_key_mergeParent, ih, List.map_append, List.map_singleton,
      foldReplacing_concat]

/-- A merged step has the substitution of the last parent that has its class. -/
theorem mem_mergeAll {β : Type} {visits : List (β × List LinStep)} {s : LinStep}
    (h : s ∈ mergeAll visits) :
    ∃ before v after, visits = before ++ v :: after ∧
      (∃ t ∈ v.2, t.key = s.key ∧ t.subst = s.subst) ∧
      ∀ w ∈ after, s.key ∉ w.2.map LinStep.key := by
  induction visits using List.reverseRecOn with
  | nil => exact absurd h List.not_mem_nil
  | append_singleton visits v ih =>
    rw [mergeAll_concat] at h
    rcases mem_mergeParent h with hlater | ⟨hacc, habsent⟩
    · exact ⟨visits, v, [], rfl, hlater, by simp⟩
    · obtain ⟨before, w, after, rfl, hw, hafter⟩ := ih hacc
      refine ⟨before, w, after ++ [v], by simp, hw, ?_⟩
      intro x hx
      rcases List.mem_append.mp hx with hx | hx
      · exact hafter x hx
      · rw [List.mem_singleton.mp hx]
        exact habsent

theorem dropSeen_eq_self {acc : List LinStep} {seen : List ClassKey}
    (hnodup : (acc.map LinStep.key).Nodup) (hseen : ∀ e ∈ acc, e.key ∉ seen) :
    dropSeen seen acc = acc := by
  induction acc generalizing seen with
  | nil => rfl
  | cons e acc ih =>
    rw [List.map_cons, List.nodup_cons] at hnodup
    rw [dropSeen, if_neg (hseen e List.mem_cons_self), ih hnodup.2]
    intro f hf hmem
    rcases List.mem_append.mp hmem with hmem | hmem
    · exact hseen f (List.mem_cons_of_mem _ hf) hmem
    · rw [← List.mem_singleton.mp hmem] at hnodup
      exact hnodup.1 (List.mem_map_of_mem hf)

/-! ## Walks that no limit cuts -/

namespace ClassTable

variable (g : ClassTable)

/-- Every chain of parents from a class has fewer than `n` links. -/
def Height : ℕ → ClassKey → Prop
  | 0, _ => False
  | n + 1, c => ∀ p ∈ g.parents c, Height n p

variable {g}

theorem Height.not_ancestor_self {n : ℕ} {c : ClassKey} (h : g.Height n c) :
    ¬ g.Ancestor c c := by
  induction n generalizing c with
  | zero => exact h.elim
  | succ n ih =>
    intro hcycle
    obtain ⟨p, hp, hpc⟩ := Relation.TransGen.head'_iff.mp hcycle
    exact ih (h p hp) (Relation.TransGen.tail' hpc hp)

theorem Height.reachable {n : ℕ} {c d : ClassKey} (h : g.Height n c) (hcd : g.Reachable c d) :
    ∃ m, g.Height m d := by
  induction hcd with
  | refl => exact ⟨n, h⟩
  | tail _ hp ih =>
    obtain ⟨m, hm⟩ := ih
    cases m with
    | zero => exact hm.elim
    | succ m => exact ⟨m, hm _ hp⟩

theorem Height.acyclic {n : ℕ} {c d : ClassKey} (h : g.Height n c) (hcd : g.Reachable c d) :
    ¬ g.Ancestor d d := by
  obtain ⟨m, hm⟩ := h.reachable hcd
  exact hm.not_ancestor_self

theorem reachable_iff {c d : ClassKey} :
    g.Reachable c d ↔ d = c ∨ ∃ p ∈ g.parents c, g.Reachable p d := by
  constructor
  · intro h
    rcases Relation.ReflTransGen.cases_head h with rfl | ⟨p, hp, hpd⟩
    · exact Or.inl rfl
    · exact Or.inr ⟨p, hp, hpd⟩
  · intro h
    rcases h with rfl | ⟨p, hp, hpd⟩
    · exact Relation.ReflTransGen.refl
    · exact Relation.ReflTransGen.head hp hpd

/-- What the steps of a walk from `c` are. -/
structure Steps (g : ClassTable) (src : ClassSource) (c : ClassKey) (subst : Subst)
    (steps : List LinStep) : Prop where
  lin : Linearizes g.parents c (steps.map LinStep.key)
  nodup : (steps.map LinStep.key).Nodup
  mem : ∀ d, d ∈ steps.map LinStep.key ↔ g.Reachable c d
  ordered : Ordered g.Ancestor (steps.map LinStep.key)
  subst : ∀ s ∈ steps, g.LastPath src s.key c subst s.subst

theorem Steps.closed {src : ClassSource} {c : ClassKey} {subst : Subst} {steps : List LinStep}
    (h : g.Steps src c subst steps) : Closed g.Ancestor (steps.map LinStep.key) := by
  intro x hx y hxy
  rw [h.mem] at hx ⊢
  exact hx.trans hxy.to_reflTransGen

/-- The steps of a class from those of its parents. -/
theorem Steps.cons {src : ClassSource} {className : String} {module : Bool} {subst : Subst}
    {visits : List ((String × List SigType) × List LinStep)}
    (hrefs : visits.map Prod.fst = g.parentRefs (className, module))
    (hvisits : ∀ v ∈ visits, g.Steps src (v.1.1, false) (g.passed src subst v.1) v.2)
    (hacyclic : ¬ g.Ancestor (className, module) (className, module)) :
    g.Steps src (className, module) subst
      (⟨className, module, subst⟩ :: dropSeen [(className, module)] (mergeAll visits)) := by
  have hparents : g.parents (className, module) = visits.map fun v => (v.1.1, false) := by
    rw [parents, ← hrefs, List.map_map]
    rfl
  have hmem : ∀ d, d ∈ (mergeAll visits).map LinStep.key ↔
      ∃ p ∈ g.parents (className, module), g.Reachable p d := by
    intro d
    rw [map_key_mergeAll, mem_foldReplacing, hparents]
    constructor
    · intro ⟨l, hl, hd⟩
      obtain ⟨v, hv, rfl⟩ := List.mem_map.mp hl
      exact ⟨_, List.mem_map_of_mem hv, ((hvisits v hv).mem d).mp hd⟩
    · intro ⟨p, hp, hpd⟩
      obtain ⟨v, hv, rfl⟩ := List.mem_map.mp hp
      exact ⟨_, List.mem_map_of_mem hv, ((hvisits v hv).mem d).mpr hpd⟩
  have hself : ∀ e ∈ mergeAll visits, e.key ≠ (className, module) := by
    intro e he hkey
    obtain ⟨p, hp, hpc⟩ := (hmem e.key).mp (List.mem_map_of_mem he)
    rw [hkey] at hpc
    exact hacyclic (Relation.TransGen.head' hp hpc)
  have hnodup : ((mergeAll visits).map LinStep.key).Nodup := by
    rw [map_key_mergeAll]
    apply nodup_foldReplacing
    intro l hl
    obtain ⟨v, hv, rfl⟩ := List.mem_map.mp hl
    exact (hvisits v hv).nodup
  have hrest : dropSeen [(className, module)] (mergeAll visits) = mergeAll visits := by
    apply dropSeen_eq_self hnodup
    intro e he hin
    exact hself e he (List.mem_singleton.mp hin)
  rw [hrest]
  have hordered : Ordered g.Ancestor ((mergeAll visits).map LinStep.key) := by
    rw [map_key_mergeAll]
    apply (ordered_foldReplacing _ _).2
    · intro l hl
      obtain ⟨v, hv, rfl⟩ := List.mem_map.mp hl
      exact (hvisits v hv).closed
    · intro l hl
      obtain ⟨v, hv, rfl⟩ := List.mem_map.mp hl
      exact (hvisits v hv).ordered
  refine ⟨?_, ?_, ?_, ?_, ?_⟩
  · rw [List.map_cons, map_key_mergeAll]
    apply Linearizes.intro
    rw [hparents, List.forall₂_map_left_iff, List.forall₂_map_right_iff, List.forall₂_same]
    intro v hv
    exact (hvisits v hv).lin
  · rw [List.map_cons, List.nodup_cons]
    refine ⟨?_, hnodup⟩
    intro hin
    obtain ⟨e, he, hkey⟩ := List.mem_map.mp hin
    exact hself e he hkey
  · intro d
    rw [List.map_cons, List.mem_cons, hmem, reachable_iff]
    rfl
  · rw [List.map_cons]
    apply List.pairwise_cons.mpr ⟨?_, hordered⟩
    intro d hd hcycle
    obtain ⟨p, hp, hpd⟩ := (hmem d).mp hd
    exact hacyclic (Relation.TransGen.trans_right (Relation.ReflTransGen.head hp hpd) hcycle)
  · intro s hs
    rcases List.mem_cons.mp hs with rfl | hs
    · exact LastPath.here subst
    · obtain ⟨before, v, after, rfl, ⟨t, ht, htkey, htsubst⟩, hafter⟩ := mem_mergeAll hs
      have hv := hvisits v (by simp)
      have hpath := hv.subst t ht
      rw [htkey, htsubst] at hpath
      have hbefore : g.parentRefs (className, module) =
          before.map Prod.fst ++ v.1 :: after.map Prod.fst := by
        rw [← hrefs, List.map_append, List.map_cons]
      apply LastPath.step (Ne.symm (hself s hs)) hbefore _ _ hpath
      · rw [← hv.mem, ← htkey]
        exact List.mem_map_of_mem ht
      · intro q hq hreach
        obtain ⟨w, hw, rfl⟩ := List.mem_map.mp hq
        exact hafter w hw (((hvisits w (by simp [hw])).mem s.key).mpr hreach)

/-- The walk that asks the table. -/
def walk (g : ClassTable) (src : ClassSource) (room : ℕ) (className : String) (module : Bool)
    (subst : Subst) (w : LinWalk) : List LinStep × LinWalk :=
  linOf (m := Id) src (fun name module => g (name, module)) room className module subst w

/-- One parent of the walk that asks the table. -/
def walkParent (g : ClassTable) (src : ClassSource) (room : ℕ) (subst : Subst)
    (acc : List LinStep × LinWalk) (p : SigType) : List LinStep × LinWalk :=
  addParent (m := Id) src (fun name module => g (name, module))
    (fun sym next w => g.walk src room sym false next w) subst acc p

variable {src : ClassSource} {room : ℕ} {subst : Subst} {w : LinWalk}

theorem walkParent_ref {acc : List LinStep} {p : SigType} {r : String × List SigType}
    (hr : parentRef p = some r) :
    g.walkParent src room subst (acc, w) p =
      (mergeParent (g.walk src room r.1 false (g.passed src subst r) w).1 acc,
        (g.walk src room r.1 false (g.passed src subst r) w).2) := by
  cases p <;> try cases hr
  next sym args =>
    rw [parentRef] at hr
    by_cases h : isDotted (parentName sym) = true
    · rw [if_pos h] at hr
      rw [← Option.some.inj hr, walkParent, addParent, if_pos h]
      rfl
    · rw [if_neg h] at hr
      cases hr

theorem walkParent_other {acc : List LinStep × LinWalk} {p : SigType} (hr : parentRef p = none) :
    g.walkParent src room subst acc p = acc := by
  cases p <;> try rfl
  next sym args =>
    rw [parentRef] at hr
    by_cases h : isDotted (parentName sym) = true
    · rw [if_pos h] at hr
      cases hr
    · rw [walkParent, addParent, if_neg h]
      rfl

theorem walk_exhausted {className : String} {module : Bool} (h : w.budget = 0) :
    g.walk src (room + 1) className module subst w =
      ([⟨className, module, subst⟩], { w with cut := true }) := by
  rw [walk, linOf, if_pos h]
  rfl

theorem walk_error {className : String} {module : Bool} (h : w.budget ≠ 0) {e : LoadError}
    (hg : g (className, module) = .error e) :
    g.walk src (room + 1) className module subst w =
      ([⟨className, module, subst⟩],
        { w with budget := w.budget - 1, errs := w.errs ++ [e] }) := by
  rw [walk, linOf, if_neg h, hg]
  rfl

theorem walk_ok {className : String} {module : Bool} (h : w.budget ≠ 0) {sig : ClassSig}
    (hg : g (className, module) = .ok sig) :
    g.walk src (room + 1) className module subst w =
      let parents := sig.parents.foldl (g.walkParent src room subst)
        ([], { w with budget := w.budget - 1 })
      (⟨className, module, subst⟩ :: dropSeen [(className, module)] parents.1, parents.2) := by
  have hfold : ∀ acc, sig.parents.foldlM (m := Id)
      (addParent src (fun name module => g (name, module))
        (fun sym next w => linOf src (fun name module => g (name, module)) room sym false next w)
        subst) acc = sig.parents.foldl (g.walkParent src room subst) acc := by
    intro acc
    induction sig.parents generalizing acc with
    | nil => rfl
    | cons p parents ih =>
      rw [List.foldlM_cons, List.foldl_cons, ← ih]
      rfl
  rw [walk, linOf, if_neg h, hg]
  simp only [← hfold]
  rfl

/-- What a walk that no limit has cut tells. -/
structure Uncut (g : ClassTable) (src : ClassSource) (room : ℕ) (c : ClassKey) (subst : Subst)
    (w : LinWalk) (result : List LinStep × LinWalk) : Prop where
  start : w.cut = false
  height : g.Height room c
  steps : g.Steps src c subst result.1

theorem foldl_walkParent
    (hwalk : ∀ name next w, (g.walk src room name false next w).2.cut = false →
      g.Uncut src room (name, false) next w (g.walk src room name false next w))
    (parents : List SigType) (acc : List LinStep) (w : LinWalk)
    (hcut : (parents.foldl (g.walkParent src room subst) (acc, w)).2.cut = false) :
    w.cut = false ∧ ∃ visits : List ((String × List SigType) × List LinStep),
      visits.map Prod.fst = parents.filterMap parentRef ∧
      (∀ v ∈ visits, g.Height room (v.1.1, false) ∧
        g.Steps src (v.1.1, false) (g.passed src subst v.1) v.2) ∧
      (parents.foldl (g.walkParent src room subst) (acc, w)).1 =
        visits.foldl (fun acc v => mergeParent v.2 acc) acc := by
  induction parents generalizing acc w with
  | nil => exact ⟨hcut, [], rfl, by simp, rfl⟩
  | cons p parents ih =>
    rw [List.foldl_cons] at hcut ⊢
    cases hr : parentRef p with
    | none =>
      rw [walkParent_other hr] at hcut ⊢
      rw [List.filterMap_cons_none hr]
      exact ih acc w hcut
    | some r =>
      rw [walkParent_ref hr] at hcut ⊢
      obtain ⟨hcut', visits, hrefs, hvisits, hacc⟩ := ih _ _ hcut
      have hvisit := hwalk _ _ _ hcut'
      refine ⟨hvisit.start, (r, (g.walk src room r.1 false (g.passed src subst r) w).1) :: visits,
        ?_, ?_, hacc⟩
      · rw [List.filterMap_cons_some hr, List.map_cons, hrefs]
      · intro v hv
        rcases List.mem_cons.mp hv with rfl | hv
        · exact ⟨hvisit.height, hvisit.steps⟩
        · exact hvisits v hv

/-- A walk that no limit has cut lists the classes reachable from where it starts. -/
theorem walk_uncut (room : ℕ) (className : String) (module : Bool) (subst : Subst) (w : LinWalk)
    (hcut : (g.walk src room className module subst w).2.cut = false) :
    g.Uncut src room (className, module) subst w (g.walk src room className module subst w) := by
  induction room generalizing className module subst w with
  | zero => cases hcut
  | succ room ih =>
    by_cases h : w.budget = 0
    · rw [walk_exhausted h] at hcut
      cases hcut
    · cases hg : g (className, module) with
      | error e =>
        rw [walk_error h hg] at hcut ⊢
        have hrefs : g.parentRefs (className, module) = [] := by rw [parentRefs, hg]
        have hheight : g.Height (room + 1) (className, module) := by
          intro p hp
          rw [parents, hrefs] at hp
          cases hp
        have hnone : ([] : List ((String × List SigType) × List LinStep)).map Prod.fst =
            g.parentRefs (className, module) :=
          hrefs.symm
        exact ⟨hcut, hheight, Steps.cons hnone (by simp) hheight.not_ancestor_self⟩
      | ok sig =>
        rw [walk_ok h hg] at hcut ⊢
        obtain ⟨hstart, visits, hrefs, hvisits, hacc⟩ :=
          foldl_walkParent (fun name next w => ih name false next w) sig.parents _ _ hcut
        have hparents : visits.map Prod.fst = g.parentRefs (className, module) := by
          rw [parentRefs, hg, hrefs]
        have hheight : g.Height (room + 1) (className, module) := by
          intro p hp
          rw [parents, ← hparents, List.map_map] at hp
          obtain ⟨v, hv, rfl⟩ := List.mem_map.mp hp
          exact (hvisits v hv).1
        refine ⟨hstart, hheight, ?_⟩
        simp only [hacc]
        exact Steps.cons hparents (fun v hv => (hvisits v hv).2) hheight.not_ancestor_self

/-- Walks over tables that agree on the reachable classes are the same. -/
theorem walk_congr {g' : ClassTable} (room : ℕ) (className : String) (module : Bool)
    (subst : Subst) (w : LinWalk)
    (h : ∀ d, g.Reachable (className, module) d → g d = g' d) :
    g.walk src room className module subst w = g'.walk src room className module subst w := by
  induction room generalizing className module subst w with
  | zero => rfl
  | succ room ih =>
    have hroot := h _ Relation.ReflTransGen.refl
    by_cases hbudget : w.budget = 0
    · rw [walk_exhausted hbudget, walk_exhausted hbudget]
    · cases hg : g (className, module) with
      | error e => rw [walk_error hbudget hg, walk_error hbudget (hroot.symm.trans hg)]
      | ok sig =>
        have hparent : ∀ acc, ∀ p ∈ sig.parents,
            g.walkParent src room subst acc p = g'.walkParent src room subst acc p := by
          intro acc p hp
          cases hr : parentRef p with
          | none => rw [walkParent_other hr, walkParent_other hr]
          | some r =>
            have hmem : (r.1, false) ∈ g.parents (className, module) := by
              rw [parents, parentRefs, hg]
              exact List.mem_map_of_mem (List.mem_filterMap.mpr ⟨p, hp, hr⟩)
            have hreach : ∀ d, g.Reachable (r.1, false) d → g d = g' d :=
              fun d hd => h d (Relation.ReflTransGen.head hmem hd)
            have hpassed : g.passed src subst r = g'.passed src subst r := by
              rw [passed, passed, hreach _ Relation.ReflTransGen.refl]
            rw [walkParent_ref hr, walkParent_ref hr, hpassed, ih _ _ _ _ hreach]
        rw [walk_ok hbudget hg, walk_ok hbudget (hroot.symm.trans hg),
          List.foldl_ext _ _ _ hparent]

end ClassTable

/-! ## The walk through a fresh cache -/

section Cached

variable (src : ClassSource) (fullName : String) (module : Bool)

/-- What a cache answers that was asked for a class first: after a module, the
class with the module's key is answered with the module. -/
def seededTable : ClassTable := fun q =>
  if module = true ∧ q = (fullName ++ "$", false) then answer src fullName true
  else answer src q.1 q.2

/-- What a cache holds once it was asked for the class. -/
structure Seeded (c : SigCache) : Prop where
  files : c.files.Sound src
  cache : ∀ key got, c.cache key = some got →
    got.map Rc.val = seededTable src fullName module (key, false)
  root : module = true → (c.cache (fullName ++ "$")).isSome

def seededRel : MonadRel (StateM SigCache) Id where
  Rel x z := ∀ c : SigCache, Seeded src fullName module c →
    (x c).1 = z ∧ Seeded src fullName module (x c).2
  pure a := fun c hc => ⟨rfl, hc⟩
  bind := by
    intro α β x y f g hxy hfg c hc
    obtain ⟨hvalue, hc'⟩ := hxy c hc
    have hnext := hfg (x c).1 (x c).2 hc'
    rw [SigCache.run_bind]
    rw [hvalue] at hnext ⊢
    exact hnext

variable {src fullName module}

theorem sigOf_hit {c : SigCache} {name : String} {isModule : Bool} {got : Except LoadError Rc}
    (hit : c.cache (SigCache.cacheKey name isModule) = some got) :
    SigCache.sigOf src name isModule c = (got.map Rc.val, c) := by
  rw [SigCache.sigOf, SigCache.classSig, hit]

theorem sigOf_miss {c : SigCache} {name : String} {isModule : Bool}
    (miss : c.cache (SigCache.cacheKey name isModule) = none) (hc : c.files.Sound src) :
    ∃ got files, files.Sound src ∧ got.map Rc.val = answer src name isModule ∧
      SigCache.sigOf src name isModule c = (answer src name isModule, { c with
        files := files,
        cache := Function.update c.cache (SigCache.cacheKey name isModule) (some got) }) := by
  rcases hload : load src name isModule c.files with ⟨got, files⟩
  obtain ⟨hfiles, -, hgot, -⟩ := loadFrom_sound _ _ _ hc hload
  refine ⟨got, files, hfiles, hgot, ?_⟩
  rw [SigCache.sigOf, SigCache.classSig, miss, hload]
  exact congrArg (·, _) hgot

theorem Seeded.insert {c : SigCache} (hc : Seeded src fullName module c) {files : Files}
    (hfiles : files.Sound src) {key : String} {got : Except LoadError Rc}
    (hgot : got.map Rc.val = seededTable src fullName module (key, false)) :
    Seeded src fullName module
      { c with files := files, cache := Function.update c.cache key (some got) } := by
  refine ⟨hfiles, ?_, ?_⟩
  · intro k r hr
    by_cases hk : k = key
    · subst hk
      simp only [Function.update_self, Option.some.injEq] at hr
      rw [← hr]
      exact hgot
    · simp only [Function.update_of_ne hk] at hr
      exact hc.cache k r hr
  · intro hm
    by_cases hk : fullName ++ "$" = key
    · simp [hk]
    · simp only [Function.update_of_ne hk]
      exact hc.root hm

theorem sigOf_seeded (name : String) :
    (seededRel src fullName module).Rel (SigCache.sigOf src name false)
      (seededTable src fullName module (name, false)) := by
  intro c hc
  cases hit : c.cache (SigCache.cacheKey name false) with
  | some got =>
    rw [sigOf_hit hit]
    exact ⟨hc.cache name got hit, hc⟩
  | none =>
    obtain ⟨got, files, hfiles, hgot, hrun⟩ := sigOf_miss hit hc.files
    have hanswer : seededTable src fullName module (name, false) = answer src name false := by
      rw [seededTable, if_neg]
      intro ⟨hm, hname⟩
      have hsome := hc.root hm
      rw [← (Prod.mk.inj hname).1, show c.cache name = none from hit] at hsome
      cases hsome
    rw [hrun]
    exact ⟨hanswer.symm, hc.insert hfiles (hgot.trans hanswer.symm)⟩

theorem seededTable_root :
    seededTable src fullName module (fullName, module) = answer src fullName module := by
  rw [seededTable, if_neg]
  intro ⟨hm, hname⟩
  rw [hm] at hname
  cases (Prod.mk.inj hname).2

theorem seededTable_clash :
    seededTable src fullName true (fullName ++ "$", false) = answer src fullName true := by
  rw [seededTable, if_pos ⟨rfl, rfl⟩]

/-- The first question puts a fresh cache into the state the walk goes on from. -/
theorem sigOf_fresh :
    ∃ c, SigCache.sigOf src fullName module SigCache.new =
        (answer src fullName module, c) ∧
      SigCache.sigOf src fullName module c = (answer src fullName module, c) ∧
      Seeded src fullName module c := by
  have hmiss : SigCache.new.cache (SigCache.cacheKey fullName module) = none := rfl
  have hempty : SigCache.new.files.Sound src := fun _ _ h => nomatch h
  obtain ⟨got, files, hfiles, hgot, hrun⟩ := sigOf_miss hmiss hempty
  refine ⟨_, hrun, ?_, hfiles, ?_, ?_⟩
  · rw [← hgot]
    exact sigOf_hit (Function.update_self _ _ _)
  · intro key r hr
    by_cases hk : key = SigCache.cacheKey fullName module
    · subst hk
      simp only [Function.update_self, Option.some.injEq] at hr
      rw [← hr, hgot]
      cases module with
      | false => exact seededTable_root.symm
      | true => exact seededTable_clash.symm
    · simp only [Function.update_of_ne hk] at hr
      cases hr
  · intro hm
    subst hm
    simp [SigCache.cacheKey]

/-- Asked again, the question has the same answer. -/
theorem sigOf_root :
    (seededRel src fullName module).Rel (SigCache.sigOf src fullName module)
      (seededTable src fullName module (fullName, module)) := by
  cases module with
  | false => exact sigOf_seeded fullName
  | true =>
    intro c hc
    obtain ⟨got, hit⟩ := Option.isSome_iff_exists.mp (hc.root rfl)
    rw [sigOf_hit hit, hc.cache _ _ hit, seededTable_clash, seededTable_root]
    exact ⟨rfl, hc⟩

/-- A walk goes the same way once the class it starts from was asked for. -/
theorem linOf_restart {ask : String → Bool → StateM SigCache (Except LoadError ClassSig)}
    {c₀ c₁ : SigCache} {room : ℕ} {subst : Subst} {w : LinWalk} (hbudget : w.budget ≠ 0)
    (hask : ask fullName module c₀ = ask fullName module c₁) :
    linOf src ask (room + 1) fullName module subst w c₀ =
      linOf src ask (room + 1) fullName module subst w c₁ := by
  rw [linOf, if_neg hbudget, SigCache.run_bind, SigCache.run_bind, hask]

theorem linOf_seeded (room : ℕ) (subst : Subst) (w : LinWalk) :
    (seededRel src fullName module).Rel
      (linOf src (SigCache.sigOf src) room fullName module subst w)
      ((seededTable src fullName module).walk src room fullName module subst w) := by
  unfold ClassTable.walk
  apply linOf_rel
  · exact sigOf_seeded
  · exact sigOf_root

/-- On a fresh cache the walk is the walk over the seeded table. -/
theorem linWalk_fresh :
    (linWalk src (SigCache.sigOf src) fullName module SigCache.new).1 =
      (seededTable src fullName module).walk src (LIN_MAX_DEPTH + 1) fullName module emptySubst
        LinWalk.start := by
  obtain ⟨c, hrun, hagain, hc⟩ : ∃ c, SigCache.sigOf src fullName module SigCache.new =
      (answer src fullName module, c) ∧
      SigCache.sigOf src fullName module c = (answer src fullName module, c) ∧
      Seeded src fullName module c := sigOf_fresh
  have hbudget : LinWalk.start.budget ≠ 0 := by decide
  rw [linWalk, linOf_restart hbudget (hrun.trans hagain.symm)]
  exact (linOf_seeded _ _ _ c hc).1

/-- A class with the module's key leads back to itself in the seeded table. -/
theorem seededTable_clash_ancestor
    (hreach : (seededTable src fullName true).Reachable (fullName, true) (fullName ++ "$", false)) :
    (seededTable src fullName true).Ancestor (fullName ++ "$", false) (fullName ++ "$", false) := by
  have hparents : (seededTable src fullName true).parents (fullName ++ "$", false) =
      (seededTable src fullName true).parents (fullName, true) := by
    rw [ClassTable.parents, ClassTable.parents, ClassTable.parentRefs, ClassTable.parentRefs,
      seededTable_clash, seededTable_root]
  rcases ClassTable.reachable_iff.mp hreach with h | ⟨p, hp, hpd⟩
  · cases (Prod.mk.inj h).2
  · rw [← hparents] at hp
    exact Relation.TransGen.head' hp hpd

end Cached

/-- A walk on a fresh cache that no limit cuts is a walk over the source's own
answers. -/
theorem linWalk_uncut {src : ClassSource} {fullName : String} {module : Bool}
    (hcut : (linWalk src (SigCache.sigOf src) fullName module SigCache.new).1.2.cut = false) :
    (tableOf src).Uncut src (LIN_MAX_DEPTH + 1) (fullName, module) emptySubst LinWalk.start
      (linWalk src (SigCache.sigOf src) fullName module SigCache.new).1 := by
  rw [linWalk_fresh] at hcut ⊢
  have huncut := ClassTable.walk_uncut _ _ _ _ _ hcut
  have hagree : ∀ d, (seededTable src fullName module).Reachable (fullName, module) d →
      seededTable src fullName module d = tableOf src d := by
    intro d hd
    rw [seededTable, tableOf, if_neg]
    intro ⟨hm, hname⟩
    subst hm
    rw [hname] at hd
    exact huncut.height.acyclic hd (seededTable_clash_ancestor hd)
  rw [ClassTable.walk_congr _ _ _ _ _ hagree] at hcut ⊢
  exact ClassTable.walk_uncut _ _ _ _ _ hcut

theorem linearization_fresh (src : ClassSource) (fullName : String) (module : Bool) :
    (SigCache.linearization src fullName module SigCache.new).1.1 =
      (linWalk src (SigCache.sigOf src) fullName module SigCache.new).1.1 := by
  have hmiss : SigCache.new.linearizations (fullName, module) = none := rfl
  rcases hwalk : linWalk src (SigCache.sigOf src) fullName module SigCache.new with ⟨result, c⟩
  rw [SigCache.linearization_miss hmiss hwalk]

theorem Linearizes.head?_eq {α : Type} [DecidableEq α] {parents : α → List α} {c : α} {l : List α}
    (h : Linearizes parents c l) : l.head? = some c := by
  cases h
  rfl

theorem ClassTable.Uncut.idxOf_lt {g : ClassTable} {src : ClassSource} {room : ℕ} {root : ClassKey}
    {subst : Subst} {w : LinWalk} {result : List LinStep × LinWalk}
    (h : g.Uncut src room root subst w result) {c d : ClassKey}
    (hc : c ∈ result.1.map LinStep.key) (hcd : g.Ancestor c d) :
    (result.1.map LinStep.key).idxOf c < (result.1.map LinStep.key).idxOf d := by
  have hd := h.steps.closed c hc d hcd
  have hne : c ≠ d := by
    intro heq
    rw [← heq] at hcd
    exact h.height.acyclic ((h.steps.mem c).mp hc) hcd
  have hlt := idxOf_lt_of_ordered h.steps.ordered hc hd hcd hne
  -- pairs are compared componentwise in one, by their decidable equality in the other
  rwa [lawful_beq_subsingleton instBEqOfDecidableEq instBEqProd] at hlt

/-- The shared ancestor comes last, with the type arguments of the second parent. -/
example : (SigCache.linearization (sourceOf diamond) "a.D" false SigCache.new).1.1.map
    (LinStep.className) = ["a.D", "a.C", "a.B", "a.A"] := by decide

end ScalaRs.Signatures
