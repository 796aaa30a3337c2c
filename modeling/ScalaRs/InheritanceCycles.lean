import ScalaRs.Lassos
import ScalaRs.Linearization
import Mathlib.Data.List.MinMax

/-! # Inheritance cycles

A depth-first walk that follows the parents in source order, with the path it is
on and the classes it is done with. Symbols are ordered by their numbers. -/
namespace ScalaRs.Linearization
open Lassos

universe u

/-- A symbol table whose first entry stands for no symbol. -/
structure ClassTable (α : Type u) extends SymbolTable α where
  NONE : α
  parents_NONE : (get NONE).parents = []

structure InheritanceCycle (α : Type u) where
  /-- The class whose parent list closes the cycle. -/
  closing : α
  /-- The class the cycle re-enters. -/
  involving : α
  deriving DecidableEq

namespace SymbolTable

variable {α : Type u} [DecidableEq α] (st : SymbolTable α)

/-- The loop of `go` over parents of the last class of the path. -/
def goParents [Fintype α] (cls : α) (parents path : List α) (done : Finset α) :
    Option (List α) × Finset α :=
  match parents with
  | [] => (none, insert cls done)
  | p :: parents =>
    if _h : p ∈ path then (some (path.drop (path.idxOf p)), done)
    else if p ∈ done then goParents cls parents path done
    else
      match goParents p (st.parentsOf p) (path ++ [p]) done with
      | (some hit, done) => (some hit, done)
      | (none, done) => goParents cls parents path done
termination_by (offPath path, parents.length)
decreasing_by
  · exact Prod.Lex.right _ (Nat.lt_succ_self _)
  · exact Prod.Lex.left _ _ (offPath_concat _h)
  · exact Prod.Lex.right _ (Nat.lt_succ_self _)

def go [Fintype α] (cls : α) (path : List α) (done : Finset α) : Option (List α) × Finset α :=
  st.goParents cls (st.parentsOf cls) (path ++ [cls]) done

end SymbolTable

namespace ClassTable

variable {α : Type u} [LinearOrder α] [Fintype α] (st : ClassTable α)

/-- The first cycle that the walk from `root` meets: the class entered again
first, the class that closes the cycle last. -/
def firstCycleFrom (root : α) : Option (List α) :=
  if root = st.NONE then none else (st.go root [] ∅).1

/-- The cycle reachable from `cls`, walked from its least class. -/
def inheritanceCycle (cls : α) : Option (InheritanceCycle α) := do
  let found ← st.firstCycleFrom cls
  let entry ← found.argmin id
  let canonical ← st.firstCycleFrom entry
  let closing ← canonical.getLast?
  let involving ← canonical.head?
  return ⟨closing, involving⟩

end ClassTable

namespace SymbolTable

variable {α : Type u} {st : SymbolTable α}

/-- `p` is a parent of `c`, and no cycle is reachable from those before it. -/
def Candidate (st : SymbolTable α) (c p : α) : Prop :=
  ∃ before after, st.parentsOf c = before ++ p :: after ∧ ∀ b ∈ before, st.AcyclicFrom b

/-- `p` is the first parent of `c` from which a cycle is reachable. -/
def Next (st : SymbolTable α) (c p : α) : Prop := st.Candidate c p ∧ ¬ st.AcyclicFrom p

theorem Candidate.parent {c p : α} (h : st.Candidate c p) : st.Parent c p := by
  obtain ⟨before, after, heq, -⟩ := h
  rw [Parent, heq]
  simp

theorem next_rightUnique : Relator.RightUnique st.Next := by
  rintro c p p' ⟨⟨before, after, heq, hbefore⟩, hp⟩ ⟨⟨before', after', heq', hbefore'⟩, hp'⟩
  rw [heq, List.append_eq_append_iff] at heq'
  rcases heq' with ⟨mid, rfl, hmid⟩ | ⟨mid, rfl, hmid⟩
  · cases mid with
    | nil => exact (List.cons.inj hmid).1
    | cons q mid =>
      obtain ⟨rfl, -⟩ := List.cons.inj hmid
      exact absurd (hbefore' p (by simp)) hp
  · cases mid with
    | nil => exact (List.cons.inj hmid).1.symm
    | cons q mid =>
      obtain ⟨rfl, -⟩ := List.cons.inj hmid
      exact absurd (hbefore p' (by simp)) hp'

theorem acyclicFrom_iff {c : α} : st.AcyclicFrom c ↔ ∀ p ∈ st.parentsOf c, st.AcyclicFrom p := by
  constructor
  · exact fun h p hp => h.parent hp
  · intro h x hx hcycle
    rcases reachable_iff.mp hx with rfl | ⟨p, hp, hpx⟩
    · obtain ⟨p, hp, hpx⟩ := ancestor_iff.mp hcycle
      exact h p hp _ hpx hcycle
    · exact h p hp x hpx hcycle

/-- From every class of a lasso its cycle is reachable. -/
theorem not_acyclicFrom_of_chain {trunk t : List α} {e : α}
    (h : (trunk ++ e :: (t ++ [e])).IsChain st.Parent) :
    ∀ x ∈ trunk ++ e :: (t ++ [e]), ¬ st.AcyclicFrom x := by
  have hback : ∀ {l : List α}, (l ++ [e]).IsChain st.Parent → ∀ x ∈ l, st.Reachable x e := by
    intro l hl
    exact hl.backwards_concat_induction (st.Reachable · e) _ (fun _ _ h hy => hy.head h) .refl
  have hcycle : st.Ancestor e e := by
    have haround : (e :: (t ++ [e])).IsChain st.Parent := h.right_of_append
    cases t with
    | nil => exact .single (List.isChain_pair.mp haround)
    | cons y t =>
      obtain ⟨hy, haround⟩ := List.isChain_cons_cons.mp haround
      exact ancestor_iff.mpr ⟨y, hy, @hback (y :: t) haround y List.mem_cons_self⟩
  intro x hx hacyclic
  have hxe : st.Reachable x e := by
    have hsplit : trunk ++ e :: (t ++ [e]) = (trunk ++ e :: t) ++ [e] := by simp
    rw [hsplit] at hx h
    rcases List.mem_append.mp hx with hx | hx
    · exact hback h x hx
    · rw [List.mem_singleton.mp hx]
      exact .refl
  exact hacyclic e hxe hcycle

theorem lasso_next {path l : List α} (h : Lasso st.Candidate path l) : Lasso st.Next path l := by
  obtain ⟨trunk, e, t, rfl, hpath, hchain, hnodup⟩ := h
  have hcyclic := not_acyclicFrom_of_chain (hchain.imp fun _ _ h => h.parent)
  exact ⟨trunk, e, t, rfl, hpath,
    hchain.imp_of_mem_imp fun x y _ hy hxy => ⟨hxy, hcyclic y hy⟩, hnodup⟩

theorem not_acyclicFrom_of_lasso {c : α} {l : List α} (h : Lasso st.Next [c] l) :
    ¬ st.AcyclicFrom c := by
  obtain ⟨trunk, e, t, rfl, hpath, hchain, -⟩ := h
  apply not_acyclicFrom_of_chain (hchain.imp fun _ _ h => h.1.parent)
  have hc : c ∈ trunk ++ e :: t := hpath.subset List.mem_cons_self
  rw [← List.cons_append, ← List.append_assoc]
  exact List.mem_append_left _ hc

/-- Where the walk stands: over the parents of the last class of its path. -/
structure Walk (st : SymbolTable α) (cls : α) (parents path : List α) (done : Finset α) : Prop where
  last : ∃ trunk, path = trunk ++ [cls]
  seen : ∃ before, st.parentsOf cls = before ++ parents ∧ ∀ b ∈ before, st.AcyclicFrom b
  chain : path.IsChain st.Candidate
  nodup : path.Nodup
  done : ∀ d ∈ done, st.AcyclicFrom d

/-- What the walk answers. -/
structure Answer (st : SymbolTable α) (cls : α) (path : List α)
    (answer : Option (List α) × Finset α) : Prop where
  found : ∀ l, answer.1 = some l → Lasso st.Candidate path l
  missing : answer.1 = none → st.AcyclicFrom cls
  done : ∀ d ∈ answer.2, st.AcyclicFrom d

namespace Walk

variable {cls p : α} {parents path : List α} {done : Finset α}

theorem candidate (h : st.Walk cls (p :: parents) path done) : st.Candidate cls p := by
  obtain ⟨before, heq, hbefore⟩ := h.seen
  exact ⟨before, parents, heq, hbefore⟩

theorem chain_concat (h : st.Walk cls (p :: parents) path done) :
    (path ++ [p]).IsChain st.Candidate := by
  obtain ⟨trunk, rfl⟩ := h.last
  rw [List.append_assoc, List.singleton_append, List.isChain_append_cons_cons]
  exact ⟨h.chain, h.candidate, List.isChain_singleton p⟩

/-- A parent from which no cycle is reachable is passed over. -/
theorem next (h : st.Walk cls (p :: parents) path done) (hp : st.AcyclicFrom p)
    {done' : Finset α} (hdone : ∀ d ∈ done', st.AcyclicFrom d) :
    st.Walk cls parents path done' := by
  obtain ⟨before, heq, hbefore⟩ := h.seen
  refine ⟨h.last, ⟨before ++ [p], by simp [heq], ?_⟩, h.chain, h.nodup, hdone⟩
  intro b hb
  rcases List.mem_append.mp hb with hb | hb
  · exact hbefore b hb
  · rw [List.mem_singleton.mp hb]
    exact hp

theorem enter (h : st.Walk cls (p :: parents) path done) (hp : p ∉ path) :
    st.Walk p (st.parentsOf p) (path ++ [p]) done where
  last := ⟨path, rfl⟩
  seen := ⟨[], rfl, by simp⟩
  chain := h.chain_concat
  nodup := by
    have hfresh : (p :: path).Nodup := List.nodup_cons.mpr ⟨hp, h.nodup⟩
    exact (List.perm_append_singleton p path).nodup_iff.mpr hfresh
  done := h.done

end Walk

variable [DecidableEq α] [Fintype α]

theorem goParents_answer (cls : α) (parents path : List α) (done : Finset α) :
    st.Walk cls parents path done →
      st.Answer cls path (st.goParents cls parents path done) := by
  induction cls, parents, path, done using goParents.induct st with
  | case1 cls path done =>
    intro h
    obtain ⟨before, heq, hbefore⟩ := h.seen
    rw [List.append_nil] at heq
    have hacyclic : st.AcyclicFrom cls := by
      rw [acyclicFrom_iff, heq]
      exact hbefore
    rw [goParents]
    refine ⟨fun l hl => (by cases hl), fun _ => hacyclic, fun d hd => ?_⟩
    rcases Finset.mem_insert.mp hd with rfl | hd
    · exact hacyclic
    · exact h.done d hd
  | case2 cls path done p parents hp =>
    intro h
    rw [goParents, dif_pos hp]
    refine ⟨fun l hl => ?_, fun hnone => (by cases hnone), h.done⟩
    cases hl
    obtain ⟨trunk, t, heq, hfresh⟩ := List.eq_append_cons_of_mem hp
    have hdrop : path.drop (path.idxOf p) = p :: t := by
      rw [heq, List.idxOf_append_of_notMem hfresh, List.idxOf_cons_self, Nat.add_zero, List.drop_left]
    have hclosed : trunk ++ p :: (t ++ [p]) = path ++ [p] := by simp [heq]
    exact ⟨trunk, p, t, hdrop, by rw [hdrop, ← heq], hclosed ▸ h.chain_concat,
      by rw [hdrop, ← heq]; exact h.nodup⟩
  | case3 cls path done p parents hp hdone ih =>
    intro h
    rw [goParents, dif_neg hp, if_pos hdone]
    exact ih (h.next (h.done p hdone) h.done)
  | case4 cls path done p parents hp hdone hit done' heq ih =>
    intro h
    have hanswer := ih (h.enter hp)
    rw [heq] at hanswer
    rw [goParents, dif_neg hp, if_neg hdone, heq]
    refine ⟨fun l hl => ?_, fun hnone => (by cases hnone), hanswer.done⟩
    obtain ⟨trunk, e, t, rfl, hpath, hchain, hnodup⟩ := hanswer.found l hl
    exact ⟨trunk, e, t, rfl, (List.prefix_append path [p]).trans hpath, hchain, hnodup⟩
  | case5 cls path done p parents hp hdone done' heq ih₁ ih₂ =>
    intro h
    have hanswer := ih₁ (h.enter hp)
    rw [heq] at hanswer
    rw [goParents, dif_neg hp, if_neg hdone, heq]
    exact ih₂ (h.next (hanswer.missing rfl) hanswer.done)

end SymbolTable

namespace ClassTable
open SymbolTable

variable {α : Type u} [LinearOrder α] [Fintype α] (st : ClassTable α)

omit [LinearOrder α] [Fintype α] in
theorem acyclicFrom_NONE : st.AcyclicFrom st.NONE := by
  rw [acyclicFrom_iff]
  intro p hp
  simp [parentsOf, st.parents_NONE] at hp

theorem go_answer (c : α) : st.Answer c [c] (st.go c [] ∅) :=
  goParents_answer c (st.parentsOf c) [c] ∅
    ⟨⟨[], rfl⟩, ⟨[], rfl, by simp⟩, List.isChain_singleton c, List.nodup_singleton c, by simp⟩

theorem firstCycleFrom_spec (c : α) :
    (∀ l, st.firstCycleFrom c = some l → Lasso st.Next [c] l) ∧
      (st.firstCycleFrom c = none → st.AcyclicFrom c) := by
  rw [firstCycleFrom]
  split
  · next hnone =>
    rw [hnone]
    exact ⟨fun l hl => (by cases hl), fun _ => st.acyclicFrom_NONE⟩
  · exact ⟨fun l hl => lasso_next ((st.go_answer c).found l hl), (st.go_answer c).missing⟩

theorem firstCycleFrom_eq_some {c : α} {l : List α} :
    st.firstCycleFrom c = some l ↔ Lasso st.Next [c] l := by
  constructor
  · exact (st.firstCycleFrom_spec c).1 l
  · intro h
    cases hfound : st.firstCycleFrom c with
    | none => exact absurd ((st.firstCycleFrom_spec c).2 hfound) (not_acyclicFrom_of_lasso h)
    | some l' =>
      rw [h.unique next_rightUnique ((st.firstCycleFrom_spec c).1 l' hfound)]

theorem firstCycleFrom_isSome (c : α) :
    (st.firstCycleFrom c).isSome ↔ ¬ st.AcyclicFrom c := by
  cases hfound : st.firstCycleFrom c with
  | none => simpa using (st.firstCycleFrom_spec c).2 hfound
  | some l => simpa using not_acyclicFrom_of_lasso (st.firstCycleFrom_eq_some.mp hfound)

/-- From a class on the cycle found, the same cycle is found, from that class around. -/
theorem firstCycleFrom_of_mem {c m : α} {l : List α} (h : st.firstCycleFrom c = some l)
    (hm : m ∈ l) : ∃ t, (m :: t).Perm l ∧ st.firstCycleFrom m = some (m :: t) := by
  obtain ⟨a, b, rfl⟩ := List.append_of_mem hm
  have hcycle := (st.firstCycleFrom_eq_some.mp h).isCycle
  exact ⟨b ++ a, @List.perm_append_comm _ (m :: b) a, st.firstCycleFrom_eq_some.mpr hcycle.rotate.lasso⟩

/-- A report is about the cycle found, from its least class around. -/
theorem inheritanceCycle_eq {c : α} {l : List α} (h : st.firstCycleFrom c = some l) :
    ∃ entry t closing, (entry :: t).Perm l ∧ (∀ x ∈ l, entry ≤ x) ∧
      st.firstCycleFrom entry = some (entry :: t) ∧ (entry :: t).getLast? = some closing ∧
      st.inheritanceCycle c = some ⟨closing, entry⟩ := by
  obtain ⟨e, t, hl, -⟩ := (st.firstCycleFrom_eq_some.mp h).isCycle
  obtain ⟨entry, hentry⟩ : ∃ entry, l.argmin id = some entry := by
    rw [← Option.ne_none_iff_exists', ne_eq, List.argmin_eq_none, hl]
    exact List.cons_ne_nil e t
  obtain ⟨t, hperm, hcanonical⟩ := st.firstCycleFrom_of_mem h (List.argmin_mem hentry)
  have hclosing := List.getLast?_eq_some_getLast (List.cons_ne_nil entry t)
  refine ⟨entry, t, _, hperm, fun x hx => List.le_of_mem_argmin hx hentry, hcanonical, hclosing, ?_⟩
  rw [inheritanceCycle, h]
  simp only [Option.bind_eq_bind, Option.bind_some, hentry, hcanonical, hclosing, List.head?_cons]
  rfl

theorem inheritanceCycle_isSome (c : α) :
    (st.inheritanceCycle c).isSome ↔ (st.firstCycleFrom c).isSome := by
  cases hfound : st.firstCycleFrom c with
  | none => simp [inheritanceCycle, hfound]
  | some l =>
    obtain ⟨entry, t, closing, -, -, -, -, heq⟩ := st.inheritanceCycle_eq hfound
    simp [heq]

/-- All classes on a cycle give the same report. -/
theorem inheritanceCycle_of_mem {c m : α} {l : List α} (h : st.firstCycleFrom c = some l)
    (hm : m ∈ l) : st.inheritanceCycle m = st.inheritanceCycle c := by
  obtain ⟨s, hs, hfound⟩ := st.firstCycleFrom_of_mem h hm
  obtain ⟨entry, t, closing, hperm, hleast, hcanonical, hclosing, heq⟩ := st.inheritanceCycle_eq h
  obtain ⟨entry', t', closing', hperm', hleast', hcanonical', hclosing', heq'⟩ :=
    st.inheritanceCycle_eq hfound
  have hmem : entry ∈ l := hperm.subset List.mem_cons_self
  have hmem' : entry' ∈ m :: s := hperm'.subset List.mem_cons_self
  obtain rfl : entry = entry' :=
    le_antisymm (hleast entry' (hs.subset hmem')) (hleast' entry (hs.symm.subset hmem))
  obtain rfl : closing = closing' := by
    rw [hcanonical, Option.some.injEq] at hcanonical'
    rw [hcanonical', hclosing', Option.some.injEq] at hclosing
    exact hclosing.symm
  rw [heq, heq']

/-- A cycle is reported exactly where one is reachable; the report is about one
cycle of parent edges; all classes on the cycle found give the same report. -/
theorem inheritanceCycle_correct (c : α) :
    ((st.inheritanceCycle c).isSome ↔ ∃ x, st.Reachable c x ∧ st.Ancestor x x) ∧
    (∀ cycle, st.inheritanceCycle c = some cycle →
      cycle.involving ∈ st.parentsOf cycle.closing ∧
        ∃ l, IsCycle st.Parent l ∧ cycle.closing ∈ l ∧ cycle.involving ∈ l) ∧
    (∀ found, st.firstCycleFrom c = some found →
      (∀ cycle, st.inheritanceCycle c = some cycle →
        cycle.closing ∈ found ∧ cycle.involving ∈ found) ∧
      ∀ m ∈ found, st.inheritanceCycle m = st.inheritanceCycle c) := by
  have hreport : ∀ found cycle, st.firstCycleFrom c = some found →
      st.inheritanceCycle c = some cycle →
      cycle.involving ∈ st.parentsOf cycle.closing ∧ IsCycle st.Parent found ∧
        cycle.closing ∈ found ∧ cycle.involving ∈ found := by
    intro found cycle hfound hcycle
    obtain ⟨entry, t, closing, hperm, -, hcanonical, hclosing, heq⟩ := st.inheritanceCycle_eq hfound
    rw [hcycle, Option.some.injEq] at heq
    subst heq
    have hparent : ∀ x y, st.Next x y → st.Parent x y := fun _ _ h => h.1.parent
    have hround := (st.firstCycleFrom_eq_some.mp hcanonical).isCycle
    exact ⟨hparent _ _ (hround.closes hclosing),
      (st.firstCycleFrom_eq_some.mp hfound).isCycle.imp hparent,
      hperm.subset (List.mem_of_getLast? hclosing), hperm.subset List.mem_cons_self⟩
  refine ⟨?_, ?_, ?_⟩
  · rw [inheritanceCycle_isSome, firstCycleFrom_isSome, AcyclicFrom]
    simp
  · intro cycle hcycle
    obtain ⟨found, hfound⟩ : ∃ found, st.firstCycleFrom c = some found := by
      rw [← Option.isSome_iff_exists, ← inheritanceCycle_isSome, hcycle]
      rfl
    obtain ⟨hclosing, hround, hmem⟩ := hreport found cycle hfound hcycle
    exact ⟨hclosing, found, hround, hmem⟩
  · intro found hfound
    exact ⟨fun cycle hcycle => (hreport found cycle hfound hcycle).2.2,
      fun m hm => st.inheritanceCycle_of_mem hfound hm⟩

end ClassTable
end ScalaRs.Linearization
