import ScalaRs.CovariantBridges
import ScalaRs.RunningLeast

/-! # Forwarders for the members of `Object`

Of the interfaces that implement a member the scan keeps the most specific one so far, and it gives
up on two that are not comparable, even if one that is below both follows. -/
namespace ScalaRs.InterfaceBridges
open Relation RunningLeast

section
variable (path : BinaryPath) (roots : List Str) (have' : List (Str × Str)) (name desc : Str)

/-- An interface of the closure that implements the member. -/
def Implements (o : Str) : Prop := Ancestor path roots o ∧ isCandidate path name desc o = true

/-- A sub-type of all the others. -/
def IsMostSpecific (o : Str) : Prop :=
  Implements path roots name desc o ∧
    ∀ o', Implements path roots name desc o' → Subtype' path o o'

def helperDescOf (o : Str) : Str :=
  match splitDesc desc with
  | some (params, ret) => helperDesc o params ret
  | none => []

/-- The most specific implementation, if it carries the static helper. -/
def IsForwardedTo (o : Str) : Prop :=
  IsMostSpecific path roots name desc o ∧
    hasHelper path o (helperName name) (helperDescOf desc o) = true

def forwarderTo (o : Str) : Bridge :=
  ⟨name, desc, .static o (helperName name) (helperDescOf desc o)⟩

/-- The forwarders of the member that are emitted. -/
def forwarders : List Bridge :=
  (bridges path roots have').filter fun b => decide (b.name = name) && !b.isNarrow

/-- There is one forwarder to the most specific implementation, and otherwise none. -/
def ForwardsToMostSpecific : Prop :=
  (∀ o, IsForwardedTo path roots name desc o →
    forwarders path roots have' name = [forwarderTo name desc o]) ∧
  ((∀ o, ¬IsForwardedTo path roots name desc o) → forwarders path roots have' name = [])

/-- The implementations in breadth-first order. -/
def candidates : List Str := (closure path roots).filter (isCandidate path name desc)

end

/-! ## The forwarders are those of the scan -/

variable (h : Hierarchy) {roots : List Str} {have' : List (Str × Str)} {name desc : Str}

/-- Of bridges that each have the name of their member, those of one member. -/
theorem filter_name {f : Str × Str → Option Bridge}
    (hf : ∀ m b, f m = some b → b.name = m.1 ∧ b.isNarrow = false) {l : List (Str × Str)}
    (hnodup : (l.map (·.1)).Nodup) {m : Str × Str} (hmem : m ∈ l) :
    (l.filterMap f).filter (fun b => decide (b.name = m.1) && !b.isNarrow) = (f m).toList := by
  induction l with
  | nil => exact absurd hmem List.not_mem_nil
  | cons m' l ih =>
      rw [List.map_cons, List.nodup_cons] at hnodup
      rcases List.mem_cons.1 hmem with rfl | hmem
      · -- The other members have other names.
        have hrest : (l.filterMap f).filter
            (fun b => decide (b.name = m.1) && !b.isNarrow) = [] := by
          apply List.filter_eq_nil_iff.2
          intro b hb
          obtain ⟨m', hmem', hb⟩ := List.mem_filterMap.1 hb
          have hne : m'.1 ≠ m.1 := fun heq => hnodup.1 (List.mem_map.2 ⟨m', hmem', heq⟩)
          simp [(hf m' b hb).1, hne]
        cases hb : f m with
        | none =>
            rw [List.filterMap_cons_none hb, hrest]
            rfl
        | some b =>
            rw [List.filterMap_cons_some hb, List.filter_cons_of_pos (by simp [hf m b hb]), hrest]
            rfl
      · have hne : m'.1 ≠ m.1 := fun heq => hnodup.1 (List.mem_map.2 ⟨m, hmem, heq.symm⟩)
        rw [← ih hnodup.2 hmem]
        cases hb : f m' with
        | none => rw [List.filterMap_cons_none hb]
        | some b =>
            rw [List.filterMap_cons_some hb, List.filter_cons_of_neg (by simp [hf m' b hb, hne])]

theorem forwarders_eq (hmem : (name, desc) ∈ objectClash) :
    forwarders h.path roots have' name =
      (clashForwarder h.path (closure h.path roots) have' name desc).toList := by
  have hnodup : (objectClash.map (·.1)).Nodup := by simp [objectClash]
  have hnarrow : ∀ b ∈ covariantBridges h.path (closure h.path roots) have',
      ¬(decide (b.name = name) && !b.isNarrow) = true := by
    intro b hb
    simp [isNarrow_of_mem_covariantBridges h roots have' hb]
  have hperm := (bridges_perm h.path roots have').filter fun b =>
    decide (b.name = name) && !b.isNarrow
  rw [List.filter_append, List.filter_eq_nil_iff.2 hnarrow, List.nil_append, objectClashForwarders,
    filter_name (fun m b hb => clashForwarder_name hb) hnodup hmem] at hperm
  rw [forwarders]
  cases hb : clashForwarder h.path (closure h.path roots) have' name desc with
  | none =>
      rw [hb] at hperm
      exact hperm.eq_nil
  | some b =>
      rw [hb] at hperm
      exact List.perm_singleton.1 hperm

theorem mem_candidates {o : Str} :
    o ∈ candidates h.path roots name desc ↔ Implements h.path roots name desc o := by
  rw [candidates, List.mem_filter, mem_closure]
  rfl

/-- The scan looks at the candidates only. -/
theorem scanBest_eq (path : BinaryPath) (roots : List Str) (name desc : Str) :
    scanBest path (closure path roots) name desc =
      (candidates path roots name desc).foldl (leastStep (isSub path)) (none, false) := by
  rw [scanBest, candidates, List.foldl_filter]
  apply List.foldl_ext
  intro acc o _
  obtain ⟨best, gaveUp⟩ := acc
  cases best <;> rfl

theorem ne_object_of_mem {o : Str} (ho : o ∈ candidates h.path roots name desc) : o ≠ object := by
  obtain ⟨⟨-, r, -, hr, hreach⟩, -⟩ := (mem_candidates h).1 ho
  rcases hreach.cases_tail with heq | ⟨m, -, hlast⟩
  · exact heq ▸ hr
  · exact hlast.1

theorem leastScan_candidates :
    LeastScan (isSub h.path) (candidates h.path roots name desc)
      (scanBest h.path (closure h.path roots) name desc) := by
  rw [scanBest_eq]
  apply leastScan_foldl
  · intro o _
    exact (isSub_iff h o o).2 (.inr .refl)
  · intro o₁ _ o₂ ho₂ o₃ _ h₁ h₂
    rw [isSub_iff] at h₁ h₂ ⊢
    exact h₂.imp_right (h₁.resolve_left (ne_object_of_mem h ho₂)).trans

theorem isLeastOf_candidates {o : Str} :
    IsLeastOf (isSub h.path) (candidates h.path roots name desc) o ↔
      IsMostSpecific h.path roots name desc o := by
  rw [IsLeastOf, IsMostSpecific, mem_candidates]
  apply and_congr_right
  intro _
  apply forall_congr'
  intro o'
  rw [mem_candidates, isSub_iff]

/-! ## When there is a forwarder -/

/-- In an acyclic hierarchy there is at most one most specific implementation. -/
theorem IsMostSpecific.unique (hacyclic : ∀ n, ¬TransGen (Parent h.path) n n) {o o' : Str}
    (ho : IsMostSpecific h.path roots name desc o) (ho' : IsMostSpecific h.path roots name desc o') :
    o = o' := by
  have hobject : ∀ o, Implements h.path roots name desc o → o ≠ object := fun o ho =>
    ne_object_of_mem h ((mem_candidates h).2 ho)
  have hdown := (ho.2 o' ho'.1).resolve_left (hobject o' ho'.1)
  have hup := (ho'.2 o ho.1).resolve_left (hobject o ho.1)
  rcases reflTransGen_iff_eq_or_transGen.1 hdown with heq | htrans
  · exact heq.symm
  · exact absurd (htrans.trans_left hup) (hacyclic o)

theorem exists_splitDesc (hmem : (name, desc) ∈ objectClash) :
    ∃ params ret, splitDesc desc = some (params, ret) := by
  simp only [objectClash, List.mem_cons, Prod.mk.injEq, List.not_mem_nil, or_false] at hmem
  rcases hmem with ⟨-, rfl⟩ | ⟨-, rfl⟩ | ⟨-, rfl⟩ <;> exact ⟨_, _, rfl⟩

/-- What the forwarder is to. -/
theorem clashForwarder_eq (hacyclic : ∀ n, ¬TransGen (Parent h.path) n n)
    (hmem : (name, desc) ∈ objectClash)
    (hclass : ∀ o, Ancestor h.path roots o → isClassImpl h.path name desc o = false) (b : Bridge) :
    clashForwarder h.path (closure h.path roots) have' name desc = some b ↔
      (name, desc) ∉ have' ∧ AlwaysLeast (isSub h.path) (candidates h.path roots name desc) ∧
        ∃ o, IsForwardedTo h.path roots name desc o ∧ b = forwarderTo name desc o := by
  obtain ⟨params, ret, hsplit⟩ := exists_splitDesc hmem
  have hscan := @leastScan_candidates h roots name desc
  have hany : ¬(closure h.path roots).any (isClassImpl h.path name desc) = true := by
    rw [List.any_eq_true]
    intro hany
    obtain ⟨o, ho, himpl⟩ := hany
    exact absurd (hclass o ((mem_closure h).1 ho)) (by simp [himpl])
  rw [clashForwarder, if_neg hany]
  constructor
  · intro hb
    split at hb
    · exact absurd hb (by simp)
    · next hhave =>
      split at hb
      · next o hbest =>
        rw [hsplit] at hb
        simp only [Option.bind_eq_bind, Option.bind_some] at hb
        split at hb
        · next hhelper =>
          cases hb
          have hgoes : (scanBest h.path (closure h.path roots) name desc).2 = false := by rw [hbest]
          have hleast := hscan.least hgoes o (by rw [hbest])
          refine ⟨hhave, hscan.goes_on_iff.1 hgoes, o, ⟨(isLeastOf_candidates h).1 hleast, ?_⟩, ?_⟩
          · rw [helperDescOf, hsplit]
            exact hhelper
          · rw [forwarderTo, helperDescOf, hsplit]
        · exact absurd hb (by simp)
      · exact absurd hb (by simp)
  · intro hb
    obtain ⟨hhave, halways, o, ⟨hmost, hhelper⟩, rfl⟩ := hb
    have hgoes := hscan.goes_on_iff.2 halways
    have hbest : scanBest h.path (closure h.path roots) name desc = (some o, false) := by
      cases hb : (scanBest h.path (closure h.path roots) name desc).1 with
      | none =>
          have hmem := (mem_candidates h).2 hmost.1
          rw [hscan.none_iff.1 hb] at hmem
          exact absurd hmem List.not_mem_nil
      | some o' =>
          have hmost' := (isLeastOf_candidates h).1 (hscan.least hgoes o' hb)
          rw [hmost.unique h hacyclic hmost']
          exact Prod.ext hb hgoes
    rw [if_neg hhave, hbest, hsplit]
    simp only [Option.bind_eq_bind, Option.bind_some]
    rw [helperDescOf, hsplit] at hhelper
    rw [if_pos hhelper, forwarderTo, helperDescOf, hsplit]

/-- The forwarders are as they should be if and only if, where there is a most specific
implementation with a helper, the class does not declare the member itself and each implementation
is met when those before it have a most specific one. -/
theorem forwardsToMostSpecific_iff (hacyclic : ∀ n, ¬TransGen (Parent h.path) n n)
    (hmem : (name, desc) ∈ objectClash)
    (hclass : ∀ o, Ancestor h.path roots o → isClassImpl h.path name desc o = false) :
    ForwardsToMostSpecific h.path roots have' name desc ↔
      ((∃ o, IsForwardedTo h.path roots name desc o) → (name, desc) ∉ have' ∧
        ∀ p, p <+: candidates h.path roots name desc → p ≠ [] →
          ∃ o ∈ p, ∀ o' ∈ p, Subtype' h.path o o') := by
  have halways : AlwaysLeast (isSub h.path) (candidates h.path roots name desc) ↔
      ∀ p, p <+: candidates h.path roots name desc → p ≠ [] →
        ∃ o ∈ p, ∀ o' ∈ p, Subtype' h.path o o' := by
    simp only [AlwaysLeast, IsLeastOf, isSub_iff]
  rw [← halways, ForwardsToMostSpecific, forwarders_eq h hmem]
  have hsome := @clashForwarder_eq h roots have' name desc hacyclic hmem hclass
  constructor
  · intro hforwards htarget
    obtain ⟨o, ho⟩ := htarget
    have hb := (hsome (forwarderTo name desc o)).1 (Option.toList_eq_singleton_iff.1 (hforwards.1 o ho))
    exact ⟨hb.1, hb.2.1⟩
  · intro hwhen
    constructor
    · intro o ho
      obtain ⟨hhave, halways⟩ := hwhen ⟨o, ho⟩
      rw [(hsome (forwarderTo name desc o)).2 ⟨hhave, halways, o, ho, rfl⟩]
      rfl
    · intro hnone
      cases hb : clashForwarder h.path (closure h.path roots) have' name desc with
      | none => rfl
      | some b =>
          obtain ⟨-, -, o, ho, -⟩ := (hsome b).1 hb
          exact absurd ho (hnone o)

/-! ## Two traits and one that overrides both -/


def toStringName : Str := "toString".toList
def toStringDesc : Str := "()Ljava/lang/String;".toList

def diamondPath : BinaryPath := fun n =>
  if n = ['A'] ∨ n = ['B'] then some ⟨true, [], [(toStringName, toStringDesc, 1)]⟩
  else if n = ['C'] then some ⟨true, [['A'], ['B']], [(toStringName, toStringDesc, 1),
    (helperName toStringName, helperDescOf toStringDesc ['C'], accStatic)]⟩
  else none

def diamond : Hierarchy where
  path := diamondPath
  names := {['A'], ['B'], ['C']}
  named := by
    intro n i hi
    rw [diamondPath] at hi
    split at hi
    · next hn =>
      cases hi
      rcases hn with rfl | rfl <;> simp
    · split at hi
      · next hn =>
        cases hi
        simp [hn]
      · exact absurd hi (by simp)
  card_le := by decide

theorem diamond_parent {n s : Str} (hs : Parent diamond.path n s) : n = ['C'] ∧ s ≠ ['C'] := by
  obtain ⟨i, hi, hs⟩ := hs
  change diamondPath n = some i at hi
  rw [diamondPath] at hi
  split at hi
  · cases hi
    exact absurd hs List.not_mem_nil
  · split at hi
    · next hn =>
      cases hi
      refine ⟨hn, fun heq => ?_⟩
      exact absurd (heq ▸ hs) (by simp)
    · exact absurd hi (by simp)

theorem diamond_acyclic (n : Str) : ¬TransGen (Parent diamond.path) n n := by
  intro hcycle
  obtain ⟨m, hfirst, -⟩ := TransGen.head'_iff.1 hcycle
  obtain ⟨m', -, hlast⟩ := TransGen.tail'_iff.1 hcycle
  exact (diamond_parent hlast).2 (diamond_parent hfirst).1

theorem diamond_noClass (o : Str) : isClassImpl diamond.path toStringName toStringDesc o = false := by
  change isClassImpl diamondPath toStringName toStringDesc o = false
  rw [isClassImpl, diamondPath]
  split_ifs <;> rfl

theorem diamondPath_A : diamondPath ['A'] =
    some ⟨true, [], [(toStringName, toStringDesc, 1)]⟩ := if_pos (.inl rfl)

theorem diamondPath_B : diamondPath ['B'] =
    some ⟨true, [], [(toStringName, toStringDesc, 1)]⟩ := if_pos (.inr rfl)

theorem diamondPath_C : diamondPath ['C'] =
    some ⟨true, [['A'], ['B']], [(toStringName, toStringDesc, 1),
      (helperName toStringName, helperDescOf toStringDesc ['C'], accStatic)]⟩ := by
  rw [diamondPath, if_neg (by simp), if_pos rfl]

theorem singleton_ne_object (c : Char) : [c] ≠ object := by
  intro heq
  have hlength : object.length = 16 := rfl
  rw [← heq] at hlength
  exact absurd hlength (by simp)

theorem closure_diamond_C : closure diamondPath [['C']] = [['C'], ['A'], ['B']] := by
  simp [closure, closureLoop, diamondPath_A, diamondPath_B, diamondPath_C, singleton_ne_object]

theorem closure_diamond : closure diamondPath [['A'], ['B'], ['C']] = [['A'], ['B'], ['C']] := by
  simp [closure, closureLoop, diamondPath_A, diamondPath_B, diamondPath_C, singleton_ne_object]

theorem isCandidate_diamond {n : Str} (hn : n = ['A'] ∨ n = ['B'] ∨ n = ['C']) :
    isCandidate diamondPath toStringName toStringDesc n = true := by
  rcases hn with rfl | rfl | rfl
  · rw [isCandidate, diamondPath_A]
    rfl
  · rw [isCandidate, diamondPath_B]
    rfl
  · rw [isCandidate, diamondPath_C]
    rfl

theorem candidates_diamond_C :
    candidates diamondPath [['C']] toStringName toStringDesc = [['C'], ['A'], ['B']] := by
  rw [candidates, closure_diamond_C]
  simp [isCandidate_diamond]

theorem candidates_diamond :
    candidates diamondPath [['A'], ['B'], ['C']] toStringName toStringDesc =
      [['A'], ['B'], ['C']] := by
  rw [candidates, closure_diamond]
  simp [isCandidate_diamond]

theorem isSub_diamond_C {n : Str} (hn : n = ['A'] ∨ n = ['B'] ∨ n = ['C']) :
    isSub diamondPath ['C'] n = true := by
  rcases hn with rfl | rfl | rfl <;> simp [isSub, isSubLoop, diamondPath_C]

theorem isForwardedTo_diamond_C {roots : List Str}
    (hcandidates : ∀ n, n ∈ candidates diamondPath roots toStringName toStringDesc ↔
      n = ['A'] ∨ n = ['B'] ∨ n = ['C']) :
    IsForwardedTo diamondPath roots toStringName toStringDesc ['C'] := by
  constructor
  · apply (@isLeastOf_candidates diamond roots toStringName toStringDesc ['C']).1
    refine ⟨(hcandidates _).2 (by simp), fun n hn => isSub_diamond_C ((hcandidates n).1 hn)⟩
  · rw [hasHelper, diamondPath_C]
    rfl

theorem toString_mem : (toStringName, toStringDesc) ∈ objectClash := List.mem_cons_self

/-- If only the trait that overrides both is a parent, it is met first. -/
theorem forwardsToMostSpecific_iff_diamond :
    ForwardsToMostSpecific diamond.path [['C']] [] toStringName toStringDesc := by
  apply (forwardsToMostSpecific_iff diamond diamond_acyclic toString_mem
    fun o _ => diamond_noClass o).2
  intro _
  refine ⟨List.not_mem_nil, fun p hp hne => ⟨['C'], ?_, fun n hn => ?_⟩⟩
  · obtain ⟨c, cs, rfl⟩ := List.exists_cons_of_ne_nil hne
    change c :: cs <+: candidates diamondPath [['C']] toStringName toStringDesc at hp
    rw [candidates_diamond_C, List.cons_prefix_cons] at hp
    exact hp.1 ▸ List.mem_cons_self
  · have hmem : n ∈ candidates diamondPath [['C']] toStringName toStringDesc := hp.subset hn
    rw [candidates_diamond_C] at hmem
    exact (isSub_iff diamond ['C'] n).1 (isSub_diamond_C (by simpa [or_comm, or_assoc] using hmem))

/-- If the parents are the two traits and then the one that overrides both, there is no forwarder. -/
theorem not_forwardsToMostSpecific_diamond :
    ¬∀ (h : Hierarchy) (roots : List Str), (∀ n, ¬TransGen (Parent h.path) n n) →
      (∀ o, Ancestor h.path roots o → isClassImpl h.path toStringName toStringDesc o = false) →
      ForwardsToMostSpecific h.path roots [] toStringName toStringDesc := by
  intro hall
  have hforwards := hall diamond [['A'], ['B'], ['C']] diamond_acyclic fun o _ => diamond_noClass o
  have htarget : IsForwardedTo diamondPath [['A'], ['B'], ['C']] toStringName toStringDesc ['C'] :=
    isForwardedTo_diamond_C fun n => by simp [candidates_diamond]
  have hone := hforwards.1 ['C'] htarget
  rw [forwarders_eq diamond toString_mem, Option.toList_eq_singleton_iff,
    clashForwarder_eq diamond diamond_acyclic toString_mem fun o _ => diamond_noClass o] at hone
  have halways := hone.2.1
  change AlwaysLeast (isSub diamondPath)
    (candidates diamondPath [['A'], ['B'], ['C']] toStringName toStringDesc) at halways
  rw [candidates_diamond] at halways
  -- The first two have no least one.
  obtain ⟨o, ho, hleast⟩ := halways [['A'], ['B']] ⟨[['C']], rfl⟩ (by simp)
  rcases List.mem_pair.1 ho with rfl | rfl
  · exact absurd (hleast ['B'] (by simp)) (by
      simp [isSub, isSubLoop, diamondPath_A, singleton_ne_object])
  · exact absurd (hleast ['A'] (by simp)) (by
      simp [isSub, isSubLoop, diamondPath_B, singleton_ne_object])

end ScalaRs.InterfaceBridges
