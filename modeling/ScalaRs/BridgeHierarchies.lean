import Mathlib.Data.Finset.Card
import ScalaRs.Explorations
import ScalaRs.InterfaceBridges

/-! # Hierarchies of class files

In a hierarchy of at most 512 classes neither search is cut off, so `isSub` is the sub-type relation
and `closure` has all super-types. -/
namespace ScalaRs.InterfaceBridges
open Relation Explorations

/-- A hierarchy with the names that occur in it, as classes or as parents. -/
structure Hierarchy where
  path : BinaryPath
  names : Finset Str
  named : ∀ n i, path n = some i → n ∈ names ∧ ∀ s ∈ i.supers, s ∈ names
  card_le : names.card ≤ 512

def Parent (path : BinaryPath) (n s : Str) : Prop := ∃ i, path n = some i ∧ s ∈ i.supers

/-- Everything is a sub-type of `Object`. -/
def Subtype' (path : BinaryPath) (a b : Str) : Prop := b = object ∨ ReflTransGen (Parent path) a b

/-- A parent apart from `Object`. -/
def Above (path : BinaryPath) (a b : Str) : Prop := b ≠ object ∧ Parent path a b

/-- A class on the path that is a root or above one. -/
def Ancestor (path : BinaryPath) (roots : List Str) (n : Str) : Prop :=
  (path n).isSome ∧ ∃ r ∈ roots, r ≠ object ∧ ReflTransGen (Above path) r n

variable (h : Hierarchy)

theorem parent_of_some {path : BinaryPath} {n : Str} {i : Info} (hi : path n = some i) (s : Str) :
    Parent path n s ↔ s ∈ i.supers := by
  constructor
  · intro hs
    obtain ⟨j, hj, hmem⟩ := hs
    exact Option.some.inj (hj.symm.trans hi) ▸ hmem
  · intro hs
    exact ⟨i, hi, hs⟩

theorem not_parent_of_none {path : BinaryPath} {n : Str} (hi : path n = none) (s : Str) :
    ¬Parent path n s := by
  intro hs
  obtain ⟨j, hj, -⟩ := hs
  exact absurd (hi.symm.trans hj) (by simp)

theorem length_le_names {seen : List Str} (hnodup : seen.Nodup) (hnames : ∀ n ∈ seen, n ∈ h.names) :
    seen.length ≤ 512 := by
  rw [← List.toFinset_card_of_nodup hnodup]
  apply (Finset.card_le_card _).trans h.card_le
  intro n hn
  exact hnames n (List.mem_toFinset.1 hn)

theorem forall_visited {n : Str} {seen queue queue' : List Str}
    (hnames : ∀ m, m ∈ seen ∨ m ∈ n :: queue → m ∈ h.names)
    (hqueue : ∀ m ∈ queue', m ∈ queue ∨ Parent h.path n m) :
    ∀ m, m ∈ n :: seen ∨ m ∈ queue' → m ∈ h.names := by
  intro m hm
  rcases hm with hm | hm
  · rcases List.mem_cons.1 hm with rfl | hm
    · exact hnames m (.inr List.mem_cons_self)
    · exact hnames m (.inl hm)
  · rcases hqueue m hm with hm | ⟨i, hi, hm⟩
    · exact hnames m (.inr (List.mem_cons_of_mem n hm))
    · exact (h.named n i hi).2 m hm

/-- The loop finds out whether a parent of something above `a` is `b`. -/
theorem isSubLoop_iff {a b : Str} {seen stack : List Str}
    (hsearch : Exploration (Parent h.path) [a] seen stack) (hnodup : seen.Nodup)
    (hnames : ∀ n, n ∈ seen ∨ n ∈ stack → n ∈ h.names) (hb : ∀ n ∈ seen, ¬Parent h.path n b) :
    isSubLoop h.path b seen stack = true ↔
      ∃ n, ReflTransGen (Parent h.path) a n ∧ Parent h.path n b := by
  fun_induction isSubLoop h.path b seen stack with
  | case1 seen =>
      constructor
      · intro hfalse
        exact absurd hfalse (by simp)
      · intro hn
        obtain ⟨n, hreach, hstep⟩ := hn
        exact absurd hstep (hb n (hsearch.mem_seen_iff.2 ⟨a, List.mem_cons_self, hreach⟩))
  | case2 seen n stack hn ih =>
      exact ih (hsearch.skip hn) hnodup
        (fun m hm => hnames m (hm.imp_right (List.mem_cons_of_mem n))) hb
  | case3 seen n stack hn hmany ih =>
      -- There are not that many names.
      have hcons := forall_visited h hnames fun m hm => Or.inl hm
      have hlength := length_le_names h (List.nodup_cons.2 ⟨hn, hnodup⟩) fun m hm => hcons m (.inl hm)
      rw [List.length_cons] at hlength
      omega
  | case4 seen n stack hn hfew hi ih =>
      have hno := not_parent_of_none hi
      have hqueue : ∀ m, m ∈ stack ↔ m ∈ stack ∨ Parent h.path n m := fun m =>
        ⟨.inl, fun hm => hm.resolve_right (hno m)⟩
      apply ih (hsearch.visit hqueue) (List.nodup_cons.2 ⟨hn, hnodup⟩)
      · exact forall_visited h hnames fun m => (hqueue m).1
      · exact List.forall_mem_cons.2 ⟨hno b, hb⟩
  | case5 seen n stack hn hfew i hi hmem =>
      obtain ⟨r, hr, hreach⟩ := hsearch.reached n (.inr List.mem_cons_self)
      rw [List.mem_singleton.1 hr] at hreach
      exact ⟨fun _ => ⟨n, hreach, (parent_of_some hi b).2 hmem⟩, fun _ => rfl⟩
  | case6 seen n stack hn hfew i hi hmem ih =>
      have hqueue : ∀ m, m ∈ i.supers.reverse ++ stack ↔ m ∈ stack ∨ Parent h.path n m := by
        intro m
        rw [parent_of_some hi, List.mem_append, List.mem_reverse, or_comm]
      apply ih (hsearch.visit hqueue) (List.nodup_cons.2 ⟨hn, hnodup⟩)
      · exact forall_visited h hnames fun m => (hqueue m).1
      · exact List.forall_mem_cons.2 ⟨fun hp => hmem ((parent_of_some hi b).1 hp), hb⟩

theorem isSub_iff (a b : Str) : isSub h.path a b = true ↔ Subtype' h.path a b := by
  rw [isSub, Subtype']
  split
  · next heq =>
    rcases heq with rfl | rfl
    · exact ⟨fun _ => .inr .refl, fun _ => rfl⟩
    · exact ⟨fun _ => .inl rfl, fun _ => rfl⟩
  · next hne =>
    rw [not_or] at hne
    -- A proper sub-type has a parent that is one.
    have hsplit : (b = object ∨ ReflTransGen (Parent h.path) a b) ↔
        ∃ n, ReflTransGen (Parent h.path) a n ∧ Parent h.path n b := by
      constructor
      · intro hsub
        rcases (hsub.resolve_left hne.2).cases_tail with heq | hlast
        · exact absurd heq.symm hne.1
        · exact hlast
      · intro hn
        obtain ⟨n, hreach, hstep⟩ := hn
        exact .inr (hreach.tail hstep)
    rw [hsplit]
    cases ha : h.path a with
    | none =>
        have hno : ∀ n, ReflTransGen (Parent h.path) a n → n = a := by
          intro n hn
          rcases hn.cases_head with heq | ⟨m, hm, -⟩
          · exact heq.symm
          · exact absurd hm (not_parent_of_none ha m)
        have hfalse : isSubLoop h.path b [] [a] = false := by
          simp [isSubLoop, ha]
        rw [hfalse]
        constructor
        · intro htrue
          exact absurd htrue (by simp)
        · intro hn
          obtain ⟨n, hreach, hstep⟩ := hn
          exact absurd hstep (hno n hreach ▸ not_parent_of_none ha b)
    | some i =>
        apply isSubLoop_iff h (.start [a]) List.nodup_nil
        · intro n hn
          have hmem : n = a := by simpa using hn
          exact hmem ▸ (h.named a i ha).1
        · intro n hn
          exact absurd hn List.not_mem_nil

/-! ## The closure -/

/-- What is left of a queue without `Object`. -/
def realNodes (queue : List Str) : List Str := queue.filter fun n => decide (n ≠ object)

theorem mem_realNodes {queue : List Str} {n : Str} : n ∈ realNodes queue ↔ n ∈ queue ∧ n ≠ object := by
  simp [realNodes]

theorem realNodes_cons {n : Str} (hn : n ≠ object) (queue : List Str) :
    realNodes (n :: queue) = n :: realNodes queue := by
  simp [realNodes, hn]

/-- The loop ends with the classes that were seen and are on the path. -/
theorem closureLoop_spec {roots seen out queue : List Str}
    (hsearch : Exploration (Above h.path) roots seen (realNodes queue))
    (hout : ∀ n, n ∈ out ↔ n ∈ seen ∧ (h.path n).isSome = true) (hnodup : out.Nodup) :
    (closureLoop h.path seen out queue).Nodup ∧ ∀ n, n ∈ closureLoop h.path seen out queue ↔
      (h.path n).isSome ∧ ∃ r ∈ roots, ReflTransGen (Above h.path) r n := by
  fun_induction closureLoop h.path seen out queue with
  | case1 seen out =>
      refine ⟨hnodup, fun n => ?_⟩
      rw [hout n, and_comm, hsearch.mem_seen_iff]
  | case2 seen out n queue hmany =>
      have hlength := length_le_names h hnodup fun m hm => by
        obtain ⟨i, hi⟩ := Option.isSome_iff_exists.1 ((hout m).1 hm).2
        exact (h.named m i hi).1
      omega
  | case3 seen out n queue hfew hskip ih =>
      apply ih _ hout hnodup
      by_cases hn : n = object
      · simpa [realNodes, hn] using hsearch
      · rw [realNodes_cons hn] at hsearch
        exact hsearch.skip (hskip.resolve_left hn)
  | case4 seen out n queue hfew hnew hi ih =>
      rw [not_or] at hnew
      rw [realNodes_cons hnew.1] at hsearch
      apply ih _ _ hnodup
      · apply hsearch.visit
        intro m
        exact ⟨.inl, fun hm => hm.resolve_right fun habove => not_parent_of_none hi m habove.2⟩
      · intro m
        rw [hout m, List.mem_cons]
        constructor
        · intro hm
          exact ⟨.inr hm.1, hm.2⟩
        · intro hm
          refine ⟨hm.1.resolve_left fun heq => ?_, hm.2⟩
          exact absurd hm.2 (by simp [heq, hi])
  | case5 seen out n queue hfew hnew i hi ih =>
      rw [not_or] at hnew
      rw [realNodes_cons hnew.1] at hsearch
      apply ih
      · apply hsearch.visit
        intro m
        rw [Above, parent_of_some hi, mem_realNodes, mem_realNodes, List.mem_append, or_and_right,
          and_comm (a := m ≠ object)]
      · intro m
        rw [List.mem_append, hout m, List.mem_singleton, List.mem_cons, or_and_right, or_comm]
        apply or_congr_left
        constructor
        · intro heq
          exact ⟨heq, by simp [heq, hi]⟩
        · intro hm
          exact hm.1
      · rw [← List.concat_eq_append, List.nodup_concat]
        exact ⟨fun hn => hnew.2 ((hout n).1 hn).1, hnodup⟩

theorem nodup_closure (roots : List Str) : (closure h.path roots).Nodup ∧
    ∀ n, n ∈ closure h.path roots ↔ Ancestor h.path roots n := by
  have hspec := @closureLoop_spec h (realNodes roots) [] [] roots (.start (realNodes roots))
    (fun n => by simp) List.nodup_nil
  refine ⟨hspec.1, fun n => ?_⟩
  rw [closure, hspec.2 n, Ancestor]
  apply and_congr_right
  intro _
  apply exists_congr
  intro r
  rw [mem_realNodes, and_assoc]

theorem mem_closure {roots : List Str} {n : Str} :
    n ∈ closure h.path roots ↔ Ancestor h.path roots n := (nodup_closure h roots).2 n

end ScalaRs.InterfaceBridges
