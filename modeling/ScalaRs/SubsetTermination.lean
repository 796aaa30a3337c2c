import ScalaRs.FiniteWalks
import ScalaRs.SubsetClass

/-! # When the subset unpickler ends

The walks along names and along clauses have no depth. They end exactly if the
references they follow run into no cycle, and `unpickle` ends exactly if each of
these walks that it takes does. -/
namespace ScalaRs.Pickling.Subset

open FiniteWalks QueryPrograms StateTransition WhileLoops

instance : Finite Idx := Finite.of_injective UInt32.toFin fun _ _ => UInt32.toFin_inj.mp

section Walks

variable (entries : List Entry)

/-- The reference `name_of` follows. -/
def nameStep (i : Idx) : Option Idx :=
  match entries[i.toNat]? with
  | some (.ExtRef name _) | some (.TypeSym name _ _ _) | some (.ClassSym name _ _ _)
  | some (.ModuleSym name _ _) | some (.ValSym name _ _ _) => some name
  | _ => none

/-- The result of a clause. -/
def clauseStep (i : Idx) : Option Idx :=
  match entries[i.toNat]? with
  | some (.MethodTpe next _) => some next
  | _ => none

/-- The references a walk follows do not lead back to one of them. -/
def Query.Acyclic : Query → Prop
  | name i => ¬ Cycles (nameStep entries) i
  | clauses c => ¬ Cycles (clauseStep entries) c.ret

theorem name_ends_iff (i : Idx) :
    (∃ n s, run (nameBody entries) n i = some s) ↔ ¬ Cycles (nameStep entries) i := by
  rw [← ends_iff]
  apply @run_ends_iff _ (nameStep entries) _ _ (nameBody entries) id
  · intro i h
    simp only [nameBody] at h
    split at h <;> cases h
  · intro i next h
    simp only [nameBody] at h
    simp only [nameStep, id]
    generalize entries[i.toNat]? = entry at h ⊢
    cases entry with
    | none => cases h
    | some e => cases e <;> cases h <;> rfl
  · intro i s h
    simp only [nameBody] at h
    simp only [nameStep, id]
    generalize entries[i.toNat]? = entry at h ⊢
    cases entry with
    | none => rfl
    | some e => cases e <;> cases h <;> rfl

theorem clauses_end_iff (c : Clauses) :
    (∃ n r, run (clauseBody entries) n c = some r) ↔ ¬ Cycles (clauseStep entries) c.ret := by
  rw [← ends_iff]
  apply @run_ends_iff _ (clauseStep entries) _ _ (clauseBody entries) Clauses.ret
  · intro c h
    simp only [clauseBody] at h
    split at h <;> cases h
  · intro c next h
    simp only [clauseBody] at h
    simp only [clauseStep]
    generalize entries[c.ret.toNat]? = entry at h ⊢
    cases entry with
    | none => cases h
    | some e => cases e <;> cases h <;> rfl
  · intro c r h
    simp only [clauseBody] at h
    simp only [clauseStep]
    generalize entries[c.ret.toNat]? = entry at h ⊢
    cases entry with
    | none => rfl
    | some e => cases e <;> cases h <;> rfl

/-- The answers of both walks, which more fuel does not change. -/
def answers : Program.Answers Query Query.Answer where
  find := answer entries
  mono := by
    intro n m q a hnm h
    cases q with
    | name i => exact run_mono hnm h
    | clauses c => exact run_mono hnm h

theorem answers_ends_iff (q : Query) : (answers entries).Ends q ↔ q.Acyclic entries := by
  cases q with
  | name i => exact name_ends_iff entries i
  | clauses c => exact clauses_end_iff entries c

end Walks

/-! ## The class -/

theorem readClass_ends_iff (entries : List Entry) :
    (∃ fuel c, (readClass entries).run (answer entries fuel) = some c) ↔
      ∀ q, Program.Asks (answers entries) (readClass entries) q → q.Acyclic entries := by
  have h := @Program.run_ends_iff _ _ _ (answers entries) (readClass entries)
  simp only [answers_ends_iff] at h
  exact h

theorem unpickle_terminates_iff (bytes : List UInt8) :
    (∃ fuel c, unpickle fuel bytes = some c) ↔
      ∀ entries, unpickleEntries bytes = some entries →
        ∀ q, Program.Asks (answers entries) (readClass entries) q → q.Acyclic entries := by
  cases hread : unpickleEntries bytes with
  | none =>
    constructor
    · intro _ entries h
      cases h
    · intro _
      refine ⟨0, none, ?_⟩
      rw [unpickle, hread]
  | some entries =>
    have hends := readClass_ends_iff entries
    simp only [unpickle, hread, Option.some.injEq, forall_eq']
    exact hends

/-- No cycle among names, and none among clauses: whatever the class is, it is read. -/
theorem unpickle_terminates_of_no_cycle {bytes : List UInt8} {entries : List Entry}
    (hread : unpickleEntries bytes = some entries)
    (hnames : ∀ i, ¬ Reaches₁ (nameStep entries) i i)
    (hclauses : ∀ i, ¬ Reaches₁ (clauseStep entries) i i) :
    ∃ fuel c, unpickle fuel bytes = some c := by
  simp only [unpickle, hread]
  apply (readClass_ends_iff entries).mpr
  intro q _
  cases q with
  | name i =>
    intro hcycles
    obtain ⟨j, _, hcycle⟩ := hcycles
    exact hnames j hcycle
  | clauses c =>
    intro hcycles
    obtain ⟨j, _, hcycle⟩ := hcycles
    exact hclauses j hcycle

/-- A class that is its own name is never read. -/
theorem self_named_class_runs_forever : ¬ ∀ bytes, ∃ fuel c, unpickle fuel bytes = some c := by
  intro h
  have hread : unpickleEntries [5, 0, 1, 6, 5, 0, 0, 0, 0, 0] = some [.ClassSym 0 0 0 0] := by
    decide +kernel
  have hends := h [5, 0, 1, 6, 5, 0, 0, 0, 0, 0]
  simp only [unpickle, hread] at hends
  have hname : Query.Acyclic [.ClassSym 0 0 0 0] (.name 0) :=
    (readClass_ends_iff _).mp hends (.name 0) .here
  exact hname ⟨0, .refl, .single rfl⟩

end ScalaRs.Pickling.Subset
