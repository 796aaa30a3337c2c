import Mathlib.Data.Fintype.Card
import Mathlib.Data.Set.Finite.Lemmas

/-! # Ways through a graph that end

Each node has a list of next nodes. Where only finitely many nodes have a next one,
all ways from a node end if and only if none of them comes back to where it was. -/
namespace BranchingGraphs
open Relation

variable {α : Type} (next : α → List α)

/-- Every way from the node ends within that many nodes. -/
def Within : ℕ → α → Prop
  | 0, _ => False
  | n + 1, a => ∀ b ∈ next a, Within n b

def Follows (a b : α) : Prop := b ∈ next a

/-- No way from the node comes to a node that leads back to itself. -/
def Acyclic (a : α) : Prop :=
  ∀ b, ReflTransGen (Follows next) a b → ¬ TransGen (Follows next) b b

variable {next}

theorem Within.succ {n : ℕ} {a : α} (h : Within next n a) : Within next (n + 1) a := by
  induction n generalizing a with
  | zero => exact h.elim
  | succ n ih => exact fun b hb => ih (h b hb)

theorem Within.mono {n m : ℕ} (hnm : n ≤ m) {a : α} (h : Within next n a) : Within next m a := by
  induction hnm with
  | refl => exact h
  | step _ ih => exact ih.succ

theorem Within.of_transGen {n : ℕ} {a b : α} (h : Within next n a)
    (hab : TransGen (Follows next) a b) : ∃ m < n, Within next m b := by
  induction hab with
  | single hb =>
      cases n with
      | zero => exact h.elim
      | succ n => exact ⟨n, n.lt_succ_self, h _ hb⟩
  | tail _ hc ih =>
      obtain ⟨m, hm, hb⟩ := ih
      cases m with
      | zero => exact hb.elim
      | succ m => exact ⟨m, by omega, hb _ hc⟩

theorem Within.not_cycle {n : ℕ} {a : α} (h : Within next n a) :
    ¬ TransGen (Follows next) a a := by
  intro hcycle
  induction n using Nat.strong_induction_on with
  | _ n ih =>
      obtain ⟨m, hm, hback⟩ := h.of_transGen hcycle
      exact ih m hm hback

theorem Within.acyclic {n : ℕ} {a : α} (h : Within next n a) : Acyclic next a := by
  intro b hab
  cases (reflTransGen_iff_eq_or_transGen.mp hab) with
  | inl heq =>
      subst heq
      exact h.not_cycle
  | inr htrans =>
      obtain ⟨m, -, hb⟩ := h.of_transGen htrans
      exact hb.not_cycle

theorem Acyclic.of_mem {a b : α} (h : Acyclic next a) (hb : b ∈ next a) : Acyclic next b :=
  fun c hc => h c (.head hb hc)

/-- A bound for each of finitely many nodes gives one for all of them. -/
theorem exists_within_forall {l : List α} (h : ∀ b ∈ l, ∃ n, Within next n b) :
    ∃ n, ∀ b ∈ l, Within next n b := by
  induction l with
  | nil => exact ⟨0, fun b hb => absurd hb List.not_mem_nil⟩
  | cons a l ih =>
      obtain ⟨n, hn⟩ := h a List.mem_cons_self
      obtain ⟨m, hm⟩ := ih fun b hb => h b (List.mem_cons_of_mem a hb)
      refine ⟨max n m, List.forall_mem_cons.2 ⟨hn.mono (le_max_left n m), ?_⟩⟩
      exact fun b hb => (hm b hb).mono (le_max_right n m)

theorem exists_within_of_acc {a : α} (h : Acc (fun b a => b ∈ next a) a) :
    ∃ n, Within next n a := by
  induction h with
  | intro a _ ih =>
      obtain ⟨n, hn⟩ := exists_within_forall ih
      exact ⟨n + 1, hn⟩

/-- Only these nodes have a next one. -/
def Inner (next : α → List α) (nodes : List α) : Prop := ∀ a, next a ≠ [] → a ∈ nodes

/-- Along finitely many inner nodes a way that never comes back ends. -/
theorem acc_of_acyclic {nodes : List α} (hinner : Inner next nodes) {a : α}
    (h : Acyclic next a) : Acc (fun b a => b ∈ next a) a := by
  let below (x y : {b // b ∈ nodes ∧ Acyclic next b}) : Prop :=
    TransGen (Follows next) y.1 x.1
  have hfinite : Finite {b // b ∈ nodes ∧ Acyclic next b} :=
    (nodes.finite_toSet.subset fun b hb => hb.1).to_subtype
  have htrans : IsTrans _ below := ⟨fun _ _ _ hxy hyz => hyz.trans hxy⟩
  have hirrefl : Std.Irrefl below := ⟨fun x hx => x.2.2 x.1 .refl hx⟩
  have hwf : WellFounded below := Finite.wellFounded_of_trans_of_irrefl below
  have hall : ∀ x : {b // b ∈ nodes ∧ Acyclic next b}, Acc (fun b a => b ∈ next a) x.1 := by
    intro x
    induction x using hwf.induction with
    | _ x ih =>
        constructor
        intro b hb
        by_cases hnone : next b = []
        · constructor
          intro c hc
          rw [hnone] at hc
          exact absurd hc List.not_mem_nil
        · exact ih ⟨b, hinner b hnone, x.2.2.of_mem hb⟩ (.single hb)
  by_cases hnone : next a = []
  · constructor
    intro c hc
    rw [hnone] at hc
    exact absurd hc List.not_mem_nil
  · exact hall ⟨a, hinner a hnone, h⟩

/-- All ways end within some bound if and only if none comes back. -/
theorem exists_within_iff {nodes : List α} (hinner : Inner next nodes) {a : α} :
    (∃ n, Within next n a) ↔ Acyclic next a := by
  constructor
  · intro h
    obtain ⟨n, hn⟩ := h
    exact hn.acyclic
  · intro h
    exact exists_within_of_acc (acc_of_acyclic hinner h)

end BranchingGraphs
