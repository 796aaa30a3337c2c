import ScalaRs.ClauseSemantics
import ScalaRs.ScalaSets

/-! # Literals and clauses of the match analysis

A literal is a possibly negated variable number. `i32` is an unbounded integer
here: the numbers are counters from 1, and only `i32::MIN`, which is no
numbered variable's literal, has no negation in the source. -/
namespace ScalaRs.Patmat
open ClauseSemantics ScalaSets

structure Lit where
  v : ℤ
  deriving DecidableEq, Repr

namespace Lit

def neg (l : Lit) : Lit := ⟨-l.v⟩

def var (l : Lit) : ℕ := l.v.natAbs

def positive (l : Lit) : Bool := 0 ≤ l.v

@[simp] theorem var_neg (l : Lit) : l.neg.var = l.var := by simp [var, neg]

@[simp] theorem neg_neg (l : Lit) : l.neg.neg = l := by simp [neg]

@[simp] theorem neg_v (l : Lit) : l.neg.v = -l.v := rfl

/-- The literal numbered `i + 1`. -/
@[simp] theorem var_succ (i : ℕ) : (⟨(i : ℤ) + 1⟩ : Lit).var = i + 1 := by
  simp only [var]
  omega

@[simp] theorem positive_succ (i : ℕ) : (⟨(i : ℤ) + 1⟩ : Lit).positive = true := by
  simp only [positive, decide_eq_true_eq]
  omega

theorem positive_neg {l : Lit} (h : l.v ≠ 0) : l.neg.positive = !l.positive := by
  unfold positive neg
  by_cases hl : 0 ≤ l.v <;> simp [hl] <;> omega

theorem neg_ne {l : Lit} (h : l.v ≠ 0) : l.neg ≠ l := by
  intro he
  have : -l.v = l.v := congrArg Lit.v he
  omega

theorem eq_of_var_positive {a b : Lit} (hv : a.var = b.var) (hp : a.positive = b.positive) :
    a = b := by
  obtain ⟨x⟩ := a
  obtain ⟨y⟩ := b
  simp only [var, positive, decide_eq_decide] at hv hp
  congr
  omega

end Lit

instance : Literal Lit ℕ := ⟨Lit.var, Lit.positive, fun _ _ => Lit.eq_of_var_positive⟩

@[simp] theorem literal_var (l : Lit) : Literal.var l = l.var := rfl

@[simp] theorem literal_pos (l : Lit) : Literal.pos l = l.positive := rfl

theorem opposite_neg {l : Lit} (h : l.v ≠ 0) : Opposite l l.neg :=
  ⟨l.var_neg.symm, Lit.positive_neg h⟩

theorem opposite_iff {l : Lit} (h : l.v ≠ 0) (x : Lit) : Opposite l x ↔ x = l.neg := by
  constructor
  · rintro ⟨hv, hp⟩
    refine Lit.eq_of_var_positive (by simpa using hv.symm) ?_
    rw [Lit.positive_neg h]
    exact hp
  · rintro rfl
    exact opposite_neg h

theorem holds_neg {l : Lit} (h : l.v ≠ 0) (σ : ℕ → Bool) : Holds σ l.neg ↔ ¬ Holds σ l :=
  (opposite_neg h).holds_iff σ

/-- `override def hashCode = v`. -/
instance : ScalaHash Lit := ⟨fun l => BitVec.ofInt 32 l.v⟩

abbrev Clause := ScalaSet Lit

def clause1 (l : Lit) : Clause := ScalaSet.empty.incl l

def clause2 (a b : Lit) : Clause := (ScalaSet.empty.incl a).incl b

@[simp] theorem mem_clause1 (l x : Lit) : x ∈ clause1 l ↔ x = l := by simp [clause1]

@[simp] theorem mem_clause2 (a b x : Lit) : x ∈ clause2 a b ↔ x = b ∨ x = a := by
  simp [clause2]

@[simp] theorem clause1_len (l : Lit) : (clause1 l).len = 1 := rfl

/-- Every literal of every clause names a variable. -/
def NonZero (cs : List Clause) : Prop := ∀ c ∈ cs, ∀ l ∈ c, l.v ≠ 0

theorem NonZero.sublist {cs ds : List Clause} (h : NonZero cs) (hsub : ∀ c ∈ ds, c ∈ cs) :
    NonZero ds := fun c hc => h c (hsub c hc)

example : (ScalaSet.fromIter ([-1, -2, 3, 7, 12, 40].map Lit.mk)).elems =
    [12, 7, 3, -1, 40, -2].map Lit.mk := by decide

end ScalaRs.Patmat
