import ScalaRs.ClauseSemantics

/-! # One-sided encodings with fresh variables

Variables are numbered from 1, and a conversion hands out fresh numbers and
emits clauses as it goes. `Encodes n cs n' cs' A ms` describes a stretch of it,
from `n` numbers and the clauses `cs` to `n'` numbers and `cs'`: the new clauses
require `A`, and each pair of `ms` is a literal that, when true, implies its
condition, and that may be made true whenever the condition holds. -/
namespace ScalaRs.OneSidedEncodings
open ClauseSemantics Literal

universe u v

variable {L : Type u} [Literal L ℕ] {C : Type v} [Membership L C]

abbrev Condition := (ℕ → Bool) → Prop

def Known (n : ℕ) (l : L) : Prop := 0 < var l ∧ var l ≤ n

def KnownClauses (L : Type u) [Literal L ℕ] {C : Type v} [Membership L C] (n : ℕ) (cs : List C) :
    Prop := ∀ c ∈ cs, ∀ l : L, l ∈ c → Known n l

def AgreeUpTo (n : ℕ) (σ τ : ℕ → Bool) : Prop := ∀ x ≤ n, σ x = τ x

/-- The condition reads numbers up to `n` only. -/
def UpTo (n : ℕ) (P : Condition) : Prop := ∀ σ τ, AgreeUpTo n σ τ → (P σ ↔ P τ)

structure Encodes (n : ℕ) (cs : List C) (n' : ℕ) (cs' : List C) (A : Condition)
    (ms : List (Condition × L)) : Prop where
  le : n ≤ n'
  known : KnownClauses L n' cs'
  extends_old : ∀ c ∈ cs, c ∈ cs'
  literal_known : ∀ m ∈ ms, Known n' m.2
  sound : ∀ σ, Satisfies (L := L) σ cs' → A σ ∧ ∀ m ∈ ms, Holds σ m.2 → m.1 σ
  complete : ∀ σ, Satisfies (L := L) σ cs → A σ →
    ∃ τ, AgreeUpTo n σ τ ∧ Satisfies (L := L) τ cs' ∧ ∀ m ∈ ms, m.1 σ → Holds τ m.2

theorem Known.mono {n n' : ℕ} {l : L} (h : Known n l) (hn : n ≤ n') : Known n' l :=
  ⟨h.1, h.2.trans hn⟩

theorem KnownClauses.mono {n n' : ℕ} {cs : List C} (h : KnownClauses L n cs) (hn : n ≤ n') :
    KnownClauses L n' cs := fun c hc l hl => (h c hc l hl).mono hn

theorem AgreeUpTo.refl (n : ℕ) (σ : ℕ → Bool) : AgreeUpTo n σ σ := fun _ _ => rfl

theorem AgreeUpTo.trans {n n' : ℕ} {σ τ υ : ℕ → Bool} (h : AgreeUpTo n σ τ)
    (h' : AgreeUpTo n' τ υ) (hn : n ≤ n') : AgreeUpTo n σ υ :=
  fun x hx => (h x hx).trans (h' x (hx.trans hn))

theorem AgreeUpTo.holds_iff {n : ℕ} {σ τ : ℕ → Bool} (h : AgreeUpTo n σ τ) {l : L}
    (hl : Known n l) : Holds σ l ↔ Holds τ l := by
  rw [Holds, Holds, h _ hl.2]

theorem AgreeUpTo.satisfies {n : ℕ} {σ τ : ℕ → Bool} (h : AgreeUpTo n σ τ) {cs : List C}
    (hcs : KnownClauses L n cs) (hσ : Satisfies (L := L) σ cs) : Satisfies (L := L) τ cs := by
  intro c hc
  obtain ⟨l, hl, hh⟩ := hσ c hc
  exact ⟨l, hl, (h.holds_iff (hcs c hc l hl)).mp hh⟩

theorem agreeUpTo_update {n x : ℕ} (hx : n < x) (σ : ℕ → Bool) (b : Bool) :
    AgreeUpTo n σ (Function.update σ x b) := by
  intro y hy
  rw [Function.update_of_ne (by omega)]

theorem UpTo.mono {n n' : ℕ} {P : Condition} (h : UpTo n P) (hn : n ≤ n') : UpTo n' P :=
  fun σ τ hστ => h σ τ fun x hx => hστ x (hx.trans hn)

theorem upTo_holds {n : ℕ} {l : L} (h : Known n l) : UpTo n fun σ => Holds σ l :=
  fun _ _ hστ => hστ.holds_iff h

variable {n n' n'' : ℕ} {cs cs' cs'' : List C} {A B : Condition} {ms : List (Condition × L)}

theorem Encodes.refl (h : KnownClauses L n cs) :
    Encodes n cs n cs (fun _ => True) ([] : List (Condition × L)) where
  le := le_rfl
  known := h
  extends_old _ := id
  literal_known := by simp
  sound := by simp
  complete σ hσ _ := ⟨σ, .refl n σ, hσ, by simp⟩

theorem Encodes.trans {ms' : List (Condition × L)} (h : Encodes n cs n' cs' A ms)
    (h' : Encodes n' cs' n'' cs'' B ms') (hB : UpTo n B) (hms' : ∀ m ∈ ms', UpTo n m.1) :
    Encodes n cs n'' cs'' (fun σ => A σ ∧ B σ) (ms ++ ms') where
  le := h.le.trans h'.le
  known := h'.known
  extends_old c hc := h'.extends_old c (h.extends_old c hc)
  literal_known m hm := (List.mem_append.mp hm).elim
    (fun hm => (h.literal_known m hm).mono h'.le) (h'.literal_known m)
  sound σ hσ := by
    have s := h.sound σ (hσ.sublist h'.extends_old)
    have s' := h'.sound σ hσ
    exact ⟨⟨s.1, s'.1⟩, fun m hm => (List.mem_append.mp hm).elim (s.2 m) (s'.2 m)⟩
  complete σ hσ hAB := by
    obtain ⟨τ, hτ, hsat, hm⟩ := h.complete σ hσ hAB.1
    obtain ⟨υ, hυ, hsat', hm'⟩ := h'.complete τ hsat ((hB σ τ hτ).mp hAB.2)
    refine ⟨υ, hτ.trans hυ h.le, hsat', fun m hmem hP => ?_⟩
    rcases List.mem_append.mp hmem with hmem | hmem
    · exact (hυ.holds_iff (h.literal_known m hmem)).mp (hm m hmem hP)
    · exact hm' m hmem ((hms' m hmem σ τ hτ).mp hP)

/-- Reading other conditions and literals off the same clauses. -/
theorem Encodes.weaken {ms' : List (Condition × L)} (h : Encodes n cs n' cs' A ms)
    (hknown : ∀ m ∈ ms', Known n' m.2)
    (hsound : ∀ σ, Satisfies (L := L) σ cs' → (∀ m ∈ ms, Holds σ m.2 → m.1 σ) →
      ∀ m ∈ ms', Holds σ m.2 → m.1 σ)
    (hcomplete : ∀ σ τ, AgreeUpTo n σ τ → Satisfies (L := L) τ cs' →
      (∀ m ∈ ms, m.1 σ → Holds τ m.2) → ∀ m ∈ ms', m.1 σ → Holds τ m.2) :
    Encodes n cs n' cs' A ms' where
  le := h.le
  known := h.known
  extends_old := h.extends_old
  literal_known := hknown
  sound σ hσ := ⟨(h.sound σ hσ).1, hsound σ hσ (h.sound σ hσ).2⟩
  complete σ hσ hA := by
    obtain ⟨τ, hτ, hsat, hm⟩ := h.complete σ hσ hA
    exact ⟨τ, hτ, hsat, hcomplete σ τ hτ hsat hm⟩

/-- More clauses over the known variables. -/
theorem Encodes.require (h : Encodes n cs n' cs' A ms) {ds : List C}
    (hds : KnownClauses L n' ds) (hBA : ∀ σ, B σ → A σ)
    (hsound : ∀ σ, A σ → (∀ m ∈ ms, Holds σ m.2 → m.1 σ) → Satisfies (L := L) σ ds → B σ)
    (hcomplete : ∀ σ τ, AgreeUpTo n σ τ → B σ → (∀ m ∈ ms, m.1 σ → Holds τ m.2) →
      Satisfies (L := L) τ ds) :
    Encodes n cs n' (cs' ++ ds) B ms where
  le := h.le
  known c hc := (List.mem_append.mp hc).elim (h.known c) (hds c)
  extends_old c hc := List.mem_append_left ds (h.extends_old c hc)
  literal_known := h.literal_known
  sound σ hσ := by
    obtain ⟨hA, hm⟩ := h.sound σ (satisfies_append.mp hσ).1
    exact ⟨hsound σ hA hm (satisfies_append.mp hσ).2, hm⟩
  complete σ hσ hB := by
    obtain ⟨τ, hτ, hsat, hm⟩ := h.complete σ hσ (hBA σ hB)
    exact ⟨τ, hτ, satisfies_append.mpr ⟨hsat, hcomplete σ τ hτ hB hm⟩, hm⟩

/-- A fresh variable, and clauses that make the literal `o` of it stand for `P`. -/
theorem Encodes.define (h : Encodes n cs n' cs' A ms) {ds : List C} {o : L} {P : Condition}
    (ho : var o = n' + 1) (hds : KnownClauses L (n' + 1) ds) (hBA : ∀ σ, B σ → A σ)
    (hsound : ∀ σ, A σ → (∀ m ∈ ms, Holds σ m.2 → m.1 σ) → Satisfies (L := L) σ cs' →
      Satisfies (L := L) σ ds → B σ ∧ (Holds σ o → P σ))
    (hcomplete : ∀ σ τ, B σ → (∀ m ∈ ms, m.1 σ → Holds τ m.2) → AgreeUpTo n σ τ →
      Satisfies (L := L) τ cs' → (Holds τ o ↔ P σ) → Satisfies (L := L) τ ds) :
    Encodes n cs (n' + 1) (cs' ++ ds) B ((P, o) :: ms) where
  le := h.le.trans (Nat.le_succ n')
  known c hc := (List.mem_append.mp hc).elim
    (fun hc l hl => (h.known c hc l hl).mono (Nat.le_succ n')) (hds c)
  extends_old c hc := List.mem_append_left ds (h.extends_old c hc)
  literal_known := List.forall_mem_cons.mpr ⟨by simp [Known, ho],
    fun m hm => (h.literal_known m hm).mono (Nat.le_succ n')⟩
  sound σ hσ := by
    obtain ⟨hold, hnew⟩ := satisfies_append.mp hσ
    obtain ⟨hA, hm⟩ := h.sound σ hold
    obtain ⟨hB, hP⟩ := hsound σ hA hm hold hnew
    exact ⟨hB, List.forall_mem_cons.mpr ⟨hP, hm⟩⟩
  complete σ hσ hB := by
    classical
    obtain ⟨τ, hτ, hsat, hm⟩ := h.complete σ hσ (hBA σ hB)
    let υ := Function.update τ (n' + 1) (if P σ then pos o else !pos o)
    have hτυ : AgreeUpTo n' τ υ := agreeUpTo_update (Nat.lt_succ_self n') τ _
    have hυo : Holds υ o ↔ P σ := by
      simp only [Holds, ho, υ, Function.update_self]
      split <;> simp_all
    have hmυ : ∀ m ∈ ms, m.1 σ → Holds υ m.2 := fun m hmem hP =>
      (hτυ.holds_iff (h.literal_known m hmem)).mp (hm m hmem hP)
    have hold := hτυ.satisfies h.known hsat
    have hnew := hcomplete σ υ hB hmυ (hτ.trans hτυ h.le) hold hυo
    exact ⟨υ, hτ.trans hτυ h.le, satisfies_append.mpr ⟨hold, hnew⟩,
      List.forall_mem_cons.mpr ⟨hυo.mpr, hmυ⟩⟩

end ScalaRs.OneSidedEncodings
