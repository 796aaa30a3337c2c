import Mathlib.Order.Defs.Unbundled
import Mathlib.Data.Nat.Notation

/-! # Readers that fail or panic

A reader moves a state along. It ends with a value, with an error that it
reports, or with a panic: an overflow, a shift by too much, an index out of
range. -/
namespace CheckedReaders

universe u

inductive Stop (ε : Type u) : Type u
  | error (e : ε)
  | panic

abbrev CheckedM (σ ε : Type u) : Type u → Type u := StateT σ (Except (Stop ε))

variable {σ ε α β γ : Type u}

/-- Whether arithmetic is checked for overflow, as in a debug build, or wraps
around, as in a release build. -/
class Build where
  overflowChecks : Bool

namespace CheckedM

def fail (e : ε) : CheckedM σ ε α := fun _ => .error (.error e)

def panics : CheckedM σ ε α := fun _ => .error .panic

theorem pure_apply (a : α) (s : σ) : (pure a : CheckedM σ ε α) s = .ok (a, s) := rfl

theorem get_apply (s : σ) : (get : CheckedM σ ε σ) s = .ok (s, s) := rfl

theorem bind_of_ok {p : CheckedM σ ε α} {f : α → CheckedM σ ε β} {s s' : σ} {a : α}
    (h : p s = .ok (a, s')) : (p >>= f) s = f a s' := by
  change (p s >>= fun r => f r.1 r.2) = f a s'
  rw [h]
  rfl

theorem bind_of_run {p : CheckedM σ ε α} {f : α → CheckedM σ ε β} {s : σ} {r : α × σ}
    (h : p s = .ok r) : (p >>= f) s = f r.1 r.2 := bind_of_ok h

theorem bind_of_error {p : CheckedM σ ε α} {f : α → CheckedM σ ε β} {s : σ} {e : Stop ε}
    (h : p s = .error e) : (p >>= f) s = .error e := by
  change (p s >>= fun r => f r.1 r.2) = .error e
  rw [h]
  rfl

@[simp] theorem pure_bind_apply (a : α) (f : α → CheckedM σ ε β) (s : σ) :
    (pure a >>= f) s = f a s := rfl

@[simp] theorem get_bind_apply (f : σ → CheckedM σ ε β) (s : σ) : (get >>= f) s = f s s := rfl

@[simp] theorem set_bind_apply (s' : σ) (f : PUnit → CheckedM σ ε β) (s : σ) :
    (set s' >>= f) s = f ⟨⟩ s' := rfl

@[simp] theorem modify_bind_apply (g : σ → σ) (f : PUnit → CheckedM σ ε β) (s : σ) :
    (modify g >>= f) s = f ⟨⟩ (g s) := rfl

theorem bind_eq_ok {p : CheckedM σ ε α} {f : α → CheckedM σ ε β} {s : σ} {r : β × σ}
    (h : (p >>= f) s = .ok r) : ∃ a s', p s = .ok (a, s') ∧ f a s' = .ok r := by
  cases hp : p s with
  | error e =>
    rw [bind_of_error hp] at h
    cases h
  | ok r' =>
    rw [bind_of_run hp] at h
    exact ⟨r'.1, r'.2, rfl, h⟩

theorem bind_eq_panic {p : CheckedM σ ε α} {f : α → CheckedM σ ε β} {s : σ}
    (h : (p >>= f) s = .error .panic) :
    p s = .error .panic ∨ ∃ a s', p s = .ok (a, s') ∧ f a s' = .error .panic := by
  cases hp : p s with
  | error e =>
    rw [bind_of_error hp] at h
    cases h
    exact .inl rfl
  | ok r =>
    rw [bind_of_run hp] at h
    exact .inr ⟨r.1, r.2, rfl, h⟩

theorem map_eq_ok {p : CheckedM σ ε α} {f : α → β} {s s' : σ} {b : β}
    (h : (f <$> p) s = .ok (b, s')) : ∃ a, p s = .ok (a, s') ∧ f a = b := by
  obtain ⟨a, s'', hp, hf⟩ := bind_eq_ok (f := fun a => pure (f a)) h
  cases hf
  exact ⟨a, hp, rfl⟩

theorem map_of_ok {p : CheckedM σ ε α} {f : α → β} {s s' : σ} {a : α}
    (h : p s = .ok (a, s')) : (f <$> p) s = .ok (f a, s') :=
  bind_of_ok (f := fun a => pure (f a)) h

theorem bind_congr_ok {p : CheckedM σ ε α} {f g : α → CheckedM σ ε β} {s : σ}
    (h : ∀ a s', p s = .ok (a, s') → f a s' = g a s') : (p >>= f) s = (p >>= g) s := by
  cases hp : p s with
  | error e => rw [bind_of_error hp, bind_of_error hp]
  | ok r => rw [bind_of_run hp, bind_of_run hp,
      h r.1 r.2 hp]

theorem map_of_error {p : CheckedM σ ε α} {f : α → β} {s : σ} {e : Stop ε}
    (h : p s = .error e) : (f <$> p) s = .error e := bind_of_error (f := fun a => pure (f a)) h

theorem map_congr {p q : CheckedM σ ε α} {f : α → β} {s : σ} (h : p s = q s) :
    (f <$> p) s = (f <$> q) s := by
  change (p s >>= fun r => (pure (f r.1) : CheckedM σ ε β) r.2) =
    (q s >>= fun r => (pure (f r.1) : CheckedM σ ε β) r.2)
  rw [h]

/-! ## Safe readers -/

variable {I : σ → Prop} {R : σ → σ → Prop}

/-- From a state in `I` the reader does not panic; where it ends, it has stayed
in `I` and has moved along `R`. -/
class Safe (I : σ → Prop) (R : σ → σ → Prop) (p : CheckedM σ ε α) : Prop where
  ne_panic : ∀ s, I s → p s ≠ .error .panic
  moves : ∀ s a s', I s → p s = .ok (a, s') → I s' ∧ R s s'

instance safe_pure [Std.Refl R] (a : α) : Safe I R (pure a : CheckedM σ ε α) where
  ne_panic s _ h := by cases h
  moves s a s' hs h := by
    cases h
    exact ⟨hs, Std.Refl.refl s⟩

instance safe_get [Std.Refl R] : Safe I R (get : CheckedM σ ε σ) where
  ne_panic s _ h := by cases h
  moves s a s' hs h := by
    cases h
    exact ⟨hs, Std.Refl.refl s⟩

instance safe_fail (e : ε) : Safe I R (fail e : CheckedM σ ε α) where
  ne_panic s _ h := by cases h
  moves s a s' _ h := by cases h

instance safe_bind [IsTrans σ R] {p : CheckedM σ ε α} {f : α → CheckedM σ ε β} [hp : Safe I R p]
    [hf : ∀ a, Safe I R (f a)] : Safe I R (p >>= f) where
  ne_panic s hs h := by
    cases hrun : p s with
    | error e =>
      rw [bind_of_error hrun] at h
      cases h
      exact hp.ne_panic s hs hrun
    | ok r =>
      rw [bind_of_run hrun] at h
      exact (hf r.1).ne_panic r.2 (hp.moves s r.1 r.2 hs hrun).1 h
  moves s b s' hs h := by
    obtain ⟨a, t, hrun, h⟩ := bind_eq_ok h
    have hfirst := hp.moves s a t hs hrun
    have hrest := (hf a).moves t b s' hfirst.1 h
    exact ⟨hrest.1, IsTrans.trans _ _ _ hfirst.2 hrest.2⟩

instance safe_map [Std.Refl R] [IsTrans σ R] {p : CheckedM σ ε α} {f : α → β} [Safe I R p] :
    Safe I R (f <$> p) := safe_bind (f := fun a => pure (f a))

instance safe_ite {c : Prop} [Decidable c] {p q : CheckedM σ ε α} [hp : Safe I R p]
    [hq : Safe I R q] : Safe I R (if c then p else q) := by
  split
  · exact hp
  · exact hq

/-! ## Repetition -/

/-- `n` iterations over a body that is given its index, from `i` on, and updates `acc`. -/
def forRange (body : ℕ → β → CheckedM σ ε β) : ℕ → ℕ → β → CheckedM σ ε β
  | _, 0, acc => pure acc
  | i, n + 1, acc => body i acc >>= forRange body (i + 1) n

instance safe_forRange [Std.Refl R] [IsTrans σ R] {body : ℕ → β → CheckedM σ ε β}
    [hbody : ∀ i acc, Safe I R (body i acc)] (i n : ℕ) (acc : β) :
    Safe I R (forRange body i n acc) := by
  induction n generalizing i acc with
  | zero => exact safe_pure acc
  | succ n ih => exact safe_bind

section
-- Derives the equations of this definition in front of the proofs that use them.
attribute [local simp] forRange
end

/-- A loop ends with its last iteration. -/
theorem forRange_succ_last {body : ℕ → β → CheckedM σ ε β} (n : ℕ) : ∀ (i : ℕ) (acc : β) (s : σ),
    forRange body i (n + 1) acc s = (forRange body i n acc >>= body (i + n)) s := by
  induction n with
  | zero =>
    intro i acc s
    change (body i acc >>= forRange body (i + 1) 0) s = body i acc s
    cases hbody : body i acc s with
    | error e => rw [bind_of_error hbody]
    | ok r =>
      rw [bind_of_run hbody]
      rfl
  | succ n ih =>
    intro i acc s
    have hassoc : forRange body i (n + 1) acc >>= body (i + (n + 1)) =
        body i acc >>= fun acc' => forRange body (i + 1) n acc' >>= body (i + (n + 1)) := by
      rw [forRange, bind_assoc]
    rw [hassoc, forRange]
    apply bind_congr_ok
    intro acc' s' _
    rw [ih, show i + (n + 1) = i + 1 + n by omega]

/-- What one iteration keeps, a whole loop keeps, and it does not panic if no
iteration does. -/
theorem forRange_spec {body : ℕ → β → CheckedM σ ε β} {P : ℕ → β → σ → Prop} (n : ℕ) :
    ∀ {i : ℕ} {acc : β} {s : σ}, P i acc s →
      (∀ k acc s, i ≤ k → k < i + n → P k acc s → body k acc s ≠ .error .panic ∧
        ∀ acc' s', body k acc s = .ok (acc', s') → P (k + 1) acc' s') →
      forRange body i n acc s ≠ .error .panic ∧
        ∀ acc' s', forRange body i n acc s = .ok (acc', s') → P (i + n) acc' s' := by
  induction n with
  | zero =>
    intro i acc s h _
    constructor
    · intro hpanic
      cases hpanic
    · intro acc' s' hok
      cases hok
      exact h
  | succ n ih =>
    intro i acc s h hstep
    have hfirst := hstep i acc s (Nat.le_refl i) (by omega) h
    have hrest : ∀ acc' s', body i acc s = .ok (acc', s') → _ := fun acc' s' hok =>
      ih (i := i + 1) (hfirst.2 acc' s' hok) fun k acc s hik hk => hstep k acc s (by omega) (by omega)
    cases hbody : body i acc s with
    | error e =>
      rw [forRange, bind_of_error hbody]
      constructor
      · intro hpanic
        cases hpanic
        exact hfirst.1 hbody
      · intro acc' s' hok
        cases hok
    | ok r =>
      rw [forRange, bind_of_run hbody, show i + (n + 1) = i + 1 + n by omega]
      exact hrest r.1 r.2 hbody

/-- A loop panics in the first iteration that does. -/
theorem forRange_panics_iff {body : ℕ → β → CheckedM σ ε β} (n : ℕ) :
    ∀ {i : ℕ} {acc : β} {s : σ}, forRange body i n acc s = .error .panic ↔
      ∃ k < n, ∃ acc' s', forRange body i k acc s = .ok (acc', s') ∧
        body (i + k) acc' s' = .error .panic := by
  induction n with
  | zero =>
    intro i acc s
    simp [forRange, pure_apply]
  | succ n ih =>
    intro i acc s
    constructor
    · intro h
      cases hbody : body i acc s with
      | error e =>
        rw [forRange, bind_of_error hbody] at h
        cases h
        exact ⟨0, Nat.succ_pos n, acc, s, rfl, hbody⟩
      | ok r =>
        rw [forRange, bind_of_run hbody] at h
        obtain ⟨k, hk, acc', s', hok, hpanic⟩ := ih.mp h
        refine ⟨k + 1, by omega, acc', s', ?_, ?_⟩
        · rw [forRange, bind_of_run hbody, hok]
        · rw [show i + (k + 1) = i + 1 + k by omega, hpanic]
    · rintro ⟨k, hk, acc', s', hok, hpanic⟩
      cases k with
      | zero =>
        cases hok
        rw [Nat.add_zero] at hpanic
        rw [forRange, bind_of_error hpanic]
      | succ k =>
        rw [forRange] at hok
        obtain ⟨acc₁, s₁, hbody, hok⟩ := bind_eq_ok hok
        rw [forRange, bind_of_ok hbody]
        apply ih.mpr
        refine ⟨k, by omega, acc', s', hok, ?_⟩
        rw [show i + 1 + k = i + (k + 1) by omega, hpanic]

/-- `while condition` over a body that updates `acc` and lowers `μ` each time. -/
def whileFuel (condition : σ → Bool) (body : β → CheckedM σ ε β) : ℕ → β → CheckedM σ ε β
  | 0, acc => pure acc
  | fuel + 1, acc =>
    get >>= fun s => if condition s then body acc >>= whileFuel condition body fuel else pure acc

def whileDo (μ : σ → ℕ) (condition : σ → Bool) (body : β → CheckedM σ ε β) (acc : β) :
    CheckedM σ ε β := get >>= fun s => whileFuel condition body (μ s) acc

instance safe_whileFuel [Std.Refl R] [IsTrans σ R] {condition : σ → Bool}
    {body : β → CheckedM σ ε β} [hbody : ∀ acc, Safe I R (body acc)] (fuel : ℕ) (acc : β) :
    Safe I R (whileFuel condition body fuel acc) := by
  induction fuel generalizing acc with
  | zero => exact safe_pure acc
  | succ fuel ih =>
    rw [whileFuel]
    infer_instance

instance safe_whileDo [Std.Refl R] [IsTrans σ R] {μ : σ → ℕ} {condition : σ → Bool}
    {body : β → CheckedM σ ε β} [∀ acc, Safe I R (body acc)] (acc : β) :
    Safe I R (whileDo μ condition body acc) := by
  rw [whileDo]
  infer_instance

section
variable {μ : σ → ℕ} {condition : σ → Bool} {body : β → CheckedM σ ε β}

theorem whileFuel_succ (fuel : ℕ) (acc : β) (s : σ) :
    whileFuel condition body (fuel + 1) acc s = if condition s then
      (body acc >>= whileFuel condition body fuel) s else .ok (acc, s) := by
  rw [whileFuel, get_bind_apply]
  split <;> rfl

theorem whileFuel_eq (hpos : ∀ s, condition s → 0 < μ s)
    (hbody : ∀ acc s acc' s', condition s → body acc s = .ok (acc', s') → μ s' < μ s) (n : ℕ) :
    ∀ m acc s, μ s ≤ n → μ s ≤ m →
      whileFuel condition body n acc s = whileFuel condition body m acc s := by
  have hdone : ∀ m acc s, μ s ≤ 0 → whileFuel condition body m acc s = .ok (acc, s) := by
    intro m acc s hs
    have hstop : ¬ condition s := fun h => absurd (hpos s h) (by omega)
    cases m with
    | zero => rfl
    | succ m => rw [whileFuel_succ, if_neg hstop]
  induction n with
  | zero =>
    intro m acc s hn _
    rw [hdone m acc s hn, hdone 0 acc s hn]
  | succ n ih =>
    intro m acc s hn hm
    cases m with
    | zero => rw [hdone 0 acc s hm, hdone (n + 1) acc s hm]
    | succ m =>
      rw [whileFuel_succ, whileFuel_succ]
      split
      · next hc =>
        apply bind_congr_ok
        intro acc' s' hrun
        have hlt := hbody acc s acc' s' hc hrun
        exact ih m acc' s' (by omega) (by omega)
      · rfl

/-- The loop equation: a loop whose condition needs `μ` to be positive and whose
body lowers it never runs out of fuel. -/
theorem whileDo_apply (hpos : ∀ s, condition s → 0 < μ s)
    (hbody : ∀ acc s acc' s', condition s → body acc s = .ok (acc', s') → μ s' < μ s)
    (acc : β) (s : σ) : whileDo μ condition body acc s = if condition s then
      (body acc >>= whileDo μ condition body) s else .ok (acc, s) := by
  rw [whileDo, get_bind_apply, whileFuel_eq hpos hbody (μ s) (μ s + 1) acc s (Nat.le_refl _) (by omega),
    whileFuel_succ]
  split
  · next hc =>
    apply bind_congr_ok
    intro acc' s' hrun
    have hlt := hbody acc s acc' s' hc hrun
    exact whileFuel_eq hpos hbody (μ s) (μ s') acc' s' (by omega) (Nat.le_refl _)
  · rfl

end

end CheckedM
end CheckedReaders
