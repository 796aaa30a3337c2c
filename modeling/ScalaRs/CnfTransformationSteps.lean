import ScalaRs.CnfTransformation
import ScalaRs.OneSidedEncodings
import ScalaRs.PropositionShapes

/-! # What the gates of the conversion encode

`Emits x t post` says that the conversion step `x` succeeds from the state `t`
and ends as `post` says. -/
namespace ScalaRs.Patmat
open ClauseSemantics ScalaSets OneSidedEncodings

def Emits {α : Type} (x : ToCnf α) (t : TransformToCnf) (post : α → TransformToCnf → Prop) : Prop :=
  ∃ a t', x t = some (a, t') ∧ post a t'

namespace Emits

variable {α β : Type} {t : TransformToCnf}

theorem pure {a : α} {post : α → TransformToCnf → Prop} (h : post a t) :
    Emits (Pure.pure a) t post := ⟨a, t, rfl, h⟩

theorem bind {x : ToCnf α} {f : α → ToCnf β} {post : β → TransformToCnf → Prop}
    (h : Emits x t fun a t' => Emits (f a) t' post) : Emits (x >>= f) t post := by
  obtain ⟨a, t', hx, b, t'', hf, hpost⟩ := h
  exact ⟨b, t'', by simp [Bind.bind, StateT.bind, hx, hf], hpost⟩

theorem mono {x : ToCnf α} {post post' : α → TransformToCnf → Prop} (h : Emits x t post)
    (hpost : ∀ a t', post a t' → post' a t') : Emits x t post' := by
  obtain ⟨a, t', hx, hp⟩ := h
  exact ⟨a, t', hx, hpost a t' hp⟩

theorem get {post : TransformToCnf → TransformToCnf → Prop} (h : post t t) :
    Emits MonadState.get t post := ⟨t, t, rfl, h⟩

theorem modify {f : TransformToCnf → TransformToCnf} {post : PUnit → TransformToCnf → Prop}
    (h : post ⟨⟩ (f t)) : Emits (modify f) t post := ⟨⟨⟩, f t, rfl, h⟩

theorem newLiteral {post : Lit → TransformToCnf → Prop}
    (h : post ⟨(t.literalCount + 1 : ℕ)⟩ { t with literalCount := t.literalCount + 1 }) :
    Emits TransformToCnf.newLiteral t post := ⟨_, _, rfl, h⟩

theorem addClause {c : Clause} (hc : c.isEmpty = false) {post : Unit → TransformToCnf → Prop}
    (h : post () { t with buff := t.buff ++ [c] }) : Emits (TransformToCnf.addClause c) t post := by
  refine ⟨(), _, rfl, ?_⟩
  simpa [hc] using h

theorem forM_addClause {xs : List β} {f : β → Clause} (hf : ∀ x ∈ xs, (f x).isEmpty = false)
    {post : Unit → TransformToCnf → Prop}
    (h : post () { t with buff := t.buff ++ xs.map f }) :
    Emits (xs.forM fun x => TransformToCnf.addClause (f x)) t post := by
  induction xs generalizing t with
  | nil => exact .pure (by simpa using h)
  | cons x xs ih =>
    refine .bind (.addClause (hf x (by simp)) (ih (fun y hy => hf y (by simp [hy])) ?_))
    simpa using h

end Emits

theorem clause1_not_empty (l : Lit) : (clause1 l).isEmpty = false := rfl

theorem clause2_not_empty (a b : Lit) : (clause2 a b).isEmpty = false := by
  rw [Bool.eq_false_iff, ne_eq, ScalaSet.isEmpty_iff]
  exact fun h => h a (by simp)

theorem Known.v_ne_zero {n : ℕ} {l : Lit} (h : Known n l) : l.v ≠ 0 := by
  have := h.1
  simp only [literal_var, Lit.var] at this
  omega

theorem Known.neg {n : ℕ} {l : Lit} (h : Known n l) : Known n l.neg := by
  simpa [Known] using h

theorem Known.holds_neg {n : ℕ} {l : Lit} (h : Known n l) (σ : ℕ → Bool) :
    Holds σ l.neg ↔ ¬ Holds σ l := Patmat.holds_neg (Known.v_ne_zero h) σ

theorem known_clause2 {n : ℕ} {a b : Lit} (ha : Known n a) (hb : Known n b) :
    ∀ l : Lit, l ∈ clause2 a b → Known n l := by
  intro l hl
  rcases (mem_clause2 a b l).mp hl with rfl | rfl <;> assumption

theorem satClause_clause1 {σ : ℕ → Bool} {l : Lit} :
    SatClause (L := Lit) σ (clause1 l) ↔ Holds σ l := satClause_singleton (by simp)

theorem satClause_clause2 {σ : ℕ → Bool} {a b : Lit} :
    SatClause (L := Lit) σ (clause2 a b) ↔ Holds σ a ∨ Holds σ b := by
  simp only [SatClause, mem_clause2]
  exact ⟨fun ⟨l, h, hl⟩ => h.elim (fun e => .inr (e ▸ hl)) (fun e => .inl (e ▸ hl)),
    fun h => h.elim (fun h => ⟨a, .inr rfl, h⟩) (fun h => ⟨b, .inl rfl, h⟩)⟩

variable (symbols : List SymId)

/-- The values an assignment gives the numbered symbols. -/
def valuation (σ : ℕ → Bool) (s : SymId) : Bool :=
  match (SymbolMapping.new symbols).lit s with
  | some l => σ l.var
  | none => false

/-- The state between two steps; `cs` are the clauses of the conjuncts before. -/
structure Ready (cs : List Clause) (t : TransformToCnf) : Prop where
  mapping : t.mapping = SymbolMapping.new symbols
  size : symbols.length ≤ t.literalCount
  known : KnownClauses Lit t.literalCount (cs ++ t.buff)
  constTrue : ∀ l, t.constTrue = some l → clause1 l ∈ cs ++ t.buff

structure Converts (cs : List Clause) (t t' : TransformToCnf) (A : Condition)
    (ms : List (Condition × Lit)) : Prop where
  ready : Ready symbols cs t'
  encodes : Encodes t.literalCount (cs ++ t.buff) t'.literalCount (cs ++ t'.buff) A ms

variable {symbols} {cs : List Clause} {t t₀ t' t'' : TransformToCnf} {A B : Condition}
  {ms : List (Condition × Lit)}

theorem Ready.refl (h : Ready symbols cs t) : Converts symbols cs t t (fun _ => True) [] :=
  ⟨h, .refl h.known⟩

theorem Converts.trans {ms' : List (Condition × Lit)} (h₀ : Ready symbols cs t)
    (h : Converts symbols cs t t' A ms) (h' : Converts symbols cs t' t'' B ms')
    (hB : UpTo symbols.length B) (hms' : ∀ m ∈ ms', UpTo symbols.length m.1) :
    Converts symbols cs t t'' (fun σ => A σ ∧ B σ) (ms ++ ms') :=
  ⟨h'.ready, h.encodes.trans h'.encodes (hB.mono h₀.size) fun m hm => (hms' m hm).mono h₀.size⟩


theorem upTo_const (n : ℕ) (p : Prop) : UpTo n fun _ => p := fun _ _ _ => Iff.rfl

theorem KnownClauses.append {n : ℕ} {ds : List Clause} (h : KnownClauses Lit n cs)
    (h' : KnownClauses Lit n ds) : KnownClauses Lit n (cs ++ ds) :=
  fun c hc => (List.mem_append.mp hc).elim (h c) (h' c)

theorem var_newLiteral (n : ℕ) : (⟨(n + 1 : ℕ)⟩ : Lit).var = n + 1 := rfl

theorem known_newLiteral (n : ℕ) : Known (n + 1) (⟨(n + 1 : ℕ)⟩ : Lit) := by
  simp only [Known, literal_var, Lit.var]
  omega

theorem KnownClauses.singleton {n : ℕ} {c : Clause} (h : ∀ l : Lit, l ∈ c → Known n l) :
    KnownClauses Lit n [c] := by simpa [KnownClauses] using h

theorem Converts.define (h : Converts symbols cs t₀ t A ms) (B P : Condition) (o : Lit)
    (ds : List Clause) (ho : o.var = t.literalCount + 1)
    (hds : KnownClauses Lit (t.literalCount + 1) ds) (hBA : ∀ σ, B σ → A σ)
    (hsound : ∀ σ, A σ → (∀ m ∈ ms, Holds σ m.2 → m.1 σ) → Satisfies (L := Lit) σ (cs ++ t.buff) →
      Satisfies (L := Lit) σ ds → B σ ∧ (Holds σ o → P σ))
    (hcomplete : ∀ σ τ, B σ → (∀ m ∈ ms, m.1 σ → Holds τ m.2) →
      AgreeUpTo t₀.literalCount σ τ → Satisfies (L := Lit) τ (cs ++ t.buff) →
      (Holds τ o ↔ P σ) → Satisfies (L := Lit) τ ds) :
    Converts symbols cs t₀
      { t with literalCount := t.literalCount + 1, buff := t.buff ++ ds } B ((P, o) :: ms) := by
  have henc := h.encodes.define ho hds hBA hsound hcomplete
  rw [List.append_assoc] at henc
  refine ⟨⟨h.ready.mapping, h.ready.size.trans (Nat.le_succ _), henc.known, fun l hl => ?_⟩, henc⟩
  rw [← List.append_assoc]
  exact List.mem_append_left ds (h.ready.constTrue l hl)

theorem Converts.weaken {ms' : List (Condition × Lit)} (h : Converts symbols cs t₀ t A ms)
    (hknown : ∀ m ∈ ms', Known t.literalCount m.2)
    (hsound : ∀ σ, Satisfies (L := Lit) σ (cs ++ t.buff) → (∀ m ∈ ms, Holds σ m.2 → m.1 σ) →
      ∀ m ∈ ms', Holds σ m.2 → m.1 σ)
    (hcomplete : ∀ σ τ, AgreeUpTo t₀.literalCount σ τ → Satisfies (L := Lit) τ (cs ++ t.buff) →
      (∀ m ∈ ms, m.1 σ → Holds τ m.2) → ∀ m ∈ ms', m.1 σ → Holds τ m.2) :
    Converts symbols cs t₀ t A ms' := ⟨h.ready, h.encodes.weaken hknown hsound hcomplete⟩

theorem Converts.forget (h : Converts symbols cs t₀ t A ms) : Converts symbols cs t₀ t A [] :=
  h.weaken (by simp) (by simp) (by simp)

/-- Only the literal defined last. -/
theorem Converts.head {P : Condition} {o : Lit} (h : Converts symbols cs t₀ t A ((P, o) :: ms)) :
    Converts symbols cs t₀ t A [(P, o)] :=
  h.weaken (fun m hm => h.encodes.literal_known m (by simp_all))
    (fun _ _ hm m hmem => hm m (by simp_all)) fun _ _ _ _ hm m hmem => hm m (by simp_all)

theorem Converts.setConstTrue (h : Converts symbols cs t₀ t A ms) {l : Lit}
    (hl : clause1 l ∈ cs ++ t.buff) :
    Converts symbols cs t₀ { t with constTrue := some l } A ms :=
  ⟨⟨h.ready.mapping, h.ready.size, h.ready.known, fun _ e => Option.some_inj.mp e ▸ hl⟩, h.encodes⟩

/-- The literal of a unit clause that was emitted. -/
def Asserted (cs : List Clause) (t : TransformToCnf) (l : Lit) : Prop := clause1 l ∈ cs ++ t.buff

theorem Asserted.holds {l : Lit} (h : Asserted cs t l) {σ : ℕ → Bool}
    (hσ : Satisfies (L := Lit) σ (cs ++ t.buff)) : Holds σ l := satClause_clause1.mp (hσ _ h)

theorem Asserted.known {l : Lit} (h : Asserted cs t l) (hr : Ready symbols cs t) :
    Known t.literalCount l := hr.known _ h l (by simp)

theorem getConstTrue_spec (h : Converts symbols cs t₀ t A ms) :
    Emits TransformToCnf.getConstTrue t fun l t' =>
      Converts symbols cs t₀ t' A ms ∧ Asserted cs t' l := by
  refine .bind (.get ?_)
  cases hct : t.constTrue with
  | some l => exact .pure ⟨h, h.ready.constTrue l hct⟩
  | none =>
    refine .bind (.newLiteral (.bind (.addClause (clause1_not_empty _) (.bind (.modify (.pure ?_))))))
    set l : Lit := ⟨(t.literalCount + 1 : ℕ)⟩
    have hl : Asserted cs { t with buff := t.buff ++ [clause1 l] } l := by simp [Asserted]
    have hdef := h.define A (fun _ => True) l [clause1 l] (var_newLiteral t.literalCount)
      (KnownClauses.singleton fun x hx => (mem_clause1 l x).mp hx ▸ known_newLiteral _)
      (fun _ => id) (fun σ hA _ _ _ => ⟨hA, fun _ => trivial⟩) fun σ τ _ _ _ _ hτ =>
        satisfies_cons.mpr ⟨satClause_clause1.mpr (hτ.mpr trivial), satisfies_nil τ⟩
    refine ⟨(hdef.weaken (fun m hm => ?_) (fun σ _ hm m h => hm m (by simp [h]))
      fun σ τ _ _ hm m h => hm m (by simp [h])).setConstTrue hl, hl⟩
    exact (h.encodes.literal_known m hm).mono (Nat.le_succ _)

theorem getConstFalse_spec (h : Converts symbols cs t₀ t A ms) :
    Emits TransformToCnf.getConstFalse t fun l t' =>
      Converts symbols cs t₀ t' A ms ∧ Asserted cs t' l.neg := by
  refine .bind ((getConstTrue_spec h).mono fun l t' ⟨h', hl⟩ => .pure ⟨h', ?_⟩)
  rwa [Lit.neg_neg]

/-- The literals of some operands, without repetition. -/
def Literals (ms : List (Condition × Lit)) (bv : List Lit) : Prop :=
  ∀ l, l ∈ bv ↔ ∃ m ∈ ms, m.2 = l

theorem Converts.known_literals (h : Converts symbols cs t₀ t A ms) {bv : List Lit}
    (hbv : Literals ms bv) : ∀ l ∈ bv, Known t.literalCount l := by
  intro l hl
  obtain ⟨m, hm, rfl⟩ := (hbv l).mp hl
  exact h.encodes.literal_known m hm

theorem and_spec {bv : List Lit} (h : Converts symbols cs t₀ t A ms) (hbv : Literals ms bv) :
    Emits (TransformToCnf.and bv) t fun l t' =>
      Converts symbols cs t₀ t' A [(fun σ => ∀ m ∈ ms, m.1 σ, l)] := by
  have holds_all : ∀ {σ : ℕ → Bool}, (∀ m ∈ ms, Holds σ m.2 → m.1 σ) → (∀ l ∈ bv, Holds σ l) →
      ∀ m ∈ ms, m.1 σ := fun hm hl m hmem => hm m hmem (hl _ ((hbv _).mpr ⟨m, hmem, rfl⟩))
  have all_holds : ∀ {σ τ : ℕ → Bool}, (∀ m ∈ ms, m.1 σ → Holds τ m.2) → (∀ m ∈ ms, m.1 σ) →
      ∀ l ∈ bv, Holds τ l := by
    intro σ τ hm hall l hl
    obtain ⟨m, hmem, rfl⟩ := (hbv l).mp hl
    exact hm m hmem (hall m hmem)
  unfold TransformToCnf.and
  split
  case h_1 =>
    refine (getConstTrue_spec h).mono fun l t' ⟨h', hl⟩ => h'.weaken ?_ ?_ ?_
    · simpa using hl.known h'.ready
    · simpa using fun σ _ hm _ => holds_all hm (by simp)
    · simpa using fun σ τ _ hτ _ _ => hl.holds hτ
  case h_2 l =>
    refine .pure (h.weaken ?_ ?_ ?_)
    · simpa using h.known_literals hbv l (by simp)
    · simpa using fun σ _ hm hl => holds_all hm (by simpa using hl)
    · simpa using fun σ τ _ _ hm hall => all_holds hm hall l (by simp)
  case h_3 =>
    refine .bind ((getConstFalse_spec h).mono fun cf t' ⟨h', hcf⟩ => ?_)
    split
    case isTrue hmem =>
      have hknown := h'.known_literals hbv cf hmem
      have hfalse : ∀ {σ : ℕ → Bool}, Satisfies (L := Lit) σ (cs ++ t'.buff) → ¬ Holds σ cf :=
        fun hσ => (Known.holds_neg hknown _).mp (hcf.holds hσ)
      refine .pure (h'.weaken (by simpa using hknown) ?_ ?_)
      · simpa using fun σ hσ _ hl => absurd hl (hfalse hσ)
      · simpa using fun σ τ _ hτ hm hall => all_holds hm hall cf hmem
    case isFalse hmem =>
      refine .bind ((getConstTrue_spec h').mono fun ct t' ⟨h', hct⟩ => ?_)
      refine .bind (.newLiteral (.bind (.forM_addClause (fun _ _ => clause2_not_empty _ _) (.pure ?_))))
      set o : Lit := ⟨(t'.literalCount + 1 : ℕ)⟩
      have ho : Known (t'.literalCount + 1) o := known_newLiteral _
      have hnew : ∀ l, l ∈ ((ScalaSet.fromIter bv).excl ct).elems ↔ l ∈ bv ∧ l ≠ ct := by simp
      have hclauses : ∀ σ, Satisfies (L := Lit) σ
          (((ScalaSet.fromIter bv).excl ct).elems.map fun op => clause2 op o.neg) ↔
          ∀ l ∈ bv, l ≠ ct → Holds σ l ∨ ¬ Holds σ o := by
        intro σ
        simp only [Satisfies, List.forall_mem_map, satClause_clause2, hnew, and_imp,
          Known.holds_neg ho]
      refine (h'.define A (fun σ => ∀ m ∈ ms, m.1 σ) o _ (var_newLiteral _) ?_ (fun _ => id)
        (fun σ hA hm hσ hds => ⟨hA, fun hoσ => ?_⟩) fun σ τ _ hm _ _ hτ => ?_).head
      · intro c hc
        obtain ⟨op, hop, rfl⟩ := List.mem_map.mp hc
        exact known_clause2 ((h'.known_literals hbv op ((hnew op).mp hop).1).mono (Nat.le_succ _))
          (Known.neg ho)
      · refine holds_all hm fun l hl => ?_
        by_cases hlct : l = ct
        · exact hlct ▸ hct.holds hσ
        · exact ((hclauses σ).mp hds l hl hlct).resolve_right (not_not.mpr hoσ)
      · refine (hclauses τ).mpr fun l hl _ => ?_
        by_cases hoτ : Holds τ o
        · exact .inl (all_holds hm (hτ.mp hoτ) l hl)
        · exact .inr hoτ

theorem or_spec {bv : List Lit} (h : Converts symbols cs t₀ t A ms) (hbv : Literals ms bv) :
    Emits (TransformToCnf.or bv) t fun l t' =>
      Converts symbols cs t₀ t' A [(fun σ => ∃ m ∈ ms, m.1 σ, l)] := by
  have holds_some : ∀ {σ : ℕ → Bool}, (∀ m ∈ ms, Holds σ m.2 → m.1 σ) → ∀ l ∈ bv, Holds σ l →
      ∃ m ∈ ms, m.1 σ := by
    intro σ hm l hl hσ
    obtain ⟨m, hmem, rfl⟩ := (hbv l).mp hl
    exact ⟨m, hmem, hm m hmem hσ⟩
  have some_holds : ∀ {σ τ : ℕ → Bool}, (∀ m ∈ ms, m.1 σ → Holds τ m.2) → (∃ m ∈ ms, m.1 σ) →
      ∃ l ∈ bv, Holds τ l := fun hm ⟨m, hmem, hP⟩ => ⟨m.2, (hbv _).mpr ⟨m, hmem, rfl⟩, hm m hmem hP⟩
  unfold TransformToCnf.or
  split
  case h_1 =>
    have hnone : ∀ m ∈ ms, False := fun m hm => by simpa using (hbv m.2).mpr ⟨m, hm, rfl⟩
    refine (getConstFalse_spec h).mono fun l t' ⟨h', hl⟩ => ?_
    have hknown : Known t'.literalCount l := by simpa using Known.neg (hl.known h'.ready)
    refine h'.weaken (by simpa using hknown) ?_ ?_
    · simpa using fun σ hσ _ hlσ => absurd hlσ ((Known.holds_neg hknown σ).mp (hl.holds hσ))
    · simpa using fun σ τ _ _ _ P l hm _ => absurd hm fun hm => hnone _ hm
  case h_2 l =>
    refine .pure (h.weaken ?_ ?_ ?_)
    · simpa using h.known_literals hbv l (by simp)
    · simpa only [List.forall_mem_singleton] using fun σ _ hm hl => holds_some hm l (by simp) hl
    · simpa only [List.forall_mem_singleton] using fun σ τ _ _ hm hsome => by
        simpa using some_holds hm hsome
  case h_3 =>
    refine .bind ((getConstTrue_spec h).mono fun ct t' ⟨h', hct⟩ => ?_)
    split
    case isTrue hmem =>
      refine .pure (h'.weaken (by simpa using h'.known_literals hbv ct hmem) ?_ ?_)
      · simpa only [List.forall_mem_singleton] using fun σ _ hm hl => holds_some hm ct hmem hl
      · simpa only [List.forall_mem_singleton] using fun σ τ _ hτ _ _ => hct.holds hτ
    case isFalse hmem =>
      refine .bind ((getConstFalse_spec h').mono fun cf t' ⟨h', hcf⟩ => ?_)
      set o : Lit := ⟨(t'.literalCount + 1 : ℕ)⟩ with hodef
      have ho : Known (t'.literalCount + 1) o := known_newLiteral _
      have hmemClause : ∀ l, l ∈ ((ScalaSet.fromIter bv).excl cf).incl o.neg ↔
          l = o.neg ∨ l ∈ bv ∧ l ≠ cf := by simp
      have hempty : (((ScalaSet.fromIter bv).excl cf).incl o.neg).isEmpty = false := by
        rw [Bool.eq_false_iff, ne_eq, ScalaSet.isEmpty_iff]
        exact fun h => h o.neg (by simp)
      refine .bind (.newLiteral (.bind (.addClause hempty (.pure ?_))))
      refine (h'.define A (fun σ => ∃ m ∈ ms, m.1 σ) o _ (var_newLiteral _)
        (KnownClauses.singleton fun l hl => ?_) (fun _ => id)
        (fun σ hA hm hσ hds => ⟨hA, fun hoσ => ?_⟩) fun σ τ _ hm _ hτ hoτ => ?_).head
      · rcases (hmemClause l).mp hl with rfl | hl
        · exact Known.neg ho
        · exact (h'.known_literals hbv l hl.1).mono (Nat.le_succ _)
      · obtain ⟨l, hl, hlσ⟩ := hds _ (List.mem_singleton_self _)
        rcases (hmemClause l).mp hl with rfl | hl
        · exact absurd hoσ ((Known.holds_neg ho σ).mp hlσ)
        · exact holds_some hm l hl.1 hlσ
      · refine satisfies_cons.mpr ⟨?_, satisfies_nil τ⟩
        by_cases hoσ : Holds τ o
        · obtain ⟨l, hl, hlτ⟩ := some_holds hm (hoτ.mp hoσ)
          refine ⟨l, (hmemClause l).mpr (.inr ⟨hl, ?_⟩), hlτ⟩
          rintro rfl
          exact (Known.holds_neg (h'.known_literals hbv l hl) τ).mp (hcf.holds hτ) hlτ
        · exact ⟨o.neg, (hmemClause _).mpr (.inl rfl), (Known.holds_neg ho τ).mpr hoσ⟩

end ScalaRs.Patmat
