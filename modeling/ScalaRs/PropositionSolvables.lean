import ScalaRs.CnfTransformationCorrectness

/-! # From a proposition to a solvable formula, conjunct by conjunct -/
namespace ScalaRs.Patmat
open ClauseSemantics ScalaSets OneSidedEncodings

variable {symbols : List SymId} {cs : List Clause} {t : TransformToCnf} {A B : Condition}
  {e : VarId → ConstId → Bool}

/-- A conjunct handed over: its clauses require it, and the buffer is empty again. -/
structure Delivers (symbols : List SymId) (cs : List Clause) (t : TransformToCnf) (A : Condition)
    (ds : List Clause) (t' : TransformToCnf) : Prop where
  ready : Ready symbols (cs ++ ds) t'
  buff : t'.buff = []
  encodes : Encodes t.literalCount cs t'.literalCount (cs ++ ds) A ([] : List (Condition × Lit))

theorem Delivers.refl (h : Ready symbols cs t) (hb : t.buff = []) :
    Delivers symbols cs t (fun _ => True) [] t := by
  have hknown := h.known
  rw [hb, List.append_nil] at hknown
  refine ⟨by rwa [List.append_nil], hb, ?_⟩
  rw [List.append_nil]
  exact .refl hknown

theorem Delivers.trans {t' t'' : TransformToCnf} {ds ds' : List Clause} (h₀ : Ready symbols cs t)
    (h : Delivers symbols cs t A ds t') (h' : Delivers symbols (cs ++ ds) t' B ds' t'')
    (hB : UpTo symbols.length B) :
    Delivers symbols cs t (fun σ => A σ ∧ B σ) (ds ++ ds') t'' := by
  refine ⟨?_, h'.buff, ?_⟩
  · rw [← List.append_assoc]
    exact h'.ready
  · rw [← List.append_assoc]
    simpa using h.encodes.trans h'.encodes (hB.mono h₀.size) (by simp)

theorem Converts.delivers {t' : TransformToCnf} (h : Converts symbols cs t t' A []) (hb : t.buff = []) :
    Delivers symbols cs t A t'.buff { t' with buff := [] } := by
  have henc := h.encodes
  rw [hb, List.append_nil] at henc
  refine ⟨⟨h.ready.mapping, h.ready.size, ?_, fun l hl => ?_⟩, rfl, henc⟩
  · simpa using h.ready.known
  · simpa using h.ready.constTrue l hl

theorem apply_spec (hnd : symbols.Nodup) (h : Ready symbols cs t) (hb : t.buff = [])
    {p : Proposition} (hp : Proposition.Conjunct (· ∈ symbols) p) :
    Emits (TransformToCnf.apply p) t fun ds t' => Delivers symbols cs t (Means symbols e p) ds t' := by
  unfold TransformToCnf.apply
  cases hp with
  | reduced hp =>
    refine .bind ((convert_spec (e := e) hnd hp cs t h).mono ?_)
    rintro _ t' ⟨l, rfl, hl⟩
    refine .bind (.addClause (clause1_not_empty l) (.bind (.get (.bind ⟨_, _, rfl, .pure ?_⟩))))
    have hknown := hl.encodes.literal_known _ (List.mem_singleton_self _)
    refine (Converts.forget (hl.require (B := Means symbols e p) (KnownClauses.singleton
      fun x hx => (mem_clause1 l x).mp hx ▸ hknown) (fun _ _ => trivial) ?_ ?_)).delivers hb
    · intro σ _ hm hds
      exact hm _ (List.mem_singleton_self _) (satClause_clause1.mp (hds _ (List.mem_singleton_self _)))
    · intro σ τ _ hσ hm
      exact satisfies_cons.mpr ⟨satClause_clause1.mpr (hm _ (List.mem_singleton_self _) hσ),
        satisfies_nil τ⟩
  | @atMostOne ops hops =>
    have hmeans : Means symbols e (.atMostOne ops) = AtMost symbols ops := by
      simp [funext_iff, Means, AtMost, Proposition.eval]
    rw [hmeans, TransformToCnf.convert]
    refine .bind (.bind ((atMostOne_spec hnd h hops).mono fun _ t' h' => .pure ?_))
    exact .bind ⟨_, t', rfl, .bind (.get (.bind ⟨_, _, rfl, .pure (h'.delivers hb)⟩))⟩

section AlreadyInCnf

/-- Clauses that hold exactly where the proposition does. -/
structure Clausal (symbols : List SymId) (A : Condition) (ds : List Clause) : Prop where
  known : KnownClauses Lit symbols.length ds
  iff : ∀ σ, Satisfies (L := Lit) σ ds ↔ A σ

theorem toLiteral_spec (hnd : symbols.Nodup) {p : Proposition}
    (hp : Proposition.Conjunct (· ∈ symbols) p) :
    ∃ r, toLiteral (SymbolMapping.new symbols) p = some r ∧
      ∀ l, r = some l → Known symbols.length l ∧ ∀ σ, Holds σ l ↔ Means symbols e p σ := by
  cases hp with
  | atMostOne => exact ⟨none, rfl, by simp⟩
  | reduced hp =>
    cases hp with
    | @sym s hs =>
      obtain ⟨l, hl⟩ := exists_litOf hnd hs
      refine ⟨some l, by simp [toLiteral, hl.1], ?_⟩
      rintro _ ⟨rfl⟩
      exact ⟨hl.2.1, fun σ => by rw [hl.2.2]; simp [Means, Proposition.eval]⟩
    | @not s hs =>
      obtain ⟨l, hl⟩ := exists_litOf hnd hs
      refine ⟨some l.neg, by simp [toLiteral, hl.1], ?_⟩
      rintro _ ⟨rfl⟩
      refine ⟨Known.neg hl.2.1, fun σ => ?_⟩
      rw [Known.holds_neg hl.2.1, hl.2.2]
      simp [Means, Proposition.eval]
    | _ => exact ⟨none, rfl, by simp⟩

theorem literalsOf_spec (hnd : symbols.Nodup) {fv : List Proposition}
    (hfv : ∀ o ∈ fv, Proposition.Conjunct (· ∈ symbols) o) {c : Clause}
    (hc : ∀ l ∈ c, Known symbols.length l) :
    ∃ r, literalsOf (SymbolMapping.new symbols) fv c = some r ∧
      ∀ d, r = some d → (∀ l ∈ d, Known symbols.length l) ∧
        ∀ σ, SatClause (L := Lit) σ d ↔ SatClause (L := Lit) σ c ∨ ∃ o ∈ fv, Means symbols e o σ := by
  induction fv generalizing c with
  | nil =>
    refine ⟨some c, rfl, ?_⟩
    rintro _ ⟨rfl⟩
    exact ⟨hc, by simp⟩
  | cons x fv ih =>
    obtain ⟨r, hr, hlit⟩ := toLiteral_spec (e := e) hnd (hfv x (by simp))
    cases r with
    | none => exact ⟨none, by simp [literalsOf, hr], by simp⟩
    | some l =>
      obtain ⟨hl, hmeans⟩ := hlit l rfl
      obtain ⟨r', hr', hd⟩ := ih (fun o ho => hfv o (by simp [ho])) (c := c.incl l) (by
        intro y hy
        rcases (ScalaSet.mem_incl c l y).mp hy with rfl | hy
        · exact hl
        · exact hc y hy)
      refine ⟨r', by simp [literalsOf, hr, hr'], fun d hd' => ⟨(hd d hd').1, fun σ => ?_⟩⟩
      rw [(hd d hd').2]
      have hincl : SatClause (L := Lit) σ (c.incl l) ↔ Holds σ l ∨ SatClause (L := Lit) σ c := by
        simp [SatClause, or_and_right, exists_or]
      rw [hincl, hmeans]
      simp only [List.mem_cons, or_and_right, exists_or, exists_eq_left]
      tauto

theorem toDisjunction_spec (hnd : symbols.Nodup) {p : Proposition}
    (hp : Proposition.Conjunct (· ∈ symbols) p) :
    ∃ r, toDisjunction (SymbolMapping.new symbols) p = some r ∧
      ∀ ds, r = some ds → Clausal symbols (Means symbols e p) ds := by
  have literal : ∃ r, (do return (← toLiteral (SymbolMapping.new symbols) p).map fun l => [clause1 l])
      = some r ∧ ∀ ds, r = some ds → Clausal symbols (Means symbols e p) ds := by
    obtain ⟨r, hr, hlit⟩ := toLiteral_spec (e := e) hnd hp
    refine ⟨r.map fun l => [clause1 l], by simp [hr], fun ds hds => ?_⟩
    obtain ⟨l, rfl, rfl⟩ := Option.map_eq_some_iff.mp hds
    obtain ⟨hl, hmeans⟩ := hlit l rfl
    refine ⟨KnownClauses.singleton fun x hx => (mem_clause1 l x).mp hx ▸ hl, fun σ => ?_⟩
    simp [satisfies_cons, satisfies_nil, satClause_clause1, hmeans]
  cases hp with
  | atMostOne => exact literal
  | reduced hp =>
    cases hp with
    | @or fv h =>
      obtain ⟨r, hr, hc⟩ := literalsOf_spec (e := e) hnd (fun o ho => .reduced (h o ho))
        (c := ScalaSet.empty) (by simp)
      refine ⟨r.map fun c => [c], by simp [toDisjunction, hr], fun ds hds => ?_⟩
      obtain ⟨c, rfl, rfl⟩ := Option.map_eq_some_iff.mp hds
      obtain ⟨hknown, hmeans⟩ := hc c rfl
      refine ⟨KnownClauses.singleton hknown, fun σ => ?_⟩
      rw [satisfies_cons, hmeans]
      simp [satisfies_nil, SatClause, Means, Proposition.eval_or]
    | true =>
      refine ⟨some [], rfl, ?_⟩
      rintro _ ⟨rfl⟩
      exact ⟨by simp [KnownClauses], by simp [satisfies_nil, Means, Proposition.eval]⟩
    | false =>
      refine ⟨some [ScalaSet.empty], rfl, ?_⟩
      rintro _ ⟨rfl⟩
      exact ⟨by simp [KnownClauses], by simp [satisfies_cons, SatClause, Means, Proposition.eval]⟩
    | _ => exact literal

theorem disjunctionsOf_spec (hnd : symbols.Nodup) {fv : List Proposition}
    (hfv : ∀ o ∈ fv, Proposition.Conjunct (· ∈ symbols) o) :
    ∃ r, disjunctionsOf (SymbolMapping.new symbols) fv = some r ∧
      ∀ ds, r = some ds → Clausal symbols (Means symbols e (.and fv)) ds := by
  induction fv with
  | nil =>
    refine ⟨some [], rfl, ?_⟩
    rintro _ ⟨rfl⟩
    exact ⟨by simp [KnownClauses], by simp [satisfies_nil, Means, Proposition.eval]⟩
  | cons x fv ih =>
    obtain ⟨r, hr, hx⟩ := toDisjunction_spec (e := e) hnd (hfv x (by simp))
    cases r with
    | none => exact ⟨none, by simp [disjunctionsOf, hr], by simp⟩
    | some ds =>
      obtain ⟨r', hr', hds'⟩ := ih fun o ho => hfv o (by simp [ho])
      refine ⟨r'.map (ds ++ ·), by simp [disjunctionsOf, hr, hr'], fun ds'' h => ?_⟩
      obtain ⟨ds', rfl, rfl⟩ := Option.map_eq_some_iff.mp h
      refine ⟨KnownClauses.append (hx ds rfl).known (hds' ds' rfl).known, fun σ => ?_⟩
      rw [satisfies_append, (hx ds rfl).iff, (hds' ds' rfl).iff]
      simp [Means, Proposition.eval_and]

theorem toCnf_spec (hnd : symbols.Nodup) {p : Proposition}
    (hp : Proposition.Conjunct (· ∈ symbols) p) :
    ∃ r, toCnf (SymbolMapping.new symbols) p = some r ∧
      ∀ ds, r = some ds → Clausal symbols (Means symbols e p) ds := by
  obtain ⟨r, hr, hds⟩ := toDisjunction_spec (e := e) hnd hp
  cases r with
  | some ds => exact ⟨some ds, by simp [toCnf, hr], hds⟩
  | none =>
    cases hp with
    | atMostOne => exact ⟨none, by simp [toCnf, hr], by simp⟩
    | reduced hp =>
      cases hp with
      | @and fv h =>
        obtain ⟨r', hr', hds'⟩ := disjunctionsOf_spec (e := e) hnd fun o ho => .reduced (h o ho)
        exact ⟨r', by simp [toCnf, hr, hr'], hds'⟩
      | _ => exact ⟨none, by simp [toCnf, hr], by simp⟩

end AlreadyInCnf

theorem cnfFor_spec (hnd : symbols.Nodup) (h : Ready symbols cs t) (hb : t.buff = [])
    {p : Proposition} (hp : Proposition.Conjunct (· ∈ symbols) p) :
    Emits (cnfFor p) t fun ds t' => Delivers symbols cs t (Means symbols e p) ds t' := by
  obtain ⟨r, hr, hds⟩ := toCnf_spec (e := e) hnd hp
  refine .bind (.get (.bind ⟨r, t, by rw [h.mapping, hr]; rfl, ?_⟩))
  cases r with
  | none => exact apply_spec hnd h hb hp
  | some ds =>
    have hclausal := hds ds rfl
    refine .pure ?_
    have hreq := h.refl.require (B := Means symbols e p) (hclausal.known.mono h.size)
      (fun _ _ => trivial) (fun σ _ _ hσ => (hclausal.iff σ).mp hσ) fun σ τ hστ hσ _ =>
        (hclausal.iff τ).mpr (((upTo_means hnd p).mono h.size σ τ hστ).mp hσ)
    obtain ⟨mapping, literalCount, buff, constTrue⟩ := t
    obtain rfl : buff = [] := hb
    simpa using hreq.delivers rfl

theorem cnfForAll_spec (hnd : symbols.Nodup) (h : Ready symbols cs t) (hb : t.buff = [])
    {props : List Proposition} (hp : ∀ p ∈ props, Proposition.Conjunct (· ∈ symbols) p) :
    Emits (cnfForAll props) t fun ds t' =>
      Delivers symbols cs t (Means symbols e (.and props)) ds t' := by
  induction props generalizing cs t with
  | nil =>
    refine .pure ?_
    have hmeans : Means symbols e (.and []) = fun _ => True := by
      simp [funext_iff, Means, Proposition.eval]
    rw [hmeans]
    exact .refl h hb
  | cons x props ih =>
    refine .bind ((cnfFor_spec (e := e) hnd h hb (hp x (by simp))).mono fun ds t' h' => ?_)
    refine .bind ((ih h'.ready h'.buff fun p hp' => hp p (by simp [hp'])).mono fun ds' t'' h'' => ?_)
    have hmeans : Means symbols e (.and (x :: props)) =
        fun σ => Means symbols e x σ ∧ Means symbols e (.and props) σ := by
      simp [funext_iff, Means, Proposition.eval_and]
    rw [hmeans]
    exact .pure (h'.trans h h'' (upTo_means hnd _))

theorem conjunctsCnf_spec (hnd : symbols.Nodup) (h : Ready symbols cs t) (hb : t.buff = [])
    {p : Proposition} (hp : p.Simplified (· ∈ symbols)) :
    Emits (conjunctsCnf p) t fun ds t' => Delivers symbols cs t (Means symbols e p) ds t' := by
  unfold conjunctsCnf
  split
  case h_1 props => exact cnfForAll_spec hnd h hb fun o ho => hp.conjuncts ho
  case h_2 hother =>
    cases hp with
    | conjunct hp => exact cnfFor_spec hnd h hb hp
    | and => exact absurd rfl (hother _)

section Main

theorem Proposition.eval_congr {v w : SymId → Bool} {p : Proposition}
    (h : ∀ s ∈ p.occurrences, v s = w s) : p.eval v e = p.eval w e := by
  have operand : ∀ {ops : List Proposition} {o : Proposition}, o ∈ ops →
      (∀ s ∈ (ops.map occurrences).flatten, v s = w s) → ∀ s ∈ o.occurrences, v s = w s :=
    fun ho h s hs => h s (List.mem_flatten.mpr ⟨_, List.mem_map_of_mem ho, hs⟩)
  induction p with
  | and ops ih =>
    rw [eval, eval, List.map_congr_left fun o ho => ih o ho (operand ho (by simpa only [occurrences] using h))]
  | or ops ih =>
    rw [eval, eval, List.map_congr_left fun o ho => ih o ho (operand ho (by simpa only [occurrences] using h))]
  | not a ih => rw [eval, eval, ih (by simpa only [occurrences] using h)]
  | atMostOne ops =>
    rw [eval, eval, List.countP_congr fun s hs => by rw [h s (by simpa only [occurrences] using hs)]]
  | sym s => simpa only [eval] using h s (by simp [occurrences])
  | _ => simp [eval]

/-- An assignment that gives the numbered symbols the values of a valuation. -/
def assignmentOf (symbols : List SymId) (v : SymId → Bool) (x : ℕ) : Bool :=
  (symbols[x - 1]?.map v).getD false

theorem valuation_assignmentOf (hnd : symbols.Nodup) (v : SymId → Bool) {s : SymId}
    (hs : s ∈ symbols) : valuation symbols (assignmentOf symbols v) s = v s := by
  obtain ⟨i, hi⟩ := List.mem_iff_getElem?.mp hs
  have hlit := (SymbolMapping.lit_new hnd).mpr ⟨i, hi, rfl⟩
  simp [valuation, hlit, assignmentOf, hi]

/-- The state the conjuncts are converted from. -/
def initialTransformer (symbols : List SymId) : TransformToCnf :=
  { mapping := SymbolMapping.new symbols, literalCount := (SymbolMapping.new symbols).size,
    buff := [], constTrue := none }

theorem ready_initial (hnd : symbols.Nodup) : Ready symbols [] (initialTransformer symbols) :=
  ⟨rfl, (SymbolMapping.size_new hnd).ge, by simp [KnownClauses, initialTransformer],
    by simp [initialTransformer]⟩

/-- A valuation satisfies the proposition where it extends to the clauses. -/
structure Represents (e : VarId → ConstId → Bool) (p : Proposition) (s : Solvable) : Prop where
  mapping : s.mapping = SymbolMapping.new p.symbols
  nonZero : NonZero s.cnf
  iff : ∀ v, p.eval v e = true ↔ ∃ σ, Satisfies (L := Lit) σ s.cnf ∧
    ∀ y ∈ p.symbols, valuation p.symbols σ y = v y

theorem Delivers.represents {p q : Proposition} {ds : List Clause} {t' : TransformToCnf}
    (h : Delivers p.symbols [] (initialTransformer p.symbols) (Means p.symbols e q) ds t')
    (hq : ∀ v, q.eval v e = p.eval v e) :
    Represents e p ⟨ds, SymbolMapping.new p.symbols⟩ := by
  have hnd := p.symbols_nodup
  have hp : ∀ {v w : SymId → Bool}, (∀ y ∈ p.symbols, v y = w y) → p.eval v e = p.eval w e :=
    fun h => Proposition.eval_congr fun s hs => h s (Proposition.mem_symbols.mpr hs)
  refine ⟨rfl, fun c hc l hl => Known.v_ne_zero (h.encodes.known c hc l hl), fun v => ?_⟩
  constructor
  · intro hv
    have hmeans : Means p.symbols e q (assignmentOf p.symbols v) := by
      rw [Means, hq, hp fun y hy => valuation_assignmentOf hnd v hy]
      exact hv
    obtain ⟨τ, hτ, hsat, -⟩ := h.encodes.complete _ (satisfies_nil _) hmeans
    refine ⟨τ, hsat, fun y hy => ?_⟩
    rw [← valuation_upTo hnd (SymbolMapping.size_new hnd).ge hτ, valuation_assignmentOf hnd v hy]
  · rintro ⟨σ, hσ, hv⟩
    rw [← hp hv, ← hq]
    exact (h.encodes.sound σ hσ).1

theorem Emits.run' {α : Type} {x : ToCnf α} {post : α → TransformToCnf → Prop}
    (h : Emits x t post) : ∃ a t', x.run' t = some a ∧ post a t' := by
  obtain ⟨a, t', hx, hpost⟩ := h
  exact ⟨a, t', by simp [StateT.run', hx], hpost⟩

private theorem eqFreePropToSolvable_represents (fx : List UInt64 → UInt64)
    (e : VarId → ConstId → Bool) {p : Proposition}
    (hp : Proposition.Conjunctive (fun _ => True) (Proposition.Plain fun _ => True) p)
    (hsize : (p.simplify fx).exceedsSize = false) :
    ∃ s, eqFreePropToSolvable fx p = some (.ok s) ∧ Represents e p s := by
  have hnd := p.symbols_nodup
  have hsimple : (p.simplify fx).Simplified (· ∈ p.symbols) :=
    (hp.of_occurrences fun s hs => Proposition.mem_symbols.mpr hs).simplify fx
  have hready := ready_initial hnd
  have heval : ∀ v, (p.simplify fx).eval v e = p.eval v e := fun v => Proposition.eval_simplify fx p
  obtain ⟨ds, t', hrun, h⟩ := (conjunctsCnf_spec (e := e) hnd hready rfl hsimple).run'
  refine ⟨_, ?_, h.represents heval⟩
  have hrun' : StateT.run' (conjunctsCnf (p.simplify fx))
      { mapping := SymbolMapping.new p.symbols, literalCount := (SymbolMapping.new p.symbols).size,
        buff := [], constTrue := none } = some ds := hrun
  simp only [eqFreePropToSolvable, hsize, Bool.false_eq_true, if_false, hrun']
  rfl

theorem eqFreePropToSolvable_spec (fx : List UInt64 → UInt64) {p : Proposition}
    (hp : Proposition.Conjunctive (fun _ => True) (Proposition.Plain fun _ => True) p)
    (hsize : (p.simplify fx).exceedsSize = false) :
    ∃ s, eqFreePropToSolvable fx p = some (.ok s) ∧ ∀ e, Represents e p s := by
  obtain ⟨s, hs, -⟩ := eqFreePropToSolvable_represents fx (fun _ _ => false) hp hsize
  refine ⟨s, hs, fun e => ?_⟩
  obtain ⟨s', hs', h⟩ := eqFreePropToSolvable_represents fx e hp hsize
  obtain ⟨rfl⟩ : s = s' := by simpa [hs] using hs'
  exact h

/-- A valuation satisfies a proposition exactly where it extends, by some values
for the auxiliary variables, to an assignment satisfying every clause. -/
theorem satisfies_iff_extends_to_cnf (fx : List UInt64 → UInt64) (e : VarId → ConstId → Bool)
    (p : Proposition)
    (hp : Proposition.Conjunctive (fun _ => True) (Proposition.Plain fun _ => True) p)
    (hsize : (p.simplify fx).exceedsSize = false) :
    ∃ s, eqFreePropToSolvable fx p = some (.ok s) ∧ ∀ v : SymId → Bool, p.eval v e = true ↔
      ∃ σ : ℕ → Bool, Satisfies (L := Lit) σ s.cnf ∧
        ∀ y ∈ p.symbols, ∃ l, s.mapping.lit y = some l ∧ (Holds σ l ↔ v y = true) := by
  obtain ⟨s, hs, h⟩ := eqFreePropToSolvable_spec fx hp hsize
  refine ⟨s, hs, fun v => ((h e).iff v).trans (exists_congr fun σ => and_congr_right fun _ => ?_)⟩
  refine forall₂_congr fun y hy => ?_
  obtain ⟨l, hl⟩ := exists_litOf p.symbols_nodup hy
  rw [(h e).mapping, hl.1, Bool.eq_iff_iff, ← hl.2.2]
  simp

theorem satisfies_iff_extends_to_cnf_example :
    let p : Proposition := .and [.or [.sym 7, .and [.sym 8, .not (.sym 9)]], .atMostOne [7, 8, 9]]
    ∃ s, eqFreePropToSolvable (fun ws => ws.sum) p = some (.ok s) ∧ ∀ v : SymId → Bool,
      p.eval v (fun _ _ => false) = true ↔ ∃ σ : ℕ → Bool, Satisfies (L := Lit) σ s.cnf ∧
        ∀ y ∈ p.symbols, ∃ l, s.mapping.lit y = some l ∧ (Holds σ l ↔ v y = true) := by
  refine satisfies_iff_extends_to_cnf _ _ _ ?_ ?_
  · refine .and fun o ho => ?_
    simp only [List.mem_cons, List.not_mem_nil, or_false] at ho
    rcases ho with rfl | rfl
    · exact .other (.or fun o ho => by
        simp only [List.mem_cons, List.not_mem_nil, or_false] at ho
        rcases ho with rfl | rfl
        · exact .sym trivial
        · exact .and fun o ho => by
            simp only [List.mem_cons, List.not_mem_nil, or_false] at ho
            rcases ho with rfl | rfl
            · exact .sym trivial
            · exact .not (.sym trivial))
    · exact .atMostOne fun _ _ => trivial
  · simp [Proposition.simplify, Proposition.nnf, Proposition.nnfNot, Proposition.simplifyProp,
      Proposition.unique, Proposition.insert, Proposition.contains, Proposition.hash,
      Proposition.words, Proposition.beq, Proposition.simplifyAnd, Proposition.simplifyOr,
      Proposition.addConjunct, Proposition.addDisjunct, Proposition.hasImpureAtom,
      Proposition.anyPair, Proposition.opposed, Proposition.bigAnd, Proposition.bigOr,
      Proposition.exceedsSize, Proposition.maxFormulaSize, Proposition.maxDpllDepth]

end Main

end ScalaRs.Patmat
