import ScalaRs.CnfTransformationSteps

/-! # The clauses of a proposition are equisatisfiable with it, symbol by symbol -/
namespace ScalaRs.Patmat
open ClauseSemantics ScalaSets OneSidedEncodings

variable {symbols : List SymId} {cs : List Clause} {t t₀ t' : TransformToCnf} {A B : Condition}
  {ms : List (Condition × Lit)}

theorem Converts.require (h : Converts symbols cs t₀ t A ms) {ds : List Clause}
    (hds : KnownClauses Lit t.literalCount ds) (hBA : ∀ σ, B σ → A σ)
    (hsound : ∀ σ, A σ → (∀ m ∈ ms, Holds σ m.2 → m.1 σ) → Satisfies (L := Lit) σ ds → B σ)
    (hcomplete : ∀ σ τ, AgreeUpTo t₀.literalCount σ τ → B σ → (∀ m ∈ ms, m.1 σ → Holds τ m.2) →
      Satisfies (L := Lit) τ ds) :
    Converts symbols cs t₀ { t with buff := t.buff ++ ds } B ms := by
  have henc := h.encodes.require hds hBA hsound hcomplete
  rw [List.append_assoc] at henc
  refine ⟨⟨h.ready.mapping, h.ready.size, henc.known, fun l hl => ?_⟩, henc⟩
  rw [← List.append_assoc]
  exact List.mem_append_left ds (h.ready.constTrue l hl)

section Symbols

/-- The literal of a numbered symbol. -/
def LitOf (symbols : List SymId) (s : SymId) (l : Lit) : Prop :=
  (SymbolMapping.new symbols).lit s = some l ∧ Known symbols.length l ∧
    ∀ σ, Holds σ l ↔ valuation symbols σ s = true

theorem exists_litOf (hnd : symbols.Nodup) {s : SymId} (hs : s ∈ symbols) :
    ∃ l, LitOf symbols s l := by
  obtain ⟨i, hi⟩ := List.mem_iff_getElem?.mp hs
  have hlit := (SymbolMapping.lit_new hnd).mpr ⟨i, hi, rfl⟩
  refine ⟨⟨i + 1⟩, hlit, ?_, fun σ => ?_⟩
  · have := (List.getElem?_eq_some_iff.mp hi).1
    simp only [Known, literal_var, Lit.var_succ]
    omega
  · simp [valuation, hlit, Holds]

theorem valuation_upTo {n : ℕ} (hnd : symbols.Nodup) (hn : symbols.length ≤ n) {σ τ : ℕ → Bool}
    (h : AgreeUpTo n σ τ) : valuation symbols σ = valuation symbols τ := by
  funext s
  unfold valuation
  split
  case h_1 l hl =>
    obtain ⟨i, hi, rfl⟩ := (SymbolMapping.lit_new hnd).mp hl
    have := (List.getElem?_eq_some_iff.mp hi).1
    refine h _ ?_
    rw [Lit.var_succ]
    omega
  case h_2 => rfl

theorem Emits.symbolLit (hr : Ready symbols cs t) {s : SymId} {l : Lit} (hl : LitOf symbols s l)
    {post : Lit → TransformToCnf → Prop} (h : post l t) :
    Emits (TransformToCnf.symbolLit s) t post := by
  refine .bind (.get ⟨l, t, ?_, h⟩)
  rw [hr.mapping, hl.1]
  rfl

theorem Emits.mapM_symbolLit (hnd : symbols.Nodup) (hr : Ready symbols cs t) {ops : List SymId}
    (hops : ∀ s ∈ ops, s ∈ symbols) :
    Emits (ops.mapM TransformToCnf.symbolLit) t fun lits t' =>
      t' = t ∧ List.Forall₂ (LitOf symbols) ops lits := by
  induction ops with
  | nil => exact .pure ⟨rfl, .nil⟩
  | cons s ops ih =>
    obtain ⟨l, hl⟩ := exists_litOf hnd (hops s (by simp))
    rw [List.mapM_cons]
    refine .bind (.symbolLit hr hl (.bind ((ih fun s hs => hops s (by simp [hs])).mono ?_)))
    rintro lits t' ⟨rfl, hlits⟩
    exact .pure ⟨rfl, .cons hl hlits⟩

end Symbols

section AtMostOne

/-- At most one of the symbols is true, counted with repetition. -/
def AtMost (symbols : List SymId) (ops : List SymId) : Condition :=
  fun σ => ops.countP (valuation symbols σ) ≤ 1

def NoneOf (symbols : List SymId) (ops : List SymId) : Condition :=
  fun σ => ops.countP (valuation symbols σ) = 0

/-- The clauses of `addCombinations`. -/
def combinations : List Lit → List Clause
  | [] => []
  | l :: lits => (lits.map fun m => clause2 l.neg m.neg) ++ combinations lits

theorem Emits.addCombinations {lits : List Lit} {post : Unit → TransformToCnf → Prop}
    (h : post () { t with buff := t.buff ++ combinations lits }) :
    Emits (TransformToCnf.addCombinations lits) t post := by
  induction lits generalizing t with
  | nil => exact .pure (by simpa [combinations] using h)
  | cons l lits ih =>
    refine .bind (.forM_addClause (fun _ _ => clause2_not_empty _ _) (ih ?_))
    simpa [combinations] using h

theorem known_combinations {n : ℕ} {lits : List Lit} (h : ∀ l ∈ lits, Known n l) :
    KnownClauses Lit n (combinations lits) := by
  induction lits with
  | nil => simp [combinations, KnownClauses]
  | cons l lits ih =>
    have hl := Known.neg (h l (by simp))
    refine KnownClauses.append (fun c hc => ?_) (ih fun m hm => h m (by simp [hm]))
    obtain ⟨m, hm, rfl⟩ := List.mem_map.mp hc
    exact known_clause2 hl (Known.neg (h m (by simp [hm])))

theorem none_holds_iff {ops : List SymId} {lits : List Lit}
    (h : List.Forall₂ (LitOf symbols) ops lits) (σ : ℕ → Bool) :
    (∀ l ∈ lits, ¬ Holds σ l) ↔ NoneOf symbols ops σ := by
  unfold NoneOf
  induction h with
  | nil => simp
  | cons hl _ ih => simp [hl.2.2, ih, List.countP_cons, and_comm]

theorem known_of_forall₂ {ops : List SymId} {lits : List Lit}
    (h : List.Forall₂ (LitOf symbols) ops lits) : ∀ l ∈ lits, Known symbols.length l := by
  induction h with
  | nil => simp
  | cons hl _ ih => exact List.forall_mem_cons.mpr ⟨hl.2.1, ih⟩

theorem satisfies_combinations {ops : List SymId} {lits : List Lit}
    (h : List.Forall₂ (LitOf symbols) ops lits) (σ : ℕ → Bool) :
    Satisfies (L := Lit) σ (combinations lits) ↔ AtMost symbols ops σ := by
  induction h with
  | nil => simp [combinations, satisfies_nil, AtMost]
  | @cons s l ops lits hl hlits ih =>
    have hpairs : Satisfies (L := Lit) σ (lits.map fun m => clause2 l.neg m.neg) ↔
        (valuation symbols σ s = true → NoneOf symbols ops σ) := by
      rw [← none_holds_iff hlits, ← hl.2.2]
      simp only [Satisfies, List.forall_mem_map, satClause_clause2, Known.holds_neg hl.2.1]
      exact ⟨fun h hs m hm => ((Known.holds_neg (known_of_forall₂ hlits m hm) σ).mp
        ((h m hm).resolve_left (not_not.mpr hs))), fun h m hm => or_iff_not_imp_left.mpr fun hs =>
          (Known.holds_neg (known_of_forall₂ hlits m hm) σ).mpr (h (not_not.mp hs) m hm)⟩
    rw [combinations, satisfies_append, ih, hpairs]
    cases hs : valuation symbols σ s
    · simp [AtMost, hs]
    · simp only [AtMost, NoneOf, List.countP_cons, hs, true_imp_iff, if_true]
      omega

theorem atMost_concat (pre : List SymId) (s : SymId) (σ : ℕ → Bool) :
    AtMost symbols (pre ++ [s]) σ ↔
      AtMost symbols pre σ ∧ (valuation symbols σ s = true → NoneOf symbols pre σ) := by
  cases hs : valuation symbols σ s
  · simp [AtMost, List.countP_append, hs]
  · simp only [AtMost, NoneOf, List.countP_append, List.countP_singleton, hs, if_true,
      true_imp_iff]
    omega

theorem noneOf_concat (pre : List SymId) (s : SymId) (σ : ℕ → Bool) :
    NoneOf symbols (pre ++ [s]) σ ↔ NoneOf symbols pre σ ∧ ¬ valuation symbols σ s = true := by
  simp [NoneOf, List.countP_append]

theorem countSymbol_spec (hnd : symbols.Nodup) (h₀ : Ready symbols cs t₀) {pre : List SymId}
    {si : Lit} (h : Converts symbols cs t₀ t (AtMost symbols pre) [(NoneOf symbols pre, si.neg)])
    {s : SymId} (hs : s ∈ symbols) :
    Emits (TransformToCnf.countSymbol si s) t fun si' t' =>
      Converts symbols cs t₀ t' (AtMost symbols (pre ++ [s]))
        [(NoneOf symbols (pre ++ [s]), si'.neg)] := by
  obtain ⟨xi, hxi⟩ := exists_litOf hnd hs
  unfold TransformToCnf.countSymbol
  refine .bind (.symbolLit h.ready hxi (.bind (.newLiteral (.bind (.addClause
    (clause2_not_empty _ _) (.bind (.addClause (clause2_not_empty _ _) (.bind (.addClause
      (clause2_not_empty _ _) (.pure ?_))))))))))
  set si' : Lit := ⟨(t.literalCount + 1 : ℕ)⟩
  have hsi' : Known (t.literalCount + 1) si' := known_newLiteral _
  have hxik : Known t.literalCount xi := hxi.2.1.mono h.ready.size
  have hsik : Known t.literalCount si := by
    simpa using Known.neg (h.encodes.literal_known _ (List.mem_singleton_self _))
  have hclauses : ∀ σ, Satisfies (L := Lit) σ
      [clause2 xi.neg si', clause2 si.neg si', clause2 xi.neg si.neg] ↔
      (Holds σ xi → Holds σ si') ∧ (Holds σ si → Holds σ si') ∧ (Holds σ xi → ¬ Holds σ si) := by
    intro σ
    simp only [satisfies_cons, satisfies_nil, satClause_clause2, Known.holds_neg hxik,
      Known.holds_neg hsik, ← imp_iff_not_or, and_true]
  have hbuff : t.buff ++ [clause2 xi.neg si'] ++ [clause2 si.neg si'] ++ [clause2 xi.neg si.neg] =
      t.buff ++ [clause2 xi.neg si', clause2 si.neg si', clause2 xi.neg si.neg] := by simp
  rw [hbuff]
  refine (h.define _ (NoneOf symbols (pre ++ [s])) si'.neg _ (var_newLiteral _)
    (fun c hc => ?_) (fun σ hB => ((atMost_concat pre s σ).mp hB).1) (fun σ hA hm _ hds => ?_)
    fun σ τ hB hm hστ _ hoτ => ?_).head
  · have hxik' := Known.neg (hxik.mono (Nat.le_succ _))
    have hsik' := Known.neg (hsik.mono (Nat.le_succ _))
    simp only [List.mem_cons, List.not_mem_nil, or_false] at hc
    rcases hc with rfl | rfl | rfl <;> exact known_clause2 ‹_› ‹_›
  · rw [List.forall_mem_singleton, Known.holds_neg hsik] at hm
    obtain ⟨h₁, h₂, h₃⟩ := (hclauses σ).mp hds
    rw [atMost_concat, noneOf_concat, Known.holds_neg hsi', ← hxi.2.2]
    exact ⟨⟨hA, fun hx => hm (h₃ hx)⟩, fun hs => ⟨hm (mt h₂ hs), mt h₁ hs⟩⟩
  · rw [List.forall_mem_singleton, Known.holds_neg hsik] at hm
    rw [noneOf_concat, Known.holds_neg hsi', ← hxi.2.2, hστ.holds_iff (hxi.2.1.mono h₀.size)] at hoτ
    have hB := ((atMost_concat pre s σ).mp hB).2
    rw [← hxi.2.2, hστ.holds_iff (hxi.2.1.mono h₀.size)] at hB
    refine (hclauses τ).mpr ⟨fun hx => ?_, fun hs => ?_, fun hx => hm (hB hx)⟩
    · exact not_not.mp fun hs => (hoτ.mp hs).2 hx
    · exact not_not.mp fun hs' => hm (hoτ.mp hs').1 hs

theorem foldlM_countSymbol_spec (hnd : symbols.Nodup) (h₀ : Ready symbols cs t₀)
    {pre mid : List SymId} {si : Lit}
    (h : Converts symbols cs t₀ t (AtMost symbols pre) [(NoneOf symbols pre, si.neg)])
    (hmid : ∀ s ∈ mid, s ∈ symbols) :
    Emits (mid.foldlM TransformToCnf.countSymbol si) t fun si' t' =>
      Converts symbols cs t₀ t' (AtMost symbols (pre ++ mid))
        [(NoneOf symbols (pre ++ mid), si'.neg)] := by
  induction mid generalizing pre si t with
  | nil => exact .pure (by simpa using h)
  | cons s mid ih =>
    refine .bind ((countSymbol_spec hnd h₀ h (hmid s (by simp))).mono fun si' t' h' => ?_)
    simpa using ih h' fun s hs => hmid s (by simp [hs])

theorem atMostOne_spec (hnd : symbols.Nodup) (h₀ : Ready symbols cs t) {ops : List SymId}
    (hops : ∀ s ∈ ops, s ∈ symbols) :
    Emits (TransformToCnf.atMostOne ops) t fun _ t' =>
      Converts symbols cs t t' (AtMost symbols ops) [] := by
  have htrivial : ∀ ops : List SymId, ops.length ≤ 1 → ∀ σ, AtMost symbols ops σ :=
    fun ops hlen σ => List.countP_le_length.trans hlen
  have refl_of : ∀ ops : List SymId, ops.length ≤ 1 →
      Converts symbols cs t t (AtMost symbols ops) [] := by
    intro ops hlen
    have hknown : KnownClauses Lit t.literalCount ([] : List Clause) := by simp [KnownClauses]
    simpa using h₀.refl.require (B := AtMost symbols ops) hknown (fun _ _ => trivial)
      (fun σ _ _ _ => htrivial ops hlen σ) fun _ τ _ _ _ => satisfies_nil τ
  unfold TransformToCnf.atMostOne
  split
  case h_1 => exact .pure (refl_of [] (by simp))
  case h_2 s => exact .pure (refl_of [s] (by simp))
  case h_3 x y tail =>
    split
    case isFalse =>
      refine .bind ((Emits.mapM_symbolLit hnd h₀ hops).mono ?_)
      rintro lits _ ⟨rfl, hlits⟩
      refine .addCombinations (h₀.refl.require ?_ (fun _ _ => trivial) (fun σ _ _ hds => ?_) ?_)
      · exact known_combinations fun l hl => (known_of_forall₂ hlits l hl).mono h₀.size
      · exact (satisfies_combinations hlits σ).mp hds
      · intro σ τ hστ hB _
        refine (satisfies_combinations hlits τ).mpr ?_
        rwa [AtMost, ← valuation_upTo hnd h₀.size hστ]
    case isTrue =>
      obtain ⟨x1, hx1⟩ := exists_litOf hnd (hops x (by simp))
      obtain ⟨xn, hxn⟩ := exists_litOf hnd (hops _ (List.mem_cons_of_mem x
        (List.getLast_mem (List.cons_ne_nil y tail))))
      have hx1k : Known t.literalCount x1 := hx1.2.1.mono h₀.size
      refine .bind (.symbolLit h₀ hx1 (.bind (.newLiteral (.bind (.addClause
        (clause2_not_empty _ _) ?_)))))
      set s1 : Lit := ⟨(t.literalCount + 1 : ℕ)⟩
      have hs1 : Known (t.literalCount + 1) s1 := known_newLiteral _
      have hclause : ∀ σ, Satisfies (L := Lit) σ [clause2 x1.neg s1] ↔ (Holds σ x1 → Holds σ s1) := by
        intro σ
        simp only [satisfies_cons, satisfies_nil, satClause_clause2, Known.holds_neg hx1k,
          ← imp_iff_not_or, and_true]
      have hnone : ∀ σ, NoneOf symbols [x] σ ↔ ¬ Holds σ x1 := by
        simp [NoneOf, hx1.2.2]
      have hstart := (h₀.refl.define (AtMost symbols [x]) (NoneOf symbols [x]) s1.neg
        [clause2 x1.neg s1] (var_newLiteral _)
        (KnownClauses.singleton (known_clause2 (Known.neg (hx1k.mono (Nat.le_succ _))) hs1))
        (fun _ _ => trivial) (fun σ _ _ _ hds => ⟨htrivial [x] (by simp) σ, fun hs => ?_⟩)
        fun σ τ _ _ hστ _ hoτ => (hclause τ).mpr fun hx => ?_).head
      rotate_left
      · rw [hnone]
        exact mt ((hclause σ).mp hds) ((Known.holds_neg hs1 σ).mp hs)
      · rw [hnone, Known.holds_neg hs1, hστ.holds_iff hx1k] at hoτ
        exact not_not.mp fun hs => hoτ.mp hs hx
      refine .bind ((foldlM_countSymbol_spec hnd h₀ hstart fun s hs =>
        hops s (List.mem_cons_of_mem x (List.dropLast_subset _ hs))).mono fun si t' h' => ?_)
      refine .bind (.symbolLit h'.ready hxn (.addClause (clause2_not_empty _ _) ?_))
      have hops' : x :: y :: tail =
          [x] ++ (y :: tail).dropLast ++ [(y :: tail).getLast (List.cons_ne_nil y tail)] := by
        rw [List.append_assoc, List.dropLast_append_getLast]
        rfl
      have hxnk := hxn.2.1.mono h'.ready.size
      have hsik := h'.encodes.literal_known _ (List.mem_singleton_self _)
      have hclause : ∀ σ, Satisfies (L := Lit) σ [clause2 xn.neg si.neg] ↔
          (Holds σ xn → Holds σ si.neg) := by
        intro σ
        simp only [satisfies_cons, satisfies_nil, satClause_clause2, Known.holds_neg hxnk,
          ← imp_iff_not_or, and_true]
      rw [hops']
      refine Converts.forget (h'.require (KnownClauses.singleton (known_clause2 (Known.neg hxnk) hsik))
        (fun σ hB => ((atMost_concat _ _ σ).mp hB).1) (fun σ hA hm hds => ?_)
        fun σ τ hστ hB hm => (hclause τ).mpr fun hx => ?_)
      · exact (atMost_concat _ _ σ).mpr ⟨hA, fun hx => hm _ (List.mem_singleton_self _)
          ((hclause σ).mp hds ((hxn.2.2 σ).mpr hx))⟩
      · refine hm _ (List.mem_singleton_self _) (((atMost_concat _ _ σ).mp hB).2 ?_)
        rwa [← hxn.2.2, hστ.holds_iff (hxn.2.1.mono h₀.size)]

end AtMostOne

section Convert

variable (symbols) in
/-- The proposition holds of the values an assignment gives the symbols. -/
def Means (e : VarId → ConstId → Bool) (p : Proposition) : Condition :=
  fun σ => p.eval (valuation symbols σ) e = true

variable {e : VarId → ConstId → Bool}

theorem upTo_means (hnd : symbols.Nodup) (p : Proposition) :
    UpTo symbols.length (Means symbols e p) := by
  intro σ τ h
  rw [Means, Means, valuation_upTo hnd le_rfl h]

/-- What converting a formula in negation normal form gives: its literal. -/
def ConvertSpec (symbols : List SymId) (e : VarId → ConstId → Bool) (p : Proposition) : Prop :=
  ∀ cs t, Ready symbols cs t → Emits (TransformToCnf.convert p) t fun r t' =>
    ∃ l, r = some l ∧ Converts symbols cs t t' (fun _ => True) [(Means symbols e p, l)]

theorem convertAll_spec (hnd : symbols.Nodup) (h₀ : Ready symbols cs t₀) {fv : List Proposition}
    (hfv : ∀ o ∈ fv, ConvertSpec symbols e o) {out : List Lit}
    (h : Converts symbols cs t₀ t (fun _ => True) ms) (hout : Literals ms out) :
    Emits (TransformToCnf.convertAll fv out) t fun out' t' => ∃ ms',
      Converts symbols cs t₀ t' (fun _ => True) (ms ++ ms') ∧
      ms'.map Prod.fst = fv.map (Means symbols e) ∧ Literals (ms ++ ms') out' := by
  induction fv generalizing t ms out with
  | nil => exact .pure ⟨[], by simpa using h, rfl, by simpa using hout⟩
  | cons f fv ih =>
    rw [TransformToCnf.convertAll]
    refine .bind ((hfv f (by simp) cs t h.ready).mono ?_)
    rintro _ t' ⟨l, rfl, hl⟩
    have h' : Converts symbols cs t₀ t' (fun _ => True) (ms ++ [(Means symbols e f, l)]) := by
      simpa only [and_true] using h.trans h₀ hl (upTo_const _ _) (by simpa using upTo_means hnd f)
    have hout' : Literals (ms ++ [(Means symbols e f, l)]) (if l ∈ out then out else out ++ [l]) := by
      have hconcat : ∀ x, x ∈ (if l ∈ out then out else out ++ [l]) ↔ x ∈ out ∨ l = x := by
        intro x
        split <;> simp [eq_comm]
        rintro rfl
        assumption
      intro x
      rw [hconcat, hout x]
      simp [or_and_right, exists_or]
    refine (ih (fun o ho => hfv o (by simp [ho])) h' hout').mono ?_
    rintro out' t'' ⟨ms', hms', hmap, hlits⟩
    exact ⟨(Means symbols e f, l) :: ms', by simpa using hms', by simp [hmap], by simpa using hlits⟩

private theorem means_operands {fv : List Proposition} (h : ms.map Prod.fst = fv.map (Means symbols e))
    (σ : ℕ → Bool) : ((∀ m ∈ ms, m.1 σ) ↔ Means symbols e (.and fv) σ) ∧
      ((∃ m ∈ ms, m.1 σ) ↔ Means symbols e (.or fv) σ) := by
  have hall : (∀ m ∈ ms, m.1 σ) ↔ ∀ P ∈ ms.map Prod.fst, P σ := by simp
  have hex : (∃ m ∈ ms, m.1 σ) ↔ ∃ P ∈ ms.map Prod.fst, P σ := by simp
  rw [hall, hex, h]
  simp [Means, Proposition.eval_and, Proposition.eval_or]

theorem convert_spec (hnd : symbols.Nodup) {p : Proposition}
    (hp : Proposition.Reduced (· ∈ symbols) p) : ConvertSpec symbols e p := by
  have symbol : ∀ {s : SymId} {l : Lit}, LitOf symbols s l → ∀ {cs t}, Ready symbols cs t →
      Converts symbols cs t t (fun _ => True) [(Means symbols e (.sym s), l)] ∧
      Converts symbols cs t t (fun _ => True) [(Means symbols e (.not (.sym s)), l.neg)] := by
    intro s l hl cs t h
    have hknown : Known t.literalCount l := hl.2.1.mono h.size
    have hmeans : ∀ σ, Means symbols e (.sym s) σ ↔ Holds σ l := by
      intro σ
      rw [hl.2.2]
      simp [Means, Proposition.eval]
    have hnot : ∀ σ, Means symbols e (.not (.sym s)) σ ↔ Holds σ l.neg := by
      intro σ
      rw [Known.holds_neg hknown, hl.2.2]
      simp [Means, Proposition.eval]
    constructor
    · refine h.refl.weaken (List.forall_mem_singleton.mpr hknown) ?_ ?_
      · exact fun σ _ _ => List.forall_mem_singleton.mpr (hmeans σ).mpr
      · exact fun σ τ hστ _ _ => List.forall_mem_singleton.mpr fun hσ =>
          (hστ.holds_iff hknown).mp ((hmeans σ).mp hσ)
    · refine h.refl.weaken (List.forall_mem_singleton.mpr (Known.neg hknown)) ?_ ?_
      · exact fun σ _ _ => List.forall_mem_singleton.mpr (hnot σ).mpr
      · exact fun σ τ hστ _ _ => List.forall_mem_singleton.mpr fun hσ =>
          (hστ.holds_iff (Known.neg hknown)).mp ((hnot σ).mp hσ)
  induction hp with
  | @and fv h ih =>
    intro cs t h
    rw [TransformToCnf.convert]
    refine .bind ((convertAll_spec hnd h ih h.refl (by simp [Literals])).mono ?_)
    rintro lits t' ⟨ms, hms, hmap, hlits⟩
    refine .bind ((and_spec hms hlits).mono fun l t'' hl => .pure ⟨l, rfl, ?_⟩)
    have hmeans : (fun σ => ∀ m ∈ ms, m.1 σ) = Means symbols e (.and fv) :=
      funext fun σ => propext (means_operands hmap σ).1
    simpa only [List.nil_append, hmeans] using hl
  | @or fv h ih =>
    intro cs t h
    rw [TransformToCnf.convert]
    refine .bind ((convertAll_spec hnd h ih h.refl (by simp [Literals])).mono ?_)
    rintro lits t' ⟨ms, hms, hmap, hlits⟩
    refine .bind ((or_spec hms hlits).mono fun l t'' hl => .pure ⟨l, rfl, ?_⟩)
    have hmeans : (fun σ => ∃ m ∈ ms, m.1 σ) = Means symbols e (.or fv) :=
      funext fun σ => propext (means_operands hmap σ).2
    simpa only [List.nil_append, hmeans] using hl
  | @not s hs =>
    intro cs t h
    obtain ⟨l, hl⟩ := exists_litOf hnd hs
    rw [TransformToCnf.convert, TransformToCnf.convert]
    exact .bind (.bind (.symbolLit h hl (.pure (.pure ⟨l.neg, rfl, (symbol hl h).2⟩))))
  | @sym s hs =>
    intro cs t h
    obtain ⟨l, hl⟩ := exists_litOf hnd hs
    rw [TransformToCnf.convert]
    exact .bind (.symbolLit h hl (.pure ⟨l, rfl, (symbol hl h).1⟩))
  | true =>
    intro cs t h
    rw [TransformToCnf.convert]
    refine .bind ((and_spec h.refl (show Literals [] [] by simp [Literals])).mono
      fun l t' hl => .pure ⟨l, rfl, ?_⟩)
    have hmeans : Means symbols e .true = fun _ => True := by
      simp [funext_iff, Means, Proposition.eval]
    simpa [hmeans] using hl
  | false =>
    intro cs t h
    rw [TransformToCnf.convert]
    refine .bind ((or_spec h.refl (show Literals [] [] by simp [Literals])).mono
      fun l t' hl => .pure ⟨l, rfl, ?_⟩)
    have hmeans : Means symbols e .false = fun _ => False := by
      simp [funext_iff, Means, Proposition.eval]
    simpa [hmeans] using hl

end Convert

end ScalaRs.Patmat
