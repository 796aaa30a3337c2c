import ScalaRs.MatchCodeRuns

/-! # The switch and the tests of a match

Both run the same body, with the same variables, where no case with a key stands
behind the case without one, binds a variable or has a type test, and the case
without a key either binds whatever it gets in front of its body or binds and
tests nothing. -/
namespace ScalaRs.MatchCode
open ForwardJumps

variable {σ κ : Type} {env : Env κ}

/-- The code of the pattern has no jump. -/
def Pat.irrefutable (env : Env κ) : Pat σ κ → Bool
  | literal _ => false
  | wildcard => true
  | ident id => isBindingIdent env id
  | bind _ body => body.irrefutable env
  | typed tpt expr => !tpt.isSingletonPattern && expr.irrefutable env

/-- When a switch agrees with the tests. -/
structure SwitchSafe (env : Env κ) (selector : Selector) (cases : List (CaseDef σ κ)) : Prop where
  keys : ∀ (i : ℕ) (c : CaseDef σ κ) (k : ℤ), cases[i]? = some c → switchPatKey env c.pat = some (.key k) →
    k ∈ selector.values → c.pat.accepts env k ∧ c.pat.binders env = [] ∧
      ∀ (d : ℕ) (c' : CaseDef σ κ), d < i → cases[d]? = some c' → switchPatKey env c'.pat = some .default →
        c'.pat.accepts env k = false
  default : ∀ (d : ℕ) (c : CaseDef σ κ), cases[d]? = some c → switchPatKey env c.pat = some .default →
    if bindsInSwitch env c.pat then c.pat.irrefutable env
    else ∀ n ∈ selector.values,
      (∀ (i : ℕ) (c' : CaseDef σ κ), cases[i]? = some c' → switchPatKey env c'.pat ≠ some (.key n)) →
        c.pat.accepts env n ∧ c.pat.binders env = []

/-! ## Patterns -/

theorem eq_of_accepts_key {p : Pat σ κ} {k n : ℤ} (hkey : switchPatKey env p = some (.key k))
    (h : p.accepts env n) : n = k := by
  induction p with
  | wildcard => cases hkey
  | literal lit =>
    cases lit with
    | int m =>
      cases hkey
      exact (beq_iff_eq.mp h).symm
    | char m =>
      cases hkey
      exact (beq_iff_eq.mp h).symm
    | null => cases hkey
    | other c => cases hkey
  | ident id =>
    rw [switchPatKey] at hkey
    split at hkey <;> cases hkey
  | bind sym body ih => exact ih hkey h
  | typed tpt expr ih =>
    rw [Pat.accepts, Bool.and_eq_true, Bool.or_eq_true, Bool.and_eq_true] at h
    rcases h.2 with hblank | hexpr
    · cases expr with
      | wildcard => cases hkey
      | ident id =>
        rw [switchPatKey, switchPatKey] at hkey
        split at hkey <;> cases hkey
      | _ => cases hblank.2
    · exact ih hkey hexpr

theorem accepts_of_irrefutable {p : Pat σ κ} (h : p.irrefutable env) (n : ℤ) :
    p.accepts env n := by
  induction p with
  | wildcard => rfl
  | literal lit => cases h
  | ident id =>
    rw [Pat.irrefutable] at h
    rw [Pat.accepts, h, Bool.true_or]
  | bind sym body ih => exact ih h
  | typed tpt expr ih =>
    rw [Pat.irrefutable, Bool.and_eq_true, Bool.not_eq_true'] at h
    have htpt : tpt.accepts env n := by
      obtain ⟨singleton, stable, literal⟩ := tpt
      cases singleton <;> cases stable <;> cases literal <;>
        first | rfl | cases h.1
    rw [Pat.accepts, htpt, ih h.2, Bool.or_true]
    rfl

/-! ## The first case that matches -/

theorem firstMatch_eq_some {n : ℤ} {cases : List (CaseDef σ κ)} : ∀ {i k : ℕ} {c : CaseDef σ κ},
    cases[k]? = some c → c.pat.accepts env n →
    (∀ j < k, ∀ c' : CaseDef σ κ, cases[j]? = some c' → c'.pat.accepts env n = false) →
    firstMatch env n i cases = some (i + k, c.pat) := by
  induction cases with
  | nil => simp
  | cons c₀ cases ih =>
    intro i k c hc haccepts hbefore
    rw [firstMatch]
    cases k with
    | zero =>
      cases hc
      rw [if_pos haccepts, Nat.add_zero]
    | succ k =>
      rw [hbefore 0 (Nat.succ_pos k) c₀ rfl, if_neg Bool.false_ne_true, ih hc haccepts]
      · rw [Nat.add_right_comm, Nat.add_assoc]
      · exact fun j hj c' hc' => hbefore (j + 1) (Nat.succ_lt_succ hj) c' hc'

theorem of_firstMatch {n : ℤ} {cases : List (CaseDef σ κ)} : ∀ {i m : ℕ} {p : Pat σ κ},
    firstMatch env n i cases = some (m, p) → ∃ k c, m = i + k ∧ cases[k]? = some c ∧
      p = c.pat ∧ c.pat.accepts env n ∧
      ∀ j < k, ∀ c' : CaseDef σ κ, cases[j]? = some c' → c'.pat.accepts env n = false := by
  induction cases with
  | nil =>
    intro i m p h
    cases h
  | cons c₀ cases ih =>
    intro i m p h
    rw [firstMatch] at h
    split at h
    · next haccepts =>
      cases h
      exact ⟨0, c₀, rfl, rfl, rfl, haccepts, by simp⟩
    · next hrejects =>
      obtain ⟨k, c, rfl, hc, rfl, haccepts, hbefore⟩ := ih h
      refine ⟨k + 1, c, by omega, hc, rfl, haccepts, fun j hj c' hc' => ?_⟩
      cases j with
      | zero =>
        cases hc'
        simpa using hrejects
      | succ j => exact hbefore j (Nat.lt_of_succ_lt_succ hj) c' hc'

theorem firstMatch_eq_none {n : ℤ} {cases : List (CaseDef σ κ)} : ∀ {i : ℕ},
    (∀ c ∈ cases, c.pat.accepts env n = false) → firstMatch env n i cases = none := by
  induction cases with
  | nil => exact fun _ => rfl
  | cons c₀ cases ih =>
    intro i h
    rw [firstMatch, h c₀ List.mem_cons_self, if_neg Bool.false_ne_true]
    exact ih fun c hc => h c (.tail _ hc)

/-! ## Labels -/

/-- The code jumps to `fail` only, and does so if `b`. -/
structure JumpsTo (fail : Label) (b : Bool) (code : Code σ κ) : Prop where
  only : ∀ a, .op a ∈ code → ∀ l ∈ targets a, l = fail
  jumps : b → ∃ a, .op a ∈ code ∧ fail ∈ targets a
  none : b = false → ∀ a, .op a ∈ code → targets a = []

theorem JumpsTo.append {fail : Label} {b b' : Bool} {code code' : Code σ κ}
    (h : JumpsTo fail b code) (h' : JumpsTo fail b' code') :
    JumpsTo fail (b || b') (code ++ code') where
  only a ha := (List.mem_append.mp ha).elim (h.only a) (h'.only a)
  jumps hb := by
    rcases Bool.or_eq_true_iff.mp hb with hb | hb
    · obtain ⟨a, ha, hfail⟩ := h.jumps hb
      exact ⟨a, List.mem_append_left _ ha, hfail⟩
    · obtain ⟨a, ha, hfail⟩ := h'.jumps hb
      exact ⟨a, List.mem_append_right _ ha, hfail⟩
  none hb a ha := by
    rw [Bool.or_eq_false_iff] at hb
    exact (List.mem_append.mp ha).elim (h.none hb.1 a) (h'.none hb.2 a)

theorem jumpsTo_nil (fail : Label) : JumpsTo fail false ([] : Code σ κ) :=
  ⟨by simp, by simp, by simp⟩

theorem jumpsTo_store (fail : Label) (x : Option σ) :
    JumpsTo fail false ([.op .load, .op (.store x)] : Code σ κ) :=
  ⟨by simp [targets], by simp, by simp [targets]⟩

theorem jumpsTo_compare (c : κ) (fail : Label) :
    JumpsTo fail true ([.op (.compare c fail)] : Code σ κ) :=
  ⟨by simp [targets], by simp [targets], by simp⟩

theorem jumpsTo_literal (lit : Lit κ) (fail : Label) :
    JumpsTo fail true (genLiteralTest lit fail : Code σ κ) := by
  cases lit <;> exact ⟨by simp [genLiteralTest, targets], by simp [genLiteralTest, targets], by simp⟩

theorem jumpsTo_typeTest (tpt : TypeTree κ) (fail : Label) :
    JumpsTo fail tpt.isSingletonPattern (genTypeTest tpt fail : Code σ κ) := by
  obtain ⟨singleton, stable, literal⟩ := tpt
  cases singleton with
  | true => exact jumpsTo_nil fail
  | false =>
    cases stable with
    | some path => exact jumpsTo_compare path fail
    | none =>
      cases literal with
      | some lit => exact jumpsTo_literal lit fail
      | none => exact jumpsTo_nil fail

theorem jumpsTo_genPattern (fail : Label) (p : Pat σ κ) :
    JumpsTo fail (!p.irrefutable env) (genPattern env fail p) := by
  induction p with
  | wildcard => exact jumpsTo_nil fail
  | literal lit => exact jumpsTo_literal lit fail
  | ident id =>
    rw [genPattern, Pat.irrefutable]
    split
    · next hbinds =>
      rw [hbinds]
      exact jumpsTo_store fail id.sym
    · next hbinds =>
      rw [(Bool.not_eq_true _).mp hbinds]
      exact jumpsTo_compare id.path fail
  | bind sym body ih =>
    rw [genPattern, Pat.irrefutable, ← Bool.or_false (!_)]
    exact ih.append (jumpsTo_store fail sym)
  | typed tpt expr ih =>
    rw [genPattern, Pat.irrefutable, Bool.not_and, Bool.not_not]
    split
    · next hblank =>
      rw [Bool.and_eq_true] at hblank
      have htest : JumpsTo fail _ (genTypeTest tpt fail : Code σ κ) := jumpsTo_typeTest tpt fail
      rw [hblank.1] at htest ⊢
      rw [List.append_nil, Bool.true_or]
      exact htest
    · exact (jumpsTo_typeTest tpt fail).append ih

theorem mem_genSwitchCases {caseLab : ℕ → Label} {miss fin : Label} {a : Op σ κ}
    {cases : List (CaseDef σ κ)} : ∀ {i : ℕ},
    .op a ∈ genSwitchCases env caseLab miss fin i cases ↔ ∃ j c, cases[j]? = some c ∧
      (bindsInSwitch env c.pat ∧ .op a ∈ genPattern env miss c.pat ∨
        a = .body (i + j) ∨ a = .goto fin) := by
  induction cases with
  | nil => simp [genSwitchCases]
  | cons c cases ih =>
    intro i
    have hhead : .op a ∈ (if bindsInSwitch env c.pat then genPattern env miss c.pat else []) ↔
        bindsInSwitch env c.pat ∧ .op a ∈ genPattern env miss c.pat := by
      split <;> simp_all
    simp only [genSwitchCases, List.cons_append, List.mem_cons, List.mem_append, hhead, ih,
      reduceCtorEq, false_or, Instr.op.injEq, List.not_mem_nil, or_false]
    constructor
    · intro h
      rcases h with (hpat | hbody) | ⟨j, c', hc', hop⟩
      · exact ⟨0, c, rfl, .inl hpat⟩
      · exact ⟨0, c, rfl, .inr hbody⟩
      · exact ⟨j + 1, c', hc', by rwa [show i + (j + 1) = i + 1 + j by omega]⟩
    · intro h
      obtain ⟨j, c', hc', hop⟩ := h
      cases j with
      | zero =>
        cases hc'
        exact .inl hop
      | succ j =>
        exact .inr ⟨j, c', hc', by rwa [show i + (j + 1) = i + 1 + j by omega] at hop⟩

theorem targets_genSwitchOp {keys : List (ℤ × ℕ)} {caseLab : ℕ → Label} {dflt l : Label}
    {lo hi : ℤ} (h : l ∈ targets (genSwitchOp keys caseLab dflt lo hi : Op σ κ)) :
    l = dflt ∨ ∃ key ∈ keys, l = caseLab key.2 := by
  have hlabel : ∀ n, keyLabel keys caseLab dflt n = dflt ∨
      ∃ key ∈ keys, keyLabel keys caseLab dflt n = caseLab key.2 := by
    intro n
    rw [keyLabel]
    split
    · next key hkey => exact .inr ⟨_, List.mem_of_find?_eq_some hkey, rfl⟩
    · exact .inl rfl
  unfold genSwitchOp at h
  split at h
  · rcases List.mem_cons.mp h with h | h
    · exact .inl h
    · obtain ⟨n, -, rfl⟩ := List.mem_map.mp h
      exact hlabel n
  · rcases List.mem_cons.mp h with h | h
    · exact .inl h
    · simp only [List.mem_map, List.mem_mergeSort] at h
      obtain ⟨_, ⟨key, hkey, rfl⟩, rfl⟩ := h
      exact .inr ⟨key, hkey, rfl⟩

variable {cases : List (CaseDef σ κ)} {keys : List (ℤ × ℕ)} {dflt : Option ℕ}

theorem marks_switchCode (next : Label) (lo hi : ℤ) :
    marks (switchCode env cases next keys dflt lo hi) =
      (List.range' 0 cases.length).map (next + ·) ++
        (if dflt.isNone then [next + cases.length] else []) ++ [next + cases.length + 1] := by
  rw [switchCode]
  simp only [marks_op, marks_append, marks_genSwitchCases, marks_mark, marks_nil]
  split <;> simp

/-- All labels are marked unless a pattern in front of a body has a jump. -/
theorem allMarked_switchCode (h : Classified env cases keys dflt) (next : Label) (lo hi : ℤ) :
    AllMarked targets (switchCode env cases next keys dflt lo hi) ↔
      ∀ c ∈ cases, bindsInSwitch env c.pat → c.pat.irrefutable env := by
  have hcaseLab : ∀ {i : ℕ}, i < cases.length →
      next + i ∈ marks (switchCode env cases next keys dflt lo hi) := by
    intro i hi
    rw [marks_switchCode, List.mem_append, List.mem_append]
    exact .inl (.inl (List.mem_map.mpr ⟨i, by simpa using hi, rfl⟩))
  have hlt : ∀ {i : ℕ} {c : CaseDef σ κ}, cases[i]? = some c → i < cases.length :=
    fun hc => (List.getElem?_eq_some_iff.mp hc).1
  constructor
  · intro hmarked c hc hbinds
    rw [← Bool.not_eq_false]
    intro hrefutable
    have hjumps := (@jumpsTo_genPattern _ _ env (next + cases.length) c.pat).jumps
    rw [hrefutable] at hjumps
    obtain ⟨a, ha, hmiss⟩ := hjumps rfl
    obtain ⟨i, hget⟩ := List.mem_iff_getElem?.mp hc
    have hop : .op a ∈ switchCode env cases next keys dflt lo hi := by
      rw [switchCode]
      simp only [List.mem_cons, List.mem_append]
      exact .inr (.inr (.inl (mem_genSwitchCases.mpr ⟨i, c, hget, .inl ⟨hbinds, ha⟩⟩)))
    have hmem := hmarked a hop _ hmiss
    rw [marks_switchCode, h.isSome_of_bindsInSwitch hget hbinds] at hmem
    simp at hmem
  · intro hsafe a ha l hl
    rw [switchCode] at ha
    simp only [List.mem_cons, List.mem_append, Instr.op.injEq] at ha
    rcases ha with rfl | rfl | ha | ha | ha
    · cases hl
    · rcases targets_genSwitchOp hl with rfl | ⟨key, hkey, rfl⟩
      · cases hdflt : dflt with
        | none =>
          rw [marks_switchCode]
          simp
        | some d =>
          obtain ⟨c, hc, -⟩ := (h.default d).mp hdflt
          have hlabel : (dflt.map (next + ·)).getD (next + cases.length) = next + d := by
            rw [hdflt]
            rfl
          rw [← hdflt, hlabel]
          exact hcaseLab (hlt hc)
      · obtain ⟨c, hc, -⟩ := (h.key key.1 key.2).mp hkey
        exact hcaseLab (hlt hc)
    · obtain ⟨i, c, hc, hop⟩ := mem_genSwitchCases.mp ha
      rcases hop with ⟨hbinds, hop⟩ | rfl | rfl
      · have hnone := (@jumpsTo_genPattern _ _ env (next + cases.length) c.pat).none
        rw [hsafe c (List.mem_of_getElem? hc) hbinds] at hnone
        rw [hnone rfl a hop] at hl
        cases hl
      · cases hl
      · rw [List.mem_singleton.mp hl, marks_switchCode]
        simp
    · split at ha <;> simp at ha
      rw [ha] at hl
      cases hl
    · simp at ha

theorem Classified.selected_iff (h : Classified env cases keys dflt) {n : ℤ} {i : ℕ} :
    selectedCase keys dflt n = some i ↔
      (n, i) ∈ keys ∨ (∀ j, (n, j) ∉ keys) ∧ dflt = some i := by
  rw [selectedCase, Option.or_eq_some_iff, find?_key_iff h.nodup]
  apply or_congr_right
  apply and_congr_left
  intro _
  rw [Option.eq_none_iff_forall_ne_some]
  exact forall_congr' fun j => not_congr (find?_key_iff h.nodup)

/-- A case without the default's pattern that matches has the selector for its key. -/
theorem Classified.key_of_accepts (h : Classified env cases keys dflt) {n : ℤ} {i : ℕ}
    {c : CaseDef σ κ} (hc : cases[i]? = some c) (haccepts : c.pat.accepts env n)
    (hdefault : dflt ≠ some i) : (n, i) ∈ keys := by
  cases hkey : switchPatKey env c.pat with
  | none => exact absurd hkey (h.total c (List.mem_of_getElem? hc))
  | some sp =>
    cases sp with
    | default => exact absurd ((h.default i).mpr ⟨c, hc, hkey⟩) hdefault
    | key k =>
      rw [eq_of_accepts_key hkey haccepts]
      exact (h.key k i).mpr ⟨c, hc, hkey⟩

theorem Classified.key_unique (h : Classified env cases keys dflt) {n : ℤ} {i j : ℕ}
    (hi : (n, i) ∈ keys) (hj : (n, j) ∈ keys) : i = j := by
  have heq := ((find?_key_iff h.nodup).mpr hi).symm.trans ((find?_key_iff h.nodup).mpr hj)
  exact Option.some.inj heq

variable [DecidableEq σ]

theorem exec_genTests (hguards : ∀ c ∈ cases, c.hasGuard = false) (next : Label) (s : State σ) :
    exec env (genTests env cases next) s =
      match firstMatch env s.selector 0 cases with
      | some (j, p) => .ended (s.ranCase j (p.binders env))
      | none => .halted .matchError :=
  exec_genCases (Nat.lt_succ_self next) hguards 0 s

/-- The variables that a pattern binds are seen in locals that were empty. -/
theorem bound_ne_none {n : ℤ} {x : σ} {xs : List σ} : ∀ {locals : σ → Option ℤ},
    x ∈ xs ∨ locals x ≠ none → bound n xs locals x ≠ none := by
  induction xs with
  | nil => simp [bound]
  | cons y xs ih =>
    intro locals h
    rw [bound, List.foldl_cons]
    apply ih
    by_cases hx : x = y
    · subst hx
      simp
    · simpa [hx] using h

theorem tests_ran {n : ℤ} {i : ℕ} {c : CaseDef σ κ} {next : Label} (hc : cases[i]? = some c)
    (hguards : ∀ c ∈ cases, c.hasGuard = false)
    (h : exec env (genTests env cases next) (.init n fun _ => none) =
      .ended ((State.init n fun _ => none).ranCase i [])) :
    c.pat.accepts env n ∧ c.pat.binders env = [] ∧
      ∀ j < i, ∀ c' : CaseDef σ κ, cases[j]? = some c' → c'.pat.accepts env n = false := by
  rw [exec_genTests hguards] at h
  cases hfirst : firstMatch env n 0 cases with
  | none =>
    simp only [State.init, hfirst] at h
    cases h
  | some found =>
    obtain ⟨m, p⟩ := found
    obtain ⟨j, c', rfl, hc', rfl, haccepts, hbefore⟩ := of_firstMatch hfirst
    simp only [State.init, hfirst] at h
    injection h with hstate
    have hran := congrArg State.ran hstate
    simp only [State.ranCase, State.bind, bound, List.nil_append, List.foldl_nil, List.cons.injEq,
      Prod.mk.injEq, and_true, Nat.zero_add] at hran
    obtain ⟨rfl, hlocals⟩ := hran
    rw [hc] at hc'
    cases hc'
    refine ⟨haccepts, List.eq_nil_iff_forall_not_mem.mpr fun x hx => ?_, hbefore⟩
    exact bound_ne_none (.inl hx) (congrFun hlocals x)

omit [DecidableEq σ] in
/-- Where a switch is safe, the selected case is the first that matches. -/
theorem SwitchSafe.selected {selector : Selector} (hsafe : SwitchSafe env selector cases)
    (h : Classified env cases keys dflt) {n : ℤ} (hn : n ∈ selector.values) {i : ℕ}
    (hsel : selectedCase keys dflt n = some i) :
    ∃ c, cases[i]? = some c ∧ c.pat.accepts env n ∧
      (¬ bindsInSwitch env c.pat → c.pat.binders env = []) ∧
      ∀ j < i, ∀ c' : CaseDef σ κ, cases[j]? = some c' → c'.pat.accepts env n = false := by
  rcases h.selected_iff.mp hsel with hmem | ⟨hnone, hdflt⟩
  · obtain ⟨c, hc, hkey⟩ := (h.key n i).mp hmem
    obtain ⟨haccepts, hbinders, hdefault⟩ := hsafe.keys i c n hc hkey hn
    refine ⟨c, hc, haccepts, fun _ => hbinders, fun j hj c' hc' => ?_⟩
    rw [← Bool.not_eq_true]
    intro haccepts'
    by_cases hdflt : dflt = some j
    · obtain ⟨c'', hc'', hkey''⟩ := (h.default j).mp hdflt
      rw [hc'] at hc''
      cases hc''
      rw [hdefault j c' hj hc' hkey''] at haccepts'
      cases haccepts'
    · have hsame := h.key_unique (h.key_of_accepts hc' haccepts' hdflt) hmem
      omega
  · obtain ⟨c, hc, hkey⟩ := (h.default i).mp hdflt
    have hsafe_c := hsafe.default i c hc hkey
    have hmatch : c.pat.accepts env n ∧ (¬ bindsInSwitch env c.pat → c.pat.binders env = []) := by
      split at hsafe_c
      · next hbinds => exact ⟨accepts_of_irrefutable hsafe_c n, fun h => absurd hbinds h⟩
      · have hkeys : ∀ (j : ℕ) (c' : CaseDef σ κ), cases[j]? = some c' →
            switchPatKey env c'.pat ≠ some (.key n) :=
          fun j c' hc' hkey' => hnone j ((h.key n j).mpr ⟨c', hc', hkey'⟩)
        obtain ⟨haccepts, hbinders⟩ := hsafe_c n hn hkeys
        exact ⟨haccepts, fun _ => hbinders⟩
    refine ⟨c, hc, hmatch.1, hmatch.2, fun j hj c' hc' => ?_⟩
    rw [← Bool.not_eq_true]
    intro haccepts'
    apply hnone j
    apply h.key_of_accepts hc' haccepts'
    rw [hdflt]
    simp only [ne_eq, Option.some.injEq]
    omega

/-- The switch does what the tests do, for every selector, and all its labels are
marked, exactly where it is safe. -/
theorem genIntSwitch_agrees_iff {selector : Selector} {cases : List (CaseDef σ κ)} {next : Label}
    {code : Code σ κ} (h : genIntSwitch env selector cases next = some code) :
    ((∀ n ∈ selector.values, ∀ locals, exec env code (.init n locals) =
        exec env (genTests env cases next) (.init n locals)) ∧ AllMarked targets code) ↔
      SwitchSafe env selector cases := by
  obtain ⟨keys, dflt, lo, hi, hclass, hrange, rfl⟩ := genIntSwitch_eq_some h
  rw [allMarked_switchCode hclass]
  constructor
  · intro hagree
    constructor
    · intro i c k hc hkey hk
      have hsel := hclass.selected_iff.mpr (.inl ((hclass.key k i).mpr ⟨c, hc, hkey⟩))
      have hbinds : ¬ bindsInSwitch env c.pat := by
        unfold bindsInSwitch
        simp [hkey]
      have hrun := hagree.1 k hk fun _ => none
      rw [exec_switchCode_some hclass hrange next hsel hc, if_neg hbinds] at hrun
      obtain ⟨haccepts, hbinders, hbefore⟩ := tests_ran hc hclass.unguarded hrun.symm
      exact ⟨haccepts, hbinders, fun d c' hd hc' _ => hbefore d hd c' hc'⟩
    · intro d c hc hdefault
      split
      · next hbinds => exact hagree.2 c (List.mem_of_getElem? hc) hbinds
      · next hbinds =>
        intro n hn hkeys
        have hnone : ∀ j, (n, j) ∉ keys := by
          intro j hmem
          obtain ⟨c', hc', hkey⟩ := (hclass.key n j).mp hmem
          exact hkeys j c' hc' hkey
        have hsel := hclass.selected_iff.mpr
          (.inr ⟨hnone, (hclass.default d).mpr ⟨c, hc, hdefault⟩⟩)
        have hrun := hagree.1 n hn fun _ => none
        rw [exec_switchCode_some hclass hrange next hsel hc, if_neg hbinds] at hrun
        obtain ⟨haccepts, hbinders, -⟩ := tests_ran hc hclass.unguarded hrun.symm
        exact ⟨haccepts, hbinders⟩
  · intro hsafe
    constructor
    · intro n hn locals
      rw [exec_genTests hclass.unguarded]
      cases hsel : selectedCase keys dflt n with
      | none =>
        obtain ⟨hkey, hdflt⟩ := Option.or_eq_none_iff.mp hsel
        have hrejects : ∀ c ∈ cases, c.pat.accepts env n = false := by
          intro c hc
          rw [← Bool.not_eq_true]
          intro haccepts
          obtain ⟨i, hget⟩ := List.mem_iff_getElem?.mp hc
          have hmem := hclass.key_of_accepts hget haccepts (by simp [hdflt])
          rw [(find?_key_iff hclass.nodup).mpr hmem] at hkey
          cases hkey
        rw [exec_switchCode_none hclass hrange next hsel]
        simp only [State.init, firstMatch_eq_none hrejects]
      | some i =>
        obtain ⟨c, hc, haccepts, hbinders, hbefore⟩ := hsafe.selected hclass hn hsel
        have hfirst := firstMatch_eq_some (i := 0) hc haccepts hbefore
        rw [exec_switchCode_some hclass hrange next hsel hc]
        simp only [State.init, hfirst, haccepts, if_true, Nat.zero_add]
        split
        · rfl
        · next hbinds => rw [hbinders hbinds]
    · intro c hc hbinds
      obtain ⟨i, hget⟩ := List.mem_iff_getElem?.mp hc
      have hdefault : switchPatKey env c.pat = some .default := by
        unfold bindsInSwitch at hbinds
        split at hbinds <;> simp_all
      simpa [hbinds] using hsafe.default i c hget hdefault

/-- `case 1 => …; case x => …` -/
def literalThenVariable : List (CaseDef String Unit) :=
  [⟨.literal (.int 1), false⟩, ⟨.ident ⟨"x", some "x", true, false, ()⟩, false⟩]

def asciiEnv : Env Unit := ⟨Char.isLower, fun _ _ => false, fun _ => true⟩

theorem genIntSwitch_agrees_sample :
    ∃ code, genIntSwitch asciiEnv .int literalThenVariable 0 = some code ∧
      (((∀ n ∈ Selector.int.values, ∀ locals, exec asciiEnv code (.init n locals) =
          exec asciiEnv (genTests asciiEnv literalThenVariable 0) (.init n locals)) ∧
        AllMarked targets code) ↔ SwitchSafe asciiEnv .int literalThenVariable) :=
  ⟨_, rfl, genIntSwitch_agrees_iff rfl⟩

/-- `case x => …; case 1 => …` runs its second body for `1`. -/
theorem variable_before_literal : ¬ ∀ (env : Env Unit) (selector : Selector)
    (cases : List (CaseDef String Unit)) (next : Label) (code : Code String Unit),
    genIntSwitch env selector cases next = some code →
      (∀ n ∈ selector.values, ∀ locals, exec env code (.init n locals) =
        exec env (genTests env cases next) (.init n locals)) ∧ AllMarked targets code := by
  intro h
  obtain ⟨code, hcode⟩ : ∃ code,
      genIntSwitch asciiEnv .int literalThenVariable.reverse 0 = some code := ⟨_, rfl⟩
  have hrun := (h _ _ _ _ _ hcode).1 1 ⟨by decide, by decide⟩ fun _ => none
  obtain ⟨keys, dflt, lo, hi, hclass, hrange, rfl⟩ := genIntSwitch_eq_some hcode
  have hsel := hclass.selected_iff.mpr (.inl ((hclass.key 1 1).mpr ⟨_, rfl, rfl⟩))
  rw [exec_switchCode_some hclass hrange 0 hsel rfl, if_neg (by decide)] at hrun
  have hfirst := (tests_ran rfl hclass.unguarded hrun.symm).2.2 0 Nat.zero_lt_one _ rfl
  exact absurd hfirst (by decide)

end ScalaRs.MatchCode
