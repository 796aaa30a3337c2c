import ScalaRs.MatchCode

/-! # What the code of a match does

The code of a pattern tests the selector and then binds. The tests of a match run
the body of the first case whose pattern matches; the switch goes to a case by its
key. -/
namespace ScalaRs.MatchCode
open ForwardJumps

section Meaning

variable {σ κ : Type} (env : Env κ)

def Lit.accepts (n : ℤ) : Lit κ → Bool
  | .int k => k == n
  | .char k => k == n
  | .null => false
  | .other c => env.equals c n

def TypeTree.accepts (n : ℤ) (tpt : TypeTree κ) : Bool :=
  if tpt.singleton then true
  else match tpt.stable, tpt.literal with
    | some path, _ => env.equals path n
    | none, some lit => lit.accepts env n
    | none, none => true

namespace Pat

/-- The pattern matches the selector. -/
def accepts (n : ℤ) : Pat σ κ → Bool
  | literal lit => lit.accepts env n
  | wildcard => true
  | ident id => isBindingIdent env id || env.equals id.path n
  | bind _ body => body.accepts n
  | typed tpt expr => tpt.accepts env n &&
      (tpt.isSingletonPattern && isBlank expr || expr.accepts n)

/-- The variables that the pattern binds, in the order of the stores. -/
def binders : Pat σ κ → List σ
  | literal _ | wildcard => []
  | ident id => if isBindingIdent env id then id.sym.toList else []
  | bind sym body => body.binders ++ sym.toList
  | typed tpt expr => if tpt.isSingletonPattern && isBlank expr then [] else expr.binders

end Pat

/-- The first of the cases from the `i`-th on whose pattern matches. -/
def firstMatch (n : ℤ) : ℕ → List (CaseDef σ κ) → Option (ℕ × Pat σ κ)
  | _, [] => none
  | i, c :: cases => if c.pat.accepts env n then some (i, c.pat) else firstMatch n (i + 1) cases

end Meaning

variable {σ κ : Type} [DecidableEq σ] {env : Env κ}

/-- Locals after stores of the selector. -/
def bound (n : ℤ) (xs : List σ) (locals : σ → Option ℤ) : σ → Option ℤ :=
  xs.foldl (fun locals x => Function.update locals x (some n)) locals

def State.bind (s : State σ) (xs : List σ) : State σ :=
  { s with locals := bound s.selector xs s.locals }

@[simp] theorem State.bind_nil (s : State σ) : s.bind [] = s := rfl

theorem State.bind_append (s : State σ) (xs ys : List σ) :
    s.bind (xs ++ ys) = (s.bind xs).bind ys := by
  simp [State.bind, bound]

abbrev exec (env : Env κ) (code : Code σ κ) (s : State σ) : Outcome Label (State σ) Thrown :=
  run (stepOp env) code s

abbrev resumeAt (env : Env κ) (l : Label) (code : Code σ κ) (s : State σ) :
    Outcome Label (State σ) Thrown :=
  resume (stepOp env) l code s

/-! ## Patterns -/

/-- Code that goes on if a test succeeds and else goes to `fail`. -/
def Tests (env : Env κ) (code : Code σ κ) (fail : Label) (holds : ℤ → Bool) : Prop :=
  ∀ rest s, exec env (code ++ rest) s =
    if holds s.selector then exec env rest s else resumeAt env fail rest s

theorem exec_jumpUnless {c : Bool} {l : Label} {o : Op σ κ} {s s' : State σ}
    (h : stepOp env o s = jumpUnless c l s') (rest : Code σ κ) :
    exec env (.op o :: rest) s = if c then exec env rest s' else resumeAt env l rest s' := by
  cases c with
  | true => exact run_next h rest
  | false => exact run_jump h rest

theorem tests_compare (c : κ) (fail : Label) :
    Tests env ([.op (.compare c fail)] : Code σ κ) fail (env.equals c) :=
  fun rest _ => exec_jumpUnless rfl rest

theorem tests_const (k : ℤ) (fail : Label) :
    Tests env ([.op (.iconst k), .op .load, .op (.ifIcmpne fail)] : Code σ κ) fail (k == ·) := by
  intro rest s
  have hconst : stepOp env (.iconst k) s = .next { s with stack := k :: s.stack } := rfl
  have hload : stepOp env .load { s with stack := k :: s.stack } =
      .next { s with stack := s.selector :: k :: s.stack } := rfl
  rw [List.cons_append, List.cons_append, exec, run_next hconst, run_next hload]
  exact exec_jumpUnless rfl rest

theorem tests_literal (lit : Lit κ) (fail : Label) :
    Tests env (genLiteralTest lit fail : Code σ κ) fail (lit.accepts env ·) := by
  cases lit with
  | int k => exact tests_const k fail
  | char k => exact tests_const k fail
  | null =>
    intro rest s
    have hgoto : stepOp env (.goto fail) s = .jump fail s := rfl
    exact run_jump hgoto rest
  | other c => exact tests_compare c fail

theorem tests_typeTest (tpt : TypeTree κ) (fail : Label) :
    Tests env (genTypeTest tpt fail : Code σ κ) fail (tpt.accepts env ·) := by
  obtain ⟨singleton, stable, literal⟩ := tpt
  cases singleton with
  | true => exact fun rest s => rfl
  | false =>
    cases stable with
    | some path => exact tests_compare path fail
    | none =>
      cases literal with
      | some lit => exact tests_literal lit fail
      | none => exact fun rest s => rfl

theorem exec_store (x : Option σ) (rest : Code σ κ) (s : State σ) :
    exec env (.op .load :: .op (.store x) :: rest) s = exec env rest (s.bind x.toList) := by
  have hload : stepOp env .load s = .next { s with stack := s.selector :: s.stack } := rfl
  rw [exec, run_next hload]
  cases x with
  | none => exact run_next rfl rest
  | some x => exact run_next rfl rest

omit [DecidableEq σ] in
/-- The code of a pattern has no marks. -/
theorem marks_genPattern (fail : Label) (p : Pat σ κ) : marks (genPattern env fail p) = [] := by
  have hliteral : ∀ lit : Lit κ, marks (genLiteralTest lit fail : Code σ κ) = [] := by
    intro lit
    cases lit <;> rfl
  have htype : ∀ tpt : TypeTree κ, marks (genTypeTest tpt fail : Code σ κ) = [] := by
    intro tpt
    unfold genTypeTest
    split
    · rfl
    · split
      · rfl
      · exact hliteral _
      · rfl
  induction p with
  | wildcard => rfl
  | literal lit => exact hliteral lit
  | ident id =>
    rw [genPattern]
    split <;> rfl
  | bind sym body ih => simp [genPattern, ih]
  | typed tpt expr ih =>
    rw [genPattern, marks_append, htype]
    split
    · rfl
    · rw [ih, List.append_nil]

/-- A pattern tests the selector and then binds its variables. -/
theorem exec_genPattern (fail : Label) (p : Pat σ κ) : ∀ (rest : Code σ κ) (s : State σ),
    exec env (genPattern env fail p ++ rest) s =
      if p.accepts env s.selector then exec env rest (s.bind (p.binders env))
      else resumeAt env fail rest s := by
  induction p with
  | wildcard => exact fun rest s => rfl
  | literal lit => exact tests_literal lit fail
  | ident id =>
    intro rest s
    rw [genPattern, Pat.accepts, Pat.binders]
    split
    · next hbinds =>
      rw [hbinds, Bool.true_or, if_pos rfl]
      exact exec_store id.sym rest s
    · next hbinds =>
      rw [(Bool.not_eq_true _).mp hbinds, Bool.false_or]
      exact tests_compare id.path fail rest s
  | bind sym body ih =>
    intro rest s
    rw [genPattern, List.append_assoc, ih, Pat.accepts, Pat.binders, State.bind_append]
    split
    · exact exec_store sym rest _
    · exact resume_append (by simp) rest s
  | typed tpt expr ih =>
    intro rest s
    have htest : Tests env (genTypeTest tpt fail : Code σ κ) fail (tpt.accepts env ·) :=
      tests_typeTest tpt fail
    rw [genPattern, List.append_assoc, htest, Pat.accepts, Pat.binders]
    beta_reduce
    have hmarks : marks (if tpt.isSingletonPattern && isBlank expr then []
        else genPattern env fail expr) = [] := by
      split
      · rfl
      · exact marks_genPattern fail expr
    cases htpt : tpt.accepts env s.selector with
    | false =>
      rw [if_neg Bool.false_ne_true, Bool.false_and, if_neg Bool.false_ne_true]
      exact resume_append (by rw [hmarks]; exact List.not_mem_nil) rest s
    | true =>
      rw [if_pos rfl, Bool.true_and]
      cases hblank : (tpt.isSingletonPattern && isBlank expr) with
      | true => rfl
      | false => exact ih rest s

/-! ## The tests of a match -/

theorem exec_body (i : ℕ) (rest : Code σ κ) (s : State σ) :
    exec env (.op (.body i) :: rest) s =
      exec env rest { s with ran := s.ran ++ [(i, s.locals)] } := run_next rfl rest

theorem exec_goto (l : Label) (rest : Code σ κ) (s : State σ) :
    exec env (.op (.goto l) :: rest) s = resumeAt env l rest s := by
  have hgoto : stepOp env (.goto l) s = .jump l s := rfl
  exact run_jump hgoto rest

/-- A match ends by the body of a case, which sees the variables of its pattern. -/
def State.ranCase (s : State σ) (i : ℕ) (xs : List σ) : State σ :=
  { s.bind xs with ran := s.ran ++ [(i, (s.bind xs).locals)] }

omit [DecidableEq σ] in
theorem marks_genCases (fin fail : Label) (i : ℕ) (cases : List (CaseDef σ κ)) :
    ∀ l ∈ marks (genCases env fin fail i cases), fail ≤ l := by
  induction cases generalizing fail i with
  | nil => simp [genCases]
  | cons c cases ih =>
    intro l hl
    have hguard : marks (if c.hasGuard then [.op (.guard i fail)] else [] : Code σ κ) = [] := by
      split <;> rfl
    simp only [genCases, marks_append, marks_genPattern, hguard, marks_op, marks_mark, marks_nil,
      List.nil_append, List.singleton_append, List.mem_cons] at hl
    rcases hl with rfl | hl
    · exact Nat.le_refl _
    · exact Nat.le_of_succ_le (ih (fail + 1) (i + 1) l hl)

theorem exec_genCases {fin fail : Label} (hfin : fin < fail) {cases : List (CaseDef σ κ)}
    (hguards : ∀ c ∈ cases, c.hasGuard = false) (i : ℕ) (s : State σ) :
    exec env (genCases env fin fail i cases ++ [.op .throwMatchError, .mark fin]) s =
      match firstMatch env s.selector i cases with
      | some (j, p) => .ended (s.ranCase j (p.binders env))
      | none => .halted .matchError := by
  induction cases generalizing fail i with
  | nil => exact run_halt rfl _
  | cons c cases ih =>
    have hrest : fin ∉ marks (genCases env fin (fail + 1) (i + 1) cases) := by
      intro hmem
      have hle := marks_genCases fin (fail + 1) (i + 1) cases fin hmem
      exact Nat.lt_irrefl fin (Nat.lt_of_lt_of_le hfin (Nat.le_of_succ_le hle))
    rw [genCases, hguards c List.mem_cons_self, if_neg Bool.false_ne_true, List.append_nil,
      List.append_assoc, List.append_assoc, exec_genPattern, firstMatch]
    split
    · rw [List.cons_append, exec_body, List.cons_append, exec_goto]
      have hskip : fin ∉ marks (.mark fail :: genCases env fin (fail + 1) (i + 1) cases ++
          [.op .throwMatchError]) := by
        simp only [List.cons_append, marks_mark, marks_append, marks_op, marks_nil,
          List.append_nil, List.mem_cons, not_or]
        exact ⟨Nat.ne_of_lt hfin, hrest⟩
      have hend : ∀ s' : State σ, resumeAt env fin (.mark fail ::
          (genCases env fin (fail + 1) (i + 1) cases ++ [.op .throwMatchError, .mark fin])) s' =
          .ended s' := by
        intro s'
        have hjump : resumeAt env fin _ s' = .ended s' :=
          (resume_append_mark hskip [] s').trans (run_nil s')
        simpa only [List.cons_append, List.append_assoc, List.nil_append] using hjump
      exact hend _
    · have hjump : ∀ code : Code σ κ, resumeAt env fail
          ([.op (.body i), .op (.goto fin)] ++ .mark fail :: code) s = exec env code s :=
        fun code => resume_append_mark (by simp) code s
      have hcases := ih (Nat.lt_succ_of_lt hfin) (fun c hc => hguards c (.tail _ hc)) (i + 1)
      rw [← hcases]
      exact hjump _

/-! ## The keys of a switch -/

/-- What `switchKeys` finds about the cases it has looked at. -/
structure Classified (env : Env κ) (cases : List (CaseDef σ κ)) (keys : List (ℤ × ℕ))
    (dflt : Option ℕ) : Prop where
  unguarded : ∀ c ∈ cases, c.hasGuard = false
  key : ∀ k j, (k, j) ∈ keys ↔ ∃ c, cases[j]? = some c ∧ switchPatKey env c.pat = some (.key k)
  default : ∀ d, dflt = some d ↔
    ∃ c, cases[d]? = some c ∧ switchPatKey env c.pat = some .default
  total : ∀ c ∈ cases, switchPatKey env c.pat ≠ none
  nodup : (keys.map (·.1)).Nodup

omit [DecidableEq σ] in
theorem getElem?_concat_iff {cases : List (CaseDef σ κ)} {c : CaseDef σ κ} {j : ℕ}
    {P : CaseDef σ κ → Prop} : (∃ c', (cases ++ [c])[j]? = some c' ∧ P c') ↔
      (∃ c', cases[j]? = some c' ∧ P c') ∨ j = cases.length ∧ P c := by
  constructor
  · intro h
    obtain ⟨c', hc', hP⟩ := h
    rcases Nat.lt_trichotomy j cases.length with hlt | rfl | hlt
    · rw [List.getElem?_append_left hlt] at hc'
      exact .inl ⟨c', hc', hP⟩
    · rw [List.getElem?_concat_length] at hc'
      cases hc'
      exact .inr ⟨rfl, hP⟩
    · rw [List.getElem?_eq_none (by simp; omega)] at hc'
      cases hc'
  · intro h
    rcases h with ⟨c', hc', hP⟩ | ⟨rfl, hP⟩
    · have hlt := (List.getElem?_eq_some_iff.mp hc').1
      exact ⟨c', by rw [List.getElem?_append_left hlt, hc'], hP⟩
    · exact ⟨c, List.getElem?_concat_length, hP⟩

omit [DecidableEq σ] in
theorem Classified.nil : Classified env ([] : List (CaseDef σ κ)) [] none :=
  ⟨by simp, by simp, by simp, by simp, List.nodup_nil⟩

omit [DecidableEq σ] in
theorem Classified.concat_key {cases : List (CaseDef σ κ)} {keys : List (ℤ × ℕ)}
    {dflt : Option ℕ} {c : CaseDef σ κ} {k : ℤ} (h : Classified env cases keys dflt)
    (hguard : c.hasGuard = false) (hkey : switchPatKey env c.pat = some (.key k))
    (hnew : ∀ key ∈ keys, key.1 ≠ k) :
    Classified env (cases ++ [c]) (keys ++ [(k, cases.length)]) dflt where
  unguarded := by simpa [or_imp, forall_and, hguard] using h.unguarded
  key k' j := by
    rw [getElem?_concat_iff, List.mem_append, h.key, List.mem_singleton, Prod.mk.injEq, hkey]
    simp only [Option.some.injEq, SwitchPat.key.injEq]
    rw [and_comm (a := k' = k), eq_comm (a := k')]
  default d := by
    rw [getElem?_concat_iff, ← h.default, hkey]
    simp
  total := by simpa [or_imp, forall_and, hkey] using h.total
  nodup := by
    rw [List.map_append, List.nodup_append]
    exact ⟨h.nodup, by simp, by simpa using fun _ i hi hk => hnew (_, i) hi hk⟩

omit [DecidableEq σ] in
theorem Classified.concat_default {cases : List (CaseDef σ κ)} {keys : List (ℤ × ℕ)}
    {c : CaseDef σ κ} (h : Classified env cases keys none)
    (hguard : c.hasGuard = false) (hkey : switchPatKey env c.pat = some .default) :
    Classified env (cases ++ [c]) keys (some cases.length) where
  unguarded := by simpa [or_imp, forall_and, hguard] using h.unguarded
  key k j := by
    rw [getElem?_concat_iff, h.key, hkey]
    simp
  default d := by
    rw [getElem?_concat_iff, ← h.default, hkey]
    simp [eq_comm]
  total := by simpa [or_imp, forall_and, hkey] using h.total
  nodup := h.nodup

omit [DecidableEq σ] in
theorem classified_switchKeys {rest : List (CaseDef σ κ)} : ∀ {cases : List (CaseDef σ κ)}
    {keys keys' : List (ℤ × ℕ)} {dflt dflt' : Option ℕ}, Classified env cases keys dflt →
      switchKeys env cases.length rest keys dflt = some (keys', dflt') →
      Classified env (cases ++ rest) keys' dflt' := by
  induction rest with
  | nil =>
    intro cases keys keys' dflt dflt' h heq
    cases heq
    rwa [List.append_nil]
  | cons c rest ih =>
    intro cases keys keys' dflt dflt' h heq
    rw [switchKeys] at heq
    split at heq
    · cases heq
    · next hguard =>
      rw [Bool.not_eq_true] at hguard
      have hlen : (cases ++ [c]).length = cases.length + 1 := by simp
      have happend : cases ++ c :: rest = (cases ++ [c]) ++ rest := by simp
      rw [happend]
      cases hkey : switchPatKey env c.pat with
      | none =>
        rw [hkey] at heq
        cases heq
      | some sp =>
        cases sp with
        | key k =>
          simp only [hkey] at heq
          split at heq
          · cases heq
          · next hnew =>
            rw [← hlen] at heq
            have hfresh : ∀ key ∈ keys, key.1 ≠ k := by
              intro key hmem hk
              exact hnew (List.any_eq_true.mpr ⟨key, hmem, by simpa using hk⟩)
            exact ih (h.concat_key hguard hkey hfresh) heq
        | default =>
          simp only [hkey] at heq
          split at heq
          · cases heq
          · next hnone =>
            rw [Option.not_isSome_iff_eq_none] at hnone
            subst hnone
            rw [← hlen] at heq
            exact ih (h.concat_default hguard hkey) heq

/-! ## The switch -/

/-- The case that the switch goes to. -/
def selectedCase (keys : List (ℤ × ℕ)) (dflt : Option ℕ) (n : ℤ) : Option ℕ :=
  ((keys.find? (·.1 == n)).map (·.2)).or dflt

theorem find?_key_iff {β : Type} {pairs : List (ℤ × β)} (h : (pairs.map (·.1)).Nodup) {n : ℤ}
    {b : β} : (pairs.find? (·.1 == n)).map (·.2) = some b ↔ (n, b) ∈ pairs := by
  induction pairs with
  | nil => simp
  | cons pair pairs ih =>
    obtain ⟨k, b'⟩ := pair
    rw [List.map_cons, List.nodup_cons] at h
    by_cases hk : k = n
    · subst hk
      have hother : (k, b) ∉ pairs := fun hmem =>
        h.1 (List.mem_map.mpr ⟨(k, b), hmem, rfl⟩)
      simp [hother, eq_comm]
    · have hskip : ((k, b') :: pairs).find? (·.1 == n) = pairs.find? (·.1 == n) := by
        rw [List.find?_cons_of_neg]
        simpa using hk
      rw [hskip, ih h.2, List.mem_cons, Prod.mk.injEq]
      simp [Ne.symm hk]

theorem keyLabel_eq (keys : List (ℤ × ℕ)) (caseLab : ℕ → Label) (dflt : Label) (n : ℤ) :
    keyLabel keys caseLab dflt n =
      (((keys.find? (·.1 == n)).map (·.2)).map caseLab).getD dflt := by
  rw [keyLabel]
  cases keys.find? (·.1 == n) <;> rfl

theorem getD_keyRange (lo hi n : ℤ) (h : lo ≤ n ∧ n ≤ hi) (f : ℤ → Label) (dflt : Label) :
    ((keyRange lo hi).map f).getD (n - lo).toNat dflt = f n := by
  have hlt : (n - lo).toNat < (hi - lo + 1).toNat := by omega
  rw [keyRange, List.map_map, List.getD_eq_getElem?_getD, List.getElem?_map,
    List.getElem?_range hlt]
  have hback : lo + max (n - lo) 0 = n := by omega
  simp [hback]

theorem exec_switchOp {keys : List (ℤ × ℕ)} {caseLab : ℕ → Label} {dflt : Label} {lo hi : ℤ}
    (hnodup : (keys.map (·.1)).Nodup) (hrange : ∀ key ∈ keys, lo ≤ key.1 ∧ key.1 ≤ hi)
    (rest : Code σ κ) (s : State σ) :
    exec env (.op .load :: .op (genSwitchOp keys caseLab dflt lo hi) :: rest) s =
      resumeAt env (keyLabel keys caseLab dflt s.selector) rest s := by
  have hload : stepOp env .load s = .next { s with stack := s.selector :: s.stack } := rfl
  rw [exec, run_next hload, genSwitchOp]
  split
  · have htable : (if lo ≤ s.selector ∧ s.selector ≤ hi then
        ((keyRange lo hi).map (keyLabel keys caseLab dflt)).getD (s.selector - lo).toNat dflt
        else dflt) = keyLabel keys caseLab dflt s.selector := by
      split
      · next hin => exact getD_keyRange lo hi _ hin _ dflt
      · next hout =>
        have hnone : keys.find? (·.1 == s.selector) = none := by
          rw [List.find?_eq_none]
          intro key hkey heq
          exact hout (beq_iff_eq.mp heq ▸ hrange key hkey)
        rw [keyLabel, hnone]
    rw [← htable]
    exact run_jump (show stepOp env _ _ = .jump _ s from rfl) rest
  · have hpairs : ((((keys.map fun key => (key.1, caseLab key.2)).mergeSort
          fun a b => a.1 ≤ b.1).find? (·.1 == s.selector)).map (·.2)).getD dflt =
        keyLabel keys caseLab dflt s.selector := by
      rw [keyLabel_eq]
      congr 1
      apply Option.ext
      intro l
      have hperm := List.mergeSort_perm (keys.map fun key => (key.1, caseLab key.2))
        fun a b => a.1 ≤ b.1
      have hsorted := (hperm.map (·.1)).nodup_iff.mpr
        (by rw [List.map_map]; exact hnodup)
      rw [find?_key_iff hsorted, hperm.mem_iff, Option.map_eq_some_iff]
      simp only [find?_key_iff hnodup, List.mem_map, Prod.mk.injEq, Prod.exists]
      constructor
      · intro h
        obtain ⟨k, i, hmem, rfl, hl⟩ := h
        exact ⟨i, hmem, hl⟩
      · intro h
        obtain ⟨i, hmem, hl⟩ := h
        exact ⟨_, i, hmem, rfl, hl⟩
    rw [← hpairs]
    exact run_jump (show stepOp env _ _ = .jump _ s from rfl) rest

omit [DecidableEq σ] in
theorem marks_switchBinding (miss : Label) (p : Pat σ κ) :
    marks (if bindsInSwitch env p then genPattern env miss p else []) = [] := by
  split
  · exact marks_genPattern miss p
  · rfl

omit [DecidableEq σ] in
theorem marks_genSwitchCases {caseLab : ℕ → Label} {miss fin : Label}
    {cases : List (CaseDef σ κ)} : ∀ {i : ℕ},
    marks (genSwitchCases env caseLab miss fin i cases) =
      (List.range' i cases.length).map caseLab := by
  induction cases with
  | nil => simp [genSwitchCases]
  | cons c cases ih =>
    intro i
    simp [genSwitchCases, marks_switchBinding, ih, List.range'_succ]

/-- From the label of a case, its body runs, and the code after it is that of the
cases after it. -/
theorem resume_genSwitchCases {caseLab : ℕ → Label} (hlab : caseLab.Injective) {miss fin : Label}
    (rest : Code σ κ) (s : State σ) {cases : List (CaseDef σ κ)} : ∀ {i j : ℕ} {c : CaseDef σ κ},
    cases[j]? = some c →
    resumeAt env (caseLab (i + j)) (genSwitchCases env caseLab miss fin i cases ++ rest) s =
      exec env ((if bindsInSwitch env c.pat then genPattern env miss c.pat else []) ++
        .op (.body (i + j)) :: .op (.goto fin) ::
          (genSwitchCases env caseLab miss fin (i + j + 1) (cases.drop (j + 1)) ++ rest)) s := by
  induction cases with
  | nil => simp
  | cons c' cases ih =>
    intro i j c hc
    cases j with
    | zero =>
      cases hc
      rw [genSwitchCases]
      simp [resumeAt, resume, after_mark]
    | succ j =>
      have hskip : caseLab (i + (j + 1)) ∉ marks (.mark (caseLab i) ::
          (if bindsInSwitch env c'.pat then genPattern env miss c'.pat else []) ++
          [.op (.body i), .op (.goto fin)]) := by
        rw [List.cons_append, marks_mark, marks_append, marks_switchBinding]
        simp only [marks_op, marks_nil, List.append_nil, List.mem_singleton]
        intro h
        have hi := hlab h
        omega
      rw [genSwitchCases, List.append_assoc, resumeAt, resume_append hskip]
      have hstep := ih (i := i + 1) hc
      rw [show i + 1 + j = i + (j + 1) by omega] at hstep
      exact hstep

omit [DecidableEq σ] in
/-- What a switch is made from. -/
theorem genIntSwitch_eq_some {selector : Selector} {cases : List (CaseDef σ κ)} {next : Label}
    {code : Code σ κ} (h : genIntSwitch env selector cases next = some code) :
    ∃ keys dflt lo hi, Classified env cases keys dflt ∧
      (∀ key ∈ keys, lo ≤ key.1 ∧ key.1 ≤ hi) ∧
      code = switchCode env cases next keys dflt lo hi := by
  have hkeys : genIntSwitch env .int cases next = some code := by
    cases selector with
    | other => cases h
    | int => exact h
    | char => exact h
  simp only [genIntSwitch, Option.bind_eq_bind, Option.bind_eq_some_iff, Option.pure_def,
    Option.some.injEq] at hkeys
  obtain ⟨⟨keys, dflt⟩, hswitch, lo, hlo, hi, hhi, hcode⟩ := hkeys
  refine ⟨keys, dflt, lo, hi, classified_switchKeys .nil hswitch, ?_, hcode.symm⟩
  intro key hkey
  have hmem : key.1 ∈ keys.map (·.1) := List.mem_map_of_mem hkey
  exact ⟨(List.min?_eq_some_iff.mp hlo).2 _ hmem, (List.max?_eq_some_iff.mp hhi).2 _ hmem⟩

variable {cases : List (CaseDef σ κ)} {keys : List (ℤ × ℕ)} {dflt : Option ℕ} {lo hi : ℤ}

theorem exec_switchCode_none (h : Classified env cases keys dflt)
    (hrange : ∀ key ∈ keys, lo ≤ key.1 ∧ key.1 ≤ hi) (next : Label) {s : State σ}
    (hnone : selectedCase keys dflt s.selector = none) :
    exec env (switchCode env cases next keys dflt lo hi) s = .halted .matchError := by
  obtain ⟨hkey, rfl⟩ := Option.or_eq_none_iff.mp hnone
  have hlabel : keyLabel keys (fun i => next + i) (next + cases.length) s.selector =
      next + cases.length := by
    rw [keyLabel_eq, hkey]
    rfl
  have hskip : next + cases.length ∉ marks
      (genSwitchCases env (fun i => next + i) (next + cases.length) (next + cases.length + 1)
        0 cases) := by
    simp [marks_genSwitchCases]
  rw [switchCode]
  simp only [Option.map_none, Option.getD_none, Option.isNone_none, if_true]
  rw [exec_switchOp h.nodup hrange, hlabel]
  exact (resume_append_mark hskip _ s).trans (run_halt rfl _)

omit [DecidableEq σ] in
theorem Classified.isSome_of_bindsInSwitch (h : Classified env cases keys dflt) {i : ℕ}
    {c : CaseDef σ κ} (hc : cases[i]? = some c) (hbinds : bindsInSwitch env c.pat) :
    dflt.isNone = false := by
  have hkey : switchPatKey env c.pat = some .default := by
    unfold bindsInSwitch at hbinds
    split at hbinds <;> simp_all
  rw [(h.default i).mpr ⟨c, hc, hkey⟩]
  rfl

/-- The selected case runs its body; a pattern emitted in front of it may still
fail, to a label that is not there. -/
theorem exec_switchCode_some (h : Classified env cases keys dflt)
    (hrange : ∀ key ∈ keys, lo ≤ key.1 ∧ key.1 ≤ hi) (next : Label) {s : State σ} {i : ℕ}
    {c : CaseDef σ κ} (hsel : selectedCase keys dflt s.selector = some i)
    (hc : cases[i]? = some c) :
    exec env (switchCode env cases next keys dflt lo hi) s =
      if bindsInSwitch env c.pat then
        if c.pat.accepts env s.selector then .ended (s.ranCase i (c.pat.binders env))
        else .unmarked (next + cases.length)
      else .ended (s.ranCase i []) := by
  have hlt : i < cases.length := (List.getElem?_eq_some_iff.mp hc).1
  have hlabel : keyLabel keys (fun i => next + i)
      ((dflt.map fun i => next + i).getD (next + cases.length)) s.selector = next + (0 + i) := by
    rw [keyLabel_eq, Nat.zero_add]
    rcases Option.or_eq_some_iff.mp hsel with hkey | ⟨hkey, rfl⟩
    · rw [hkey]
      rfl
    · rw [hkey]
      rfl
  have hinjective : (fun i : ℕ => next + i).Injective := fun _ _ => Nat.add_left_cancel
  let fin := next + cases.length + 1
  let throws : Code σ κ :=
    if dflt.isNone then [.mark (next + cases.length), .op .throwMatchError] else []
  let more := genSwitchCases env (fun i => next + i) (next + cases.length) fin (0 + i + 1)
    (cases.drop (i + 1)) ++ throws
  have hthrows : ∀ l ∈ marks throws, l = next + cases.length ∧ dflt.isNone := by
    intro l hl
    by_cases hnone : dflt.isNone
    · simpa [throws, hnone] using hl
    · simp [throws, hnone] at hl
  have hmarks : ∀ l ∈ marks more, l < next + cases.length ∨
      l = next + cases.length ∧ dflt.isNone := by
    intro l hl
    rw [marks_append, marks_genSwitchCases] at hl
    rcases List.mem_append.mp hl with hl | hl
    · obtain ⟨j, hj, rfl⟩ := List.mem_map.mp hl
      rw [List.mem_range'_1, List.length_drop] at hj
      exact .inl (Nat.add_lt_add_left (by omega) next)
    · exact .inr (hthrows l hl)
  have hbody : ∀ s' : State σ,
      exec env (.op (.body (0 + i)) :: .op (.goto fin) :: (more ++ [.mark fin])) s' =
        .ended { s' with ran := s'.ran ++ [(i, s'.locals)] } := by
    intro s'
    have hskip : fin ∉ marks more := by
      intro hmem
      rcases hmarks fin hmem with hlt | ⟨heq, -⟩
      · exact Nat.lt_irrefl _ (Nat.lt_of_succ_lt hlt)
      · exact Nat.succ_ne_self _ heq
    rw [exec_body, exec_goto, Nat.zero_add]
    exact (resume_append_mark hskip [] _).trans (run_nil _)
  have hcase := @resume_genSwitchCases σ κ _ env _ hinjective (next + cases.length) fin
    (throws ++ [.mark fin]) s cases 0 i c hc
  have hmore : genSwitchCases env (fun i => next + i) (next + cases.length) fin (0 + i + 1)
      (cases.drop (i + 1)) ++ (throws ++ [.mark fin]) = more ++ [.mark fin] :=
    (List.append_assoc ..).symm
  rw [hmore] at hcase
  rw [switchCode, exec_switchOp h.nodup hrange, hlabel]
  refine hcase.trans ?_
  split
  · next hbinds =>
    rw [exec_genPattern]
    split
    · exact hbody _
    · apply resume_unmarked
      rw [marks_op, marks_op, marks_append, marks_mark, marks_nil, List.mem_append, not_or,
        List.mem_singleton]
      constructor
      · intro hmem
        rcases hmarks _ hmem with hlt | ⟨-, hnone⟩
        · exact Nat.lt_irrefl _ hlt
        · rw [h.isSome_of_bindsInSwitch hc hbinds] at hnone
          cases hnone
      · exact Nat.ne_of_lt (Nat.lt_succ_self _)
  · exact hbody s

end ScalaRs.MatchCode
