import ScalaRs.TseitinSolver

/-! # What one step of the solver computes

The in-place vector operations in terms of the clauses that are left: the
compacted vector, the carried scan, and the pure literal. -/
namespace ScalaRs.Patmat
open ClauseSemantics ScalaSets WhileLoops

/-- The clauses that are left, then the emptied slots. -/
def compacted (cs : List Clause) (n : ℕ) : List (Option Clause) :=
  cs.map some ++ List.replicate n none

theorem compacted_zero (cs : List Clause) : compacted cs 0 = cs.map some := by simp [compacted]

@[simp] theorem reduceOption_compacted (cs : List Clause) (n : ℕ) :
    (compacted cs n).reduceOption = cs := by
  simp [compacted, List.reduceOption]

theorem compacted_getElem? {cs : List Clause} {n i : ℕ} (hi : i < cs.length) :
    (compacted cs n)[i]? = some (cs[i]?) := by
  rw [compacted, List.getElem?_append_left (by simpa using hi)]
  simp [List.getElem?_eq_getElem hi]

theorem compacted_head?_isNone {cs : List Clause} {n : ℕ} :
    (compacted cs n).head?.join.isNone = true ↔ cs = [] := by
  cases cs with
  | nil => cases n <;> simp [compacted, List.replicate_succ]
  | cons c cs => simp [compacted]

theorem takeWhile_compacted (cs : List Clause) (n : ℕ) :
    (compacted cs n).takeWhile Option.isSome = cs.map some := by
  induction cs with
  | nil => cases n <;> simp [compacted, List.replicate_succ]
  | cons c cs ih =>
    simp only [compacted] at ih
    simp [compacted, ih]

theorem filter_compacted (p : Option Clause → Bool) (hp : p none = true) (cs : List Clause) (n : ℕ) :
    (compacted cs n).filter p = compacted (cs.filter fun c => p (some c)) n := by
  simp [compacted, List.filter_append, List.filter_map, Function.comp_def, hp]

/-! ## Scans -/

/-- A scan tells whether some clause is empty, and where the first unit clause is. -/
structure ScanSpec (cs : List Clause) (scan : Scan) : Prop where
  empty : scan.empty = true ↔ ∃ c ∈ cs, c.len = 0
  unit : scan.empty = false → scan.unit = cs.findIdx? fun c => c.len = 1

theorem scanFrom_compacted (cs : List Clause) (n i : ℕ) (unit : Option ℕ) :
    ((scanFrom i unit (compacted cs n)).empty = true ↔ ∃ c ∈ cs, c.len = 0) ∧
      ((scanFrom i unit (compacted cs n)).empty = false →
        (scanFrom i unit (compacted cs n)).unit =
          unit.or ((cs.findIdx? fun c => c.len = 1).map (· + i))) := by
  induction cs generalizing i unit with
  | nil =>
    induction n generalizing i with
    | zero => simp [compacted, scanFrom]
    | succ n ih => simpa [compacted, List.replicate_succ, scanFrom] using ih (i + 1)
  | cons c cs ih =>
    have hcons : compacted (c :: cs) n = some c :: compacted cs n := rfl
    rw [hcons, scanFrom]
    match hl : c.len with
    | 0 => simp [hl]
    | 1 =>
      obtain ⟨he, hu⟩ := ih (i + 1) (if unit.isNone then some i else unit)
      refine ⟨by simpa [hl] using he, fun h => (hu h).trans ?_⟩
      cases unit <;> simp [List.findIdx?_cons, hl]
    | k + 2 =>
      obtain ⟨he, hu⟩ := ih (i + 1) unit
      refine ⟨by simpa [hl] using he, fun h => (hu h).trans ?_⟩
      simp [List.findIdx?_cons, hl, Option.map_map, Function.comp_def, Nat.add_assoc,
        Nat.add_comm 1 i]

theorem scanClauses_spec (cs : List Clause) (n : ℕ) :
    ScanSpec cs (scanClauses (compacted cs n)) := by
  obtain ⟨he, hu⟩ := scanFrom_compacted cs n 0 none
  exact ⟨he, fun h => by simpa [scanClauses] using hu h⟩

/-- A scan under construction: unlike `scanClauses` it does not stop at an
empty clause. -/
structure RunningScan (cs : List Clause) (scan : Scan) : Prop where
  empty : scan.empty = true ↔ ∃ c ∈ cs, c.len = 0
  unit : scan.unit = cs.findIdx? fun c => c.len = 1

theorem RunningScan.spec {cs : List Clause} {scan : Scan} (h : RunningScan cs scan) :
    ScanSpec cs scan := ⟨h.empty, fun _ => h.unit⟩

theorem runningScan_nil : RunningScan [] ⟨false, none⟩ := ⟨by simp, by simp⟩

theorem RunningScan.see {cs : List Clause} {scan : Scan} (h : RunningScan cs scan) (c : Clause) :
    RunningScan (cs ++ [c]) (scan.see cs.length c.len) := by
  have hu := h.unit
  have he := h.empty
  match hl : c.len with
  | 0 =>
    constructor
    · simp [Scan.see, or_and_right, exists_or, hl]
    · simp [Scan.see, List.findIdx?_append, hl, hu]
  | 1 =>
    constructor
    · have : (scan.see cs.length 1).empty = scan.empty := by
        simp only [Scan.see]
        split <;> rfl
      simp [this, he, or_and_right, exists_or, hl]
    · cases hs : scan.unit with
      | none => simp [Scan.see, List.findIdx?_append, hl, ← hu, hs]
      | some k => simp [Scan.see, List.findIdx?_append, hl, ← hu, hs]
  | k + 2 =>
    constructor
    · simp [Scan.see, he, or_and_right, exists_or, hl]
    · simp [Scan.see, List.findIdx?_append, hl, hu]

/-! ## Unit propagation -/

/-- The clauses after `unit` became true. -/
def propagated (unit : Lit) (cs : List Clause) : List Clause :=
  (cs.filter fun c => unit ∉ c).map (keptClause unit)

theorem mem_keptClause (unit x : Lit) (c : Clause) :
    x ∈ keptClause unit c ↔ x ∈ c ∧ x ≠ unit.neg := by
  unfold keptClause
  split
  · simp
  · next h => exact ⟨fun hx => ⟨hx, fun e => h (e ▸ hx)⟩, And.left⟩

/-- The vector in the middle of the loop: the clauses written, the slots already
read, the clauses still to read, the empty tail. -/
private def midway (done : List Clause) (gap : ℕ) (rest : List Clause) (tail : ℕ) :
    List (Option Clause) :=
  done.map some ++ (List.replicate gap none ++ compacted rest tail)

private theorem midway_take (done : List Clause) (gap : ℕ) (c : Clause) (rest : List Clause)
    (tail : ℕ) : (midway done gap (c :: rest) tail).set (done.length + gap) none =
      midway done (gap + 1) rest tail := by
  have hl : done.length + gap = (done.map (some : Clause → _)).length + gap := by simp
  rw [midway, hl, List.set_append_right _ _ (by omega), Nat.add_sub_cancel_left,
    List.set_append_right _ _ (by simp), List.length_replicate, Nat.sub_self]
  simp [midway, compacted, List.replicate_succ']

private theorem midway_write (done : List Clause) (gap : ℕ) (c : Clause) (rest : List Clause)
    (tail : ℕ) : (midway done (gap + 1) rest tail).set done.length (some c) =
      midway (done ++ [c]) gap rest tail := by
  rw [midway, List.set_append_right _ _ (by simp)]
  simp [midway, List.replicate_succ]

private theorem midway_getElem? (done : List Clause) (gap : ℕ) (rest : List Clause) (tail : ℕ) :
    (midway done gap rest tail)[done.length + gap]? = (compacted rest tail).head? := by
  rw [midway, List.getElem?_append_right (by simp), List.getElem?_append_right (by simp)]
  simp [List.head?_eq_getElem?]

private theorem midway_end (done : List Clause) (gap tail : ℕ) :
    midway done gap [] tail = compacted done (gap + tail) := by
  simp only [midway, compacted, List.map_nil, List.nil_append, List.replicate_append_replicate]

private theorem dropUnitLoop_spec (unit : Lit) (rest done : List Clause) (gap tail : ℕ)
    (scan : Scan) (hscan : RunningScan done scan) :
    ∃ n scan', dropUnitLoop unit (rest.length + tail) (done.length + gap) done.length scan
        (midway done gap rest tail) = (compacted (done ++ propagated unit rest) n, scan') ∧
      ScanSpec (done ++ propagated unit rest) scan' := by
  induction rest generalizing done gap scan with
  | nil =>
    refine ⟨gap + tail, scan, ?_, by simpa [propagated] using hscan.spec⟩
    cases tail with
    | zero => simp [dropUnitLoop, midway_end, propagated]
    | succ tail =>
      simp [dropUnitLoop, midway_getElem?, compacted, List.replicate_succ, propagated]
      simpa [compacted, List.replicate_succ] using midway_end done gap (tail + 1)
  | cons c rest ih =>
    have hget : (midway done gap (c :: rest) tail)[done.length + gap]? = some (some c) := by
      rw [midway_getElem?]
      simp [compacted]
    rw [List.length_cons, Nat.add_right_comm, dropUnitLoop, hget]
    simp only [midway_take]
    by_cases hc : unit ∈ c
    · simpa [hc, propagated, Nat.add_assoc] using ih done (gap + 1) scan hscan
    · have hs := hscan.see (keptClause unit c)
      simpa [hc, propagated, midway_write, Nat.add_assoc, Nat.add_comm 1 gap] using
        ih (done ++ [keptClause unit c]) gap _ hs

/-- `dropUnit` leaves the propagated clauses, with the scan of them. -/
theorem dropUnit_spec (unit : Lit) (cs : List Clause) (n : ℕ) :
    ∃ n' scan, dropUnit (compacted cs n) unit = (compacted (propagated unit cs) n', scan) ∧
      ScanSpec (propagated unit cs) scan := by
  have h := dropUnitLoop_spec unit cs [] 0 n ⟨false, none⟩ runningScan_nil
  simpa [dropUnit, midway, compacted] using h

/-! ## The pure literal -/

private theorem markLit_getD (seen : List ℕ) (l : Lit) (v : ℕ) :
    (markLit seen l)[v]?.getD 0 =
      (seen[v]?.getD 0) ||| (if l.var = v then (if l.positive then 1 else 2) else 0) := by
  have hpad : (seen ++ List.replicate (l.var + 1 - seen.length) 0)[v]?.getD 0 =
      seen[v]?.getD 0 := by
    rcases Nat.lt_or_ge v seen.length with h | h
    · rw [List.getElem?_append_left h]
    · rw [List.getElem?_append_right h, List.getElem?_eq_none h, List.getElem?_replicate]
      split <;> rfl
  unfold markLit
  rw [List.getElem?_modify]
  by_cases hv : l.var = v
  · subst hv
    have hlt : l.var < (seen ++ List.replicate (l.var + 1 - seen.length) 0).length := by
      simp only [List.length_append, List.length_replicate]
      omega
    rw [← hpad]
    simp [List.getElem?_eq_getElem hlt]
  · simp only [hv, if_false, Nat.or_zero, ← hpad]
    cases (seen ++ List.replicate (l.var + 1 - seen.length) 0)[v]? <;> rfl

/-- Which polarities of a variable occur, as the flags the solver keeps. -/
def polarities (ls : List Lit) (v : ℕ) : ℕ :=
  (if ls.any fun l => l.var = v && l.positive then 1 else 0) |||
    (if ls.any fun l => l.var = v && !l.positive then 2 else 0)

private theorem foldl_markLit_getD (ls : List Lit) (seen : List ℕ) (v : ℕ) :
    (ls.foldl markLit seen)[v]?.getD 0 = (seen[v]?.getD 0) ||| polarities ls v := by
  induction ls generalizing seen with
  | nil => simp [polarities]
  | cons l ls ih =>
    rw [List.foldl_cons, ih, markLit_getD, Nat.or_assoc]
    congr 1
    simp only [polarities, List.any_cons]
    by_cases hv : l.var = v
    · simp only [hv, if_true, decide_true, Bool.true_and]
      cases l.positive <;> cases ls.any (fun l => l.var = v && l.positive) <;>
        cases ls.any (fun l => l.var = v && !l.positive) <;> rfl
    · simp [hv]

private theorem polarities_eq_one {ls : List Lit} {v : ℕ} (h : polarities ls v = 1) :
    (∃ l ∈ ls, l.var = v ∧ l.positive = true) ∧ ∀ l ∈ ls, l.var = v → l.positive = true := by
  unfold polarities at h
  split_ifs at h with hp hn hn
  · exact absurd h (by decide)
  · refine ⟨by simpa using hp, fun l hl hv => ?_⟩
    by_contra hne
    exact hn (List.any_eq_true.mpr ⟨l, hl, by simp [hv, hne]⟩)
  · exact absurd h (by decide)

private theorem polarities_eq_two {ls : List Lit} {v : ℕ} (h : polarities ls v = 2) :
    (∃ l ∈ ls, l.var = v ∧ l.positive = false) ∧ ∀ l ∈ ls, l.var = v → l.positive = false := by
  unfold polarities at h
  split_ifs at h with hp hn hn
  · exact absurd h (by decide)
  · exact absurd h (by decide)
  · refine ⟨by simpa using hn, fun l hl hv => ?_⟩
    by_contra hne
    exact hp (List.any_eq_true.mpr ⟨l, hl, by simpa [hv] using hne⟩)

/-- A pure literal occurs, and its variable occurs in no other way. -/
theorem pureLit_spec {clauses : List (Option Clause)} {p : Lit} (h : pureLit clauses = some p) :
    p ∈ clauses.reduceOption.flatMap ScalaSet.unordered ∧
      ∀ x ∈ clauses.reduceOption.flatMap ScalaSet.unordered, x.var = p.var → x = p := by
  generalize hls : clauses.reduceOption.flatMap ScalaSet.unordered = ls
  have hflag : ∀ v, (seenFlags clauses)[v]?.getD 0 = polarities ls v := by
    intro v
    rw [seenFlags, hls, foldl_markLit_getD]
    simp
  simp only [pureLit, Option.map_eq_some_iff] at h
  obtain ⟨v, hv, hp⟩ := h
  obtain ⟨hlt, hf, -⟩ := List.findIdx?_eq_some_iff_getElem.mp hv
  have hget : (seenFlags clauses)[v]? = some (seenFlags clauses)[v] := List.getElem?_eq_getElem hlt
  have hpol : polarities ls v = (seenFlags clauses)[v] := by
    rw [← hflag v, hget]
    rfl
  rw [hget, ← hpol] at hp
  rw [← hpol] at hf
  rcases (by simpa using hf : polarities ls v = 1 ∨ polarities ls v = 2) with h1 | h2
  · obtain ⟨⟨l, hl, hlv, hlp⟩, hall⟩ := polarities_eq_one h1
    have hpv : p = ⟨v⟩ := by simpa [h1] using hp.symm
    have hpl : p = l := by
      refine Lit.eq_of_var_positive ?_ (by rw [hlp, hpv]; simp [Lit.positive])
      rw [hpv, hlv]
      rfl
    refine ⟨hpl ▸ hl, fun x hx hxv => ?_⟩
    have hxv' : x.var = v := by rw [hxv, hpl, hlv]
    exact Lit.eq_of_var_positive hxv (by rw [hall x hx hxv', hpl, hlp])
  · obtain ⟨⟨l, hl, hlv, hlp⟩, hall⟩ := polarities_eq_two h2
    have hpv : p = ⟨-v⟩ := by simpa [h2] using hp.symm
    have hl0 : l.v < 0 := by simpa [Lit.positive] using hlp
    have hpl : p = l := by
      obtain ⟨lv⟩ := l
      rw [hpv, Lit.mk.injEq]
      simp only [Lit.var] at hlv hl0
      omega
    refine ⟨hpl ▸ hl, fun x hx hxv => ?_⟩
    have hxv' : x.var = v := by rw [hxv, hpl, hlv]
    exact Lit.eq_of_var_positive hxv (by rw [hall x hx hxv', hpl, hlp])

end ScalaRs.Patmat
