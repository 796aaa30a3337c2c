import ScalaRs.DescriptorScanners
import Mathlib.Algebra.GroupWithZero.Nat

/-! # The scanners agree

Every scanner first cuts the descriptor at the first `)`. If that ends the
parameters they all read the same types; if it falls into a class name, the loops
over characters never end. -/
namespace ScalaRs.JvmDescriptors

open CodeUnits WhileLoops

/-! ## The search for a semicolon -/

theorem run_skipBody {w : List Char} (h : ';' ∉ w) (rest : List Char) {fuel : ℕ}
    (hfuel : w.length < fuel) : run skipBody fuel (w ++ ';' :: rest) = some rest := by
  induction w generalizing fuel with
  | nil =>
    obtain ⟨k, rfl⟩ : ∃ k, fuel = k + 1 := ⟨fuel - 1, by rw [List.length_nil] at hfuel; omega⟩
    have hstep : skipBody (';' :: rest) = some (.done rest) := rfl
    exact run_done hstep k
  | cons c w ih =>
    obtain ⟨k, rfl⟩ : ∃ k, fuel = k + 1 := ⟨fuel - 1, by omega⟩
    have hc : c ≠ ';' := fun hc => h (hc ▸ List.mem_cons_self)
    have hstep : skipBody (c :: w ++ ';' :: rest) = some (.next (w ++ ';' :: rest)) := if_neg hc
    rw [List.length_cons] at hfuel
    rw [run_next hstep, ih (fun hw => h (List.mem_cons_of_mem _ hw)) (by omega)]

/-- Without a semicolon the search goes on for ever. -/
theorem run_skipBody_none {s : List Char} (h : ';' ∉ s) (fuel : ℕ) :
    run skipBody fuel s = none := by
  induction fuel generalizing s with
  | zero => rfl
  | succ fuel ih =>
    cases s with
    | nil =>
      have hstep : skipBody [] = some (.next []) := rfl
      rw [run_next hstep, ih h]
    | cons c s =>
      have hc : c ≠ ';' := fun hc => h (hc ▸ List.mem_cons_self)
      have hstep : skipBody (c :: s) = some (.next s) := if_neg hc
      rw [run_next hstep, ih fun hs => h (List.mem_cons_of_mem _ hs)]

/-! ## One type -/

def FieldType.head : FieldType → Char
  | base t => t.letter
  | array _ => '['
  | object _ => 'L'

theorem text_eq (t : FieldType) : t.text = t.head :: t.text.tail := by cases t <;> rfl

theorem dropWhile_brackets_text (t : FieldType) (rest : List Char) :
    (t.text ++ rest).dropWhile (· == '[') = t.core.text ++ rest := by
  induction t with
  | base t =>
    have hne : (t.letter == '[') = false := by cases t <;> decide
    rw [FieldType.core, FieldType.text, List.singleton_append, List.dropWhile_cons, hne]
    rfl
  | array t ih =>
    rw [FieldType.core, FieldType.text, List.cons_append, List.dropWhile_cons,
      if_pos (beq_self_eq_true _), ih]
  | object name =>
    rw [FieldType.core, FieldType.text, List.cons_append, List.cons_append, List.dropWhile_cons,
      if_neg (by decide)]

theorem length_core_le (t : FieldType) : t.core.text.length ≤ t.text.length := by
  induction t with
  | base => exact Nat.le_refl _
  | array t ih => exact Nat.le_succ_of_le ih
  | object => exact Nat.le_refl _

/-- A type is skipped at once, or by a search for the semicolon that ends it. -/
theorem skipType_text {t : FieldType} (h : ';' ∉ t.className) (rest : List Char) :
    (∀ fuel, skipType fuel t.head (t.text.tail ++ rest) = some rest) ∨
    ∃ w, ';' ∉ w ∧ w.length < t.text.length ∧
      ∀ fuel, skipType fuel t.head (t.text.tail ++ rest) =
        run skipBody fuel (w ++ ';' :: rest) := by
  cases t with
  | base t =>
    left
    intro fuel
    have hL : t.letter ≠ 'L' := by cases t <;> decide
    have hbracket : t.letter ≠ '[' := by cases t <;> decide
    rw [skipType, FieldType.head, if_neg hL, if_neg hbracket]
    rfl
  | array t =>
    have hskip : ∀ fuel, skipType fuel '[' (t.text ++ rest) =
        if (t.core.text ++ rest).head? = some 'L' then run skipBody fuel (t.core.text ++ rest)
        else some ((t.core.text ++ rest).drop 1) := by
      intro fuel
      rw [skipType, if_neg (by decide), if_pos rfl, dropWhile_brackets_text]
    rcases core_cases t with ⟨b, hb⟩ | ⟨name, hname, hclass⟩
    · left
      intro fuel
      have hL : b.letter ≠ 'L' := by cases b <;> decide
      have hhead : ¬ (FieldType.base b).text.head? = some 'L' := fun h => hL (Option.some.inj h)
      exact (hskip fuel).trans (by rw [hb]; exact if_neg hhead)
    · right
      have hcore : t.core.text ++ rest = ('L' :: name) ++ ';' :: rest := by
        rw [hname, FieldType.text, List.append_assoc, List.singleton_append]
      have hsemi : ';' ∉ 'L' :: name := by
        rw [List.mem_cons, not_or]
        exact ⟨by decide, hclass ▸ h⟩
      have hlen := length_core_le t
      refine ⟨'L' :: name, hsemi, ?_, ?_⟩
      · rw [hname, FieldType.text, List.length_append, List.length_singleton] at hlen
        rw [FieldType.text]
        exact Nat.lt_succ_of_lt hlen
      · intro fuel
        rw [← hcore]
        refine (hskip fuel).trans (if_pos ?_)
        rw [hcore]
        rfl
  | object name =>
    right
    refine ⟨name, h, ?_, ?_⟩
    · rw [FieldType.text, List.length_append, List.length_cons, List.length_singleton]
      omega
    · intro fuel
      have htail : (FieldType.object name).text.tail ++ rest = name ++ ';' :: rest := by
        simp [FieldType.text]
      rw [htail, skipType, FieldType.head, if_pos rfl]

theorem countBody_text {t : FieldType} (h : ';' ∉ t.className) (weight : Char → ℕ) {fuel : ℕ}
    (hfuel : t.text.length ≤ fuel) (n : ℕ) (rest : List Char) :
    countBody weight fuel (n, t.text ++ rest) = some (.next (n + weight t.head, rest)) := by
  have hskip : skipType fuel t.head (t.text.tail ++ rest) = some rest := by
    rcases skipType_text h rest with hskip | ⟨w, hw, hlen, hskip⟩
    · exact hskip fuel
    · rw [hskip, run_skipBody hw rest (by omega)]
  rw [text_eq, List.cons_append, countBody, hskip]
  rfl

/-- With any fuel, a turn of the loop takes the type at the front or does not end. -/
theorem countBody_text_cases {t : FieldType} (h : ';' ∉ t.className) (weight : Char → ℕ)
    (fuel n : ℕ) (rest : List Char) :
    countBody weight fuel (n, t.text ++ rest) = none ∨
      countBody weight fuel (n, t.text ++ rest) = some (.next (n + weight t.head, rest)) := by
  have hskip : skipType fuel t.head (t.text.tail ++ rest) = none ∨
      skipType fuel t.head (t.text.tail ++ rest) = some rest := by
    rcases skipType_text h rest with hskip | ⟨w, hw, -, hskip⟩
    · exact .inr (hskip fuel)
    · rw [hskip]
      cases hrun : run skipBody fuel (w ++ ';' :: rest) with
      | none => exact .inl rfl
      | some r =>
        have hmore := run_mono (Nat.le_max_left fuel (w.length + 1)) hrun
        rw [run_skipBody hw rest (Nat.lt_of_lt_of_le (Nat.lt_succ_self _) (Nat.le_max_right _ _))]
          at hmore
        exact .inr hmore.symm
  rw [text_eq, List.cons_append, countBody]
  rcases hskip with hskip | hskip
  · exact .inl (by rw [hskip]; rfl)
  · exact .inr (by rw [hskip]; rfl)

theorem takeWhile_cut {w : List Char} (h : ')' ∉ w) (rest : List Char) :
    (w ++ ')' :: rest).takeWhile (· != ')') = w := by
  rw [List.takeWhile_append_of_pos]
  · simp
  · intro c hc
    apply bne_iff_ne.mpr
    exact fun hcut => h (hcut ▸ hc)

theorem takeWhile_object {name : List Char} (h : ';' ∉ name) (hcut : ')' ∈ name) :
    ∃ w, ';' ∉ w ∧ (FieldType.object name).text.takeWhile (· != ')') = 'L' :: w := by
  obtain ⟨w, rest, rfl, hw⟩ := List.eq_append_cons_of_mem hcut
  refine ⟨w, fun hsemi => h (List.mem_append_left _ hsemi), ?_⟩
  have hL : ('L' != ')') = true := by decide
  rw [FieldType.text, List.cons_append, List.takeWhile_cons, if_pos hL, List.append_assoc,
    List.cons_append, takeWhile_cut hw]

theorem takeWhile_array (t : FieldType) : (FieldType.array t).text.takeWhile (· != ')') =
    '[' :: t.text.takeWhile (· != ')') := by
  have hbracket : ('[' != ')') = true := by decide
  rw [FieldType.text, List.takeWhile_cons, if_pos hbracket]

theorem dropWhile_takeWhile {t : FieldType} (h : ';' ∉ t.className) (hcut : ')' ∈ t.className) :
    ∃ w, ';' ∉ w ∧ (t.text.takeWhile (· != ')')).dropWhile (· == '[') = 'L' :: w := by
  induction t with
  | base t => exact absurd hcut List.not_mem_nil
  | array t ih =>
    rw [takeWhile_array, List.dropWhile_cons, if_pos (beq_self_eq_true _)]
    exact ih h hcut
  | object name =>
    obtain ⟨w, hw, htext⟩ := takeWhile_object (show ';' ∉ name from h) hcut
    refine ⟨w, hw, ?_⟩
    rw [htext, List.dropWhile_cons, if_neg (by decide)]

/-- A class name that is cut before its semicolon keeps the loop busy for ever. -/
theorem countBody_cut {t : FieldType} (h : ';' ∉ t.className) (hcut : ')' ∈ t.className)
    (weight : Char → ℕ) (fuel n : ℕ) :
    countBody weight fuel (n, t.text.takeWhile (· != ')')) = none := by
  cases t with
  | base t => exact absurd hcut List.not_mem_nil
  | array t =>
    obtain ⟨w, hw, htext⟩ := dropWhile_takeWhile (t := t) h hcut
    have hsemi : ';' ∉ 'L' :: w := by
      rw [List.mem_cons, not_or]
      exact ⟨by decide, hw⟩
    rw [takeWhile_array, countBody, skipType, if_neg (by decide), if_pos rfl, htext]
    dsimp only
    rw [if_pos List.head?_cons, run_skipBody_none hsemi]
    rfl
  | object name =>
    obtain ⟨w, hw, htext⟩ := takeWhile_object (show ';' ∉ name from h) hcut
    rw [htext, countBody, skipType, if_pos rfl, run_skipBody_none hw]
    rfl

/-! ## All parameters -/

theorem mem_text_iff {t : FieldType} : ')' ∈ t.text ↔ ')' ∈ t.className := by
  induction t with
  | base t => cases t <;> simp [FieldType.text, FieldType.className, BaseType.letter]
  | array t ih => simpa [FieldType.text, FieldType.className] using ih
  | object name => simp [FieldType.text, FieldType.className]

theorem run_countBody {params : List FieldType} (h : ∀ p ∈ params, ';' ∉ p.className)
    (weight : Char → ℕ) {fuel : ℕ} (hfuel : (params.flatMap FieldType.text).length ≤ fuel)
    {turns : ℕ} (hturns : params.length < turns) (n : ℕ) :
    run (countBody weight fuel) turns (n, params.flatMap FieldType.text) =
      some (n + (params.map fun p => weight p.head).sum) := by
  induction params generalizing n turns with
  | nil =>
    obtain ⟨k, rfl⟩ := Nat.exists_eq_add_of_lt hturns
    exact run_done rfl _
  | cons p params ih =>
    obtain ⟨k, rfl⟩ : ∃ k, turns = k + 1 := ⟨turns - 1, by omega⟩
    rw [List.flatMap_cons, List.length_append] at hfuel
    rw [List.length_cons] at hturns
    have hstep := countBody_text (h p List.mem_cons_self) weight
      (Nat.le_trans (Nat.le_add_right _ _) hfuel) n (params.flatMap FieldType.text)
    rw [List.flatMap_cons, run_next hstep,
      ih (fun q hq => h q (List.mem_cons_of_mem _ hq)) (by omega) (by omega), List.map_cons,
      List.sum_cons, Nat.add_assoc]

theorem run_countBody_cut {params : List FieldType} (h : ∀ p ∈ params, ';' ∉ p.className)
    (hcut : ∃ p ∈ params, ')' ∈ p.className) (weight : Char → ℕ) (fuel turns n : ℕ)
    (rest : List Char) :
    run (countBody weight fuel) turns
      (n, (params.flatMap FieldType.text ++ rest).takeWhile (· != ')')) = none := by
  induction params generalizing n turns with
  | nil =>
    obtain ⟨p, hp, -⟩ := hcut
    cases hp
  | cons p params ih =>
    cases turns with
    | zero => rfl
    | succ turns =>
      rw [List.flatMap_cons, List.append_assoc]
      by_cases hp : ')' ∈ p.className
      · obtain ⟨w, tail, hw, hno⟩ := List.eq_append_cons_of_mem (mem_text_iff.mpr hp)
        have hsame : (p.text ++ (params.flatMap FieldType.text ++ rest)).takeWhile (· != ')') =
            p.text.takeWhile (· != ')') := by
          rw [hw, List.append_assoc, List.cons_append, takeWhile_cut hno, takeWhile_cut hno]
        rw [hsame, run, countBody_cut (h p List.mem_cons_self) hp]
      · have hkeep : (p.text ++ (params.flatMap FieldType.text ++ rest)).takeWhile (· != ')') =
            p.text ++ (params.flatMap FieldType.text ++ rest).takeWhile (· != ')') := by
          apply List.takeWhile_append_of_pos
          intro c hc
          apply bne_iff_ne.mpr
          exact fun hcp => hp (mem_text_iff.mp (hcp ▸ hc))
        have hlater : ∃ q ∈ params, ')' ∈ q.className := by
          obtain ⟨q, hq, hqcut⟩ := hcut
          rcases List.mem_cons.mp hq with rfl | hq
          · exact absurd hqcut hp
          · exact ⟨q, hq, hqcut⟩
        rw [hkeep]
        rcases countBody_text_cases (h p List.mem_cons_self) weight fuel n
          ((params.flatMap FieldType.text ++ rest).takeWhile (· != ')')) with hstep | hstep
        · rw [run, hstep]
        · rw [run_next hstep, ih (fun q hq => h q (List.mem_cons_of_mem _ hq)) hlater]

/-! ## Where the descriptor is cut -/

theorem head_ne_open (t : FieldType) : t.head ≠ '(' := by
  cases t with
  | base t => cases t <;> decide
  | array t => simp [FieldType.head]
  | object name => simp [FieldType.head]

theorem inner_methodDescriptor (params : List FieldType) (ret : ReturnType) :
    inner (methodDescriptor params ret) =
      (params.flatMap FieldType.text ++ ')' :: ret.text).takeWhile (· != ')') := by
  have hclosed : (methodDescriptor params ret).contains ')' = true := by
    rw [List.contains_iff_mem]
    simp [methodDescriptor]
  have hopen : ('(' != ')') = true := by decide
  rw [inner, if_pos hclosed, methodDescriptor, List.cons_append, List.takeWhile_cons, if_pos hopen,
    List.dropWhile_cons, if_pos (beq_self_eq_true _)]
  cases params with
  | nil => rfl
  | cons p params =>
    have hhead : (p.head == '(') = false := beq_eq_false_iff_ne.mpr (head_ne_open p)
    rw [List.flatMap_cons, text_eq]
    simp only [List.cons_append, List.takeWhile_cons]
    split
    · rw [List.dropWhile_cons, hhead]
      rfl
    · rfl

section Uncut

variable {params : List FieldType} (ret : ReturnType)

theorem not_mem_params (h : ∀ p ∈ params, ')' ∉ p.className) :
    ')' ∉ params.flatMap FieldType.text := by
  intro hmem
  obtain ⟨p, hp, hmem⟩ := List.mem_flatMap.mp hmem
  exact h p hp (mem_text_iff.mp hmem)

theorem inner_of_uncut (h : ∀ p ∈ params, ')' ∉ p.className) :
    inner (methodDescriptor params ret) = params.flatMap FieldType.text := by
  rw [inner_methodDescriptor, takeWhile_cut (not_mem_params h)]

theorem region_of_uncut (h : ∀ p ∈ params, ')' ∉ p.className) :
    region (methodDescriptor params ret) = some (params.flatMap FieldType.bytes) := by
  have htext : utf8.text (methodDescriptor params ret) =
      (byte '(' :: params.flatMap FieldType.bytes) ++ byte ')' :: utf8.text ret.text := by
    rw [methodDescriptor, utf8.text_append, utf8.text_cons, utf8.text_cons, text_params,
      encode_ascii (by decide), encode_ascii (by decide)]
    rfl
  have hno : ∀ b ∈ byte '(' :: params.flatMap FieldType.bytes,
      ¬ decide (b = byte ')') = true := by
    intro b hb hclose
    rw [of_decide_eq_true hclose] at hb
    rcases List.mem_cons.mp hb with hb | hb
    · exact absurd hb (by decide)
    · rw [← text_params] at hb
      exact not_mem_params h ((byte_mem_text (by decide)).mp hb)
  unfold region
  dsimp only
  rw [htext, findIdx?_append_cons hno (decide_eq_true rfl), Option.map_some, List.take_left,
    List.cons_append, if_pos List.head?_cons]
  rfl

end Uncut

def FieldType.isWide : FieldType → Bool
  | base t => t = .J || t = .D
  | _ => false

theorem sum_ones {α : Type} (l : List α) : (l.map fun _ => 1).sum = l.length := by
  induction l with
  | nil => rfl
  | cons a l ih =>
    rw [List.map_cons, List.sum_cons, ih, List.length_cons]
    omega

theorem sum_slots (params : List FieldType) :
    (params.map fun p => if p.head = 'J' ∨ p.head = 'D' then 2 else 1).sum =
      params.length + params.countP FieldType.isWide := by
  have hwide : ∀ p : FieldType, (if p.head = 'J' ∨ p.head = 'D' then 2 else 1) =
      if p.isWide then 2 else 1 := by
    intro p
    cases p with
    | base t => cases t <;> rfl
    | array t => rfl
    | object name => rfl
  induction params with
  | nil => rfl
  | cons p params ih =>
    rw [List.map_cons, List.sum_cons, ih, hwide, List.length_cons, List.countP_cons]
    split <;> omega

theorem length_params_le (params : List FieldType) :
    params.length ≤ (params.flatMap FieldType.text).length := by
  induction params with
  | nil => exact Nat.le_refl _
  | cons p params ih =>
    rw [List.flatMap_cons, List.length_append, List.length_cons, text_eq, List.length_cons]
    omega

/-- The counters at a descriptor that is cut behind its parameters. -/
theorem countWith_of_uncut {params : List FieldType} (ret : ReturnType)
    (hp : ∀ p ∈ params, p.WellFormed ∧ ')' ∉ p.className) (weight : Char → ℕ) {fuel : ℕ}
    (hfuel : (methodDescriptor params ret).length < fuel) :
    countWith weight fuel (methodDescriptor params ret) =
      some (params.map fun p => weight p.head).sum := by
  have hlen : (params.flatMap FieldType.text).length < fuel := by
    rw [methodDescriptor, List.cons_append, List.length_cons, List.length_append] at hfuel
    omega
  rw [countWith, inner_of_uncut ret fun p h => (hp p h).2,
    run_countBody (fun p h => semi_not_mem (hp p h).1) weight (Nat.le_of_lt hlen)
      (Nat.lt_of_le_of_lt (length_params_le params) hlen), Nat.zero_add]

/-- All scanners read the parameters of a well-formed descriptor whose class names have
no `)`, and the validator accepts it unless one has a null character. -/
theorem scanners_agree {params : List FieldType} {ret : ReturnType}
    (hp : ∀ p ∈ params, p.WellFormed ∧ ')' ∉ p.className) (hr : ret.WellFormed) :
    (Accepted (methodDescriptor params ret) ↔
      (∀ p ∈ params, '\x00' ∉ p.className) ∧ '\x00' ∉ ret.className) ∧
    paramDescs (methodDescriptor params ret) = some (params.map FieldType.bytes) ∧
    paramDescriptors (methodDescriptor params ret) = some (params.map FieldType.bytes) ∧
    methodParameterCount (methodDescriptor params ret) = params.length ∧
    ∀ fuel, (methodDescriptor params ret).length < fuel →
      countParams fuel (methodDescriptor params ret) = some params.length ∧
      countParamSlots fuel (methodDescriptor params ret) =
        some (params.length + params.countP FieldType.isWide) := by
  have hcut : ∀ p ∈ params, ')' ∉ p.className := fun p h => (hp p h).2
  have hsemi : ∀ p ∈ params, ';' ∉ p.className := fun p h => semi_not_mem (hp p h).1
  have hparam : ∀ p ∈ params, parameterScanner.Takes p :=
    fun p h => parameterScanner_takes (hsemi p h)
  refine ⟨accepted_methodDescriptor_iff (fun p h => (hp p h).1) hr, ?_, ?_, ?_, ?_⟩
  · rw [paramDescs, inner_of_uncut ret hcut, text_params, Scanner.slices_params
      fun p h => paramDescsScanner_takes (hsemi p h), List.nil_append]
  · rw [paramDescriptors, region_of_uncut ret hcut]
    dsimp only
    rw [Scanner.slices_params hparam, List.nil_append]
  · rw [methodParameterCount, region_of_uncut ret hcut]
    dsimp only
    rw [Scanner.count_params hparam, Nat.zero_add]
  · intro fuel hfuel
    constructor
    · rw [countParams, countWith_of_uncut ret hp _ hfuel, sum_ones]
    · rw [countParamSlots, countWith_of_uncut ret hp _ hfuel, sum_slots]

/-- `(LA;J[LB/C;)V` -/
theorem scanners_agree_three :
    paramDescs (methodDescriptor
      [.object ['A'], .base .J, .array (.object ['B', '/', 'C'])] .void) =
      some ([.object ['A'], .base .J, .array (.object ['B', '/', 'C'])].map FieldType.bytes) := by
  have hA : IsClassName ['A'] := by decide
  have hB : IsClassName ['B', '/', 'C'] := by decide
  have hp : ∀ p ∈ [FieldType.object ['A'], .base .J, .array (.object ['B', '/', 'C'])],
      p.WellFormed ∧ ')' ∉ p.className := by
    intro p hp
    simp only [List.mem_cons, List.not_mem_nil, or_false] at hp
    rcases hp with rfl | rfl | rfl
    · exact ⟨hA, by decide⟩
    · exact ⟨trivial, by decide⟩
    · exact ⟨hB, by decide⟩
  exact (@scanners_agree _ .void hp trivial).2.1

/-- A null character is allowed in the name of a class, and not accepted. -/
theorem null_not_accepted :
    (∀ p ∈ [FieldType.object ['a', '\x00']], p.WellFormed ∧ ')' ∉ p.className) ∧
      ReturnType.void.WellFormed ∧
      ¬ Accepted (methodDescriptor [.object ['a', '\x00']] .void) := by
  have hname : IsClassName ['a', '\x00'] := by decide
  have hp : ∀ p ∈ [FieldType.object ['a', '\x00']], p.WellFormed ∧ ')' ∉ p.className := by
    intro p hp
    rw [List.mem_singleton.mp hp]
    exact ⟨hname, by decide⟩
  refine ⟨hp, trivial, ?_⟩
  intro h
  have hnul := (@accepted_methodDescriptor_iff _ .void (fun p h => (hp p h).1) trivial).mp h
  exact hnul.1 _ (List.mem_singleton_self _) (by decide)

/-- Both counters end, for some number of turns. -/
def CountersEnd (desc : List Char) : Prop :=
  (∃ fuel n, countParams fuel desc = some n) ∧ ∃ fuel n, countParamSlots fuel desc = some n

theorem not_countersEnd {params : List FieldType} (ret : ReturnType)
    (hp : ∀ p ∈ params, p.WellFormed) (hcut : ∃ p ∈ params, ')' ∈ p.className) :
    ¬ CountersEnd (methodDescriptor params ret) := by
  intro hend
  obtain ⟨⟨fuel, n, hcount⟩, -⟩ := hend
  rw [countParams, countWith, inner_methodDescriptor, run_countBody_cut
    (fun q hq => semi_not_mem (hp q hq)) hcut] at hcount
  cases hcount

/-- An accepted descriptor is that of some parameters, and the counters end on it
exactly if no class name among these has a `)`. -/
theorem countersEnd_iff {desc : List Char} (h : Accepted desc) :
    ∃ params : List FieldType, ∃ ret : ReturnType, desc = methodDescriptor params ret ∧
      (∀ p ∈ params, p.WellFormed) ∧ ret.WellFormed ∧
      (CountersEnd desc ↔ ∀ p ∈ params, ')' ∉ p.className) := by
  obtain ⟨params, ret, rfl, hp, hr⟩ := exists_of_accepted h
  refine ⟨params, ret, rfl, hp, hr, ?_, ?_⟩
  · intro hend p hmem hcut
    exact not_countersEnd ret hp ⟨p, hmem, hcut⟩ hend
  · intro hcut
    have hboth : ∀ p ∈ params, p.WellFormed ∧ ')' ∉ p.className :=
      fun p hmem => ⟨hp p hmem, hcut p hmem⟩
    exact ⟨⟨_, _, countWith_of_uncut ret hboth _ (Nat.lt_succ_self _)⟩,
      ⟨_, _, countWith_of_uncut ret hboth _ (Nat.lt_succ_self _)⟩⟩

/-- `(I)V` -/
theorem countersEnd_iff_int :
    ∃ params : List FieldType, ∃ ret : ReturnType,
      methodDescriptor [.base .I] .void = methodDescriptor params ret ∧
      (∀ p ∈ params, p.WellFormed) ∧ ret.WellFormed ∧
      (CountersEnd (methodDescriptor [.base .I] .void) ↔ ∀ p ∈ params, ')' ∉ p.className) := by
  have hp : ∀ p ∈ [FieldType.base .I], p.WellFormed := by
    intro p hp
    rw [List.mem_singleton.mp hp]
    trivial
  exact countersEnd_iff ((@accepted_methodDescriptor_iff _ .void hp trivial).mpr
    ⟨by decide, by decide⟩)

/-- `(La)b;)V` is accepted, and cut inside of the class name. -/
theorem parenthesis_runs_forever :
    Accepted (methodDescriptor [.object ['a', ')', 'b']] .void) ∧
      ¬ CountersEnd (methodDescriptor [.object ['a', ')', 'b']] .void) := by
  have hname : IsClassName ['a', ')', 'b'] := by decide
  have hp : ∀ p ∈ [FieldType.object ['a', ')', 'b']], p.WellFormed := by
    intro p hp
    rw [List.mem_singleton.mp hp]
    exact hname
  constructor
  · exact (@accepted_methodDescriptor_iff _ .void hp trivial).mpr ⟨by decide, by decide⟩
  · exact not_countersEnd .void hp ⟨_, List.mem_singleton_self _, by decide⟩

end ScalaRs.JvmDescriptors
