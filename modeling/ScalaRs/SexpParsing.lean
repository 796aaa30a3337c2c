import ScalaRs.SexpGrammar

/-! # The compiler's parser reads the wire format

The scratch stack is as it was when an item has been parsed. -/
namespace ScalaRs.Wire
open CodeUnits

variable {U : Type} [CodeUnit U]

theorem parseStr_eq_ok_iff (out run s : List U) (r : List U × List U) :
    parseStr out run s = .ok r ↔
      ∃ content, readStr s = some (content, r.2) ∧ r.1 = out ++ run ++ content := by
  fun_induction parseStr out run s with
  | case1 out run => simp [readStr]
  | case2 out run c s hq =>
    simp only [readStr_quote hq, Except.ok.injEq, Option.some.injEq, Prod.mk.injEq]
    constructor
    · intro h
      rw [← h]
      exact ⟨[], ⟨rfl, rfl⟩, (List.append_nil _).symm⟩
    · rintro ⟨content, ⟨hcontent, hrest⟩, hr⟩
      rw [← hcontent, List.append_nil] at hr
      exact Prod.ext hr.symm hrest
  | case3 out run c s hq hne ih =>
    rw [ih, readStr_plain hq hne]
    constructor
    · rintro ⟨content, hs, hr⟩
      refine ⟨c :: content, ?_, ?_⟩
      · rw [hs]
        rfl
      · rw [hr]
        simp
    · rintro ⟨content, hs, hr⟩
      obtain ⟨r', hs', heq⟩ := Option.map_eq_some_iff.mp hs
      obtain ⟨hcontent, hrest⟩ := Prod.mk.inj heq
      refine ⟨r'.1, ?_, ?_⟩
      · rw [hs', ← hrest]
      · rw [hr, ← hcontent]
        simp
  | case4 out run c hq hne =>
    rw [readStr_escape_nil (not_not.mp hne)]
    simp
  | case5 out run c hq hne e s u hu ih =>
    rw [ih, readStr_escape (not_not.mp hne), hu]
    constructor
    · rintro ⟨content, hs, hr⟩
      refine ⟨u :: content, ?_, ?_⟩
      · simp [hs]
      · rw [hr]
        simp
    · rintro ⟨content, hs, hr⟩
      obtain ⟨r', hs', heq⟩ := Option.map_eq_some_iff.mp hs
      obtain ⟨hcontent, hrest⟩ := Prod.mk.inj heq
      refine ⟨r'.1, ?_, ?_⟩
      · rw [hs', ← hrest]
      · rw [hr, ← hcontent]
        simp
  | case6 out run c hq hne e s hu =>
    rw [readStr_escape (not_not.mp hne), hu]
    simp

theorem parse_iff (maxDepth : ℕ) :
    (∀ (s : List U) depth scratch, ∀ r, parseAt maxDepth s depth scratch = .ok r ↔
      Reads maxDepth s depth r.1 r.2.1 ∧ r.2.2 = scratch) ∧
    ∀ (s : List U) depth start scratch, start ≤ scratch.length → ∀ r,
      parseItems maxDepth s depth start scratch = .ok r ↔
        ∃ items, r.1 = .list (scratch.drop start ++ items) ∧
          ReadsItems maxDepth s depth items r.2.1 ∧ r.2.2 = scratch.take start := by
  apply parseAt.mutual_induct maxDepth
    (fun s depth scratch => ∀ r, parseAt maxDepth s depth scratch = .ok r ↔
      Reads maxDepth s depth r.1 r.2.1 ∧ r.2.2 = scratch)
    (fun s depth start scratch => start ≤ scratch.length → ∀ r,
      parseItems maxDepth s depth start scratch = .ok r ↔
        ∃ items, r.1 = .list (scratch.drop start ++ items) ∧
          ReadsItems maxDepth s depth items r.2.1 ∧ r.2.2 = scratch.take start)
  · -- no item
    intro s depth scratch hs r
    rw [parseAt, hs]
    simp [not_reads_of_nil hs]
  · -- a list too deep
    intro s depth scratch c rest hs hc hdeep r
    rw [parseAt, hs]
    simp [hc, hdeep, reads_list_iff hs hc, Nat.not_lt.mpr hdeep]
  · -- a list
    intro s depth scratch c rest hs hc hdeep ih r
    rw [parseAt, hs]
    simp only [if_pos hc, if_neg hdeep, ih le_rfl r, reads_list_iff hs hc, List.drop_length,
      List.nil_append, List.take_length]
    constructor
    · intro ⟨items, ht, hi, hsc⟩
      exact ⟨⟨Nat.not_le.mp hdeep, items, ht, hi⟩, hsc⟩
    · intro ⟨⟨_, items, ht, hi⟩, hsc⟩
      exact ⟨items, ht, hi, hsc⟩
  · -- a quoted string
    intro s depth scratch c rest hs hopen hq r
    rw [parseAt, hs]
    simp only [if_neg hopen, if_pos hq, reads_str_iff hs hq]
    constructor
    · intro h
      obtain ⟨q, hparse, heq⟩ : ∃ q, parseStr [] [] rest = .ok q ∧ (.str q.1, q.2, scratch) = r := by
        cases hp : parseStr [] [] rest with
        | error e =>
          rw [hp] at h
          cases h
        | ok q =>
          rw [hp] at h
          exact ⟨q, rfl, Except.ok.inj h⟩
      obtain ⟨content, hread, hcontent⟩ := (parseStr_eq_ok_iff [] [] rest q).mp hparse
      rw [← heq]
      exact ⟨⟨content, congrArg Sexp.str hcontent, hread⟩, rfl⟩
    · intro ⟨⟨content, ht, hread⟩, hsc⟩
      have hparse := (parseStr_eq_ok_iff [] [] rest (content, r.2.1)).mpr ⟨content, hread, rfl⟩
      rw [hparse]
      exact congrArg Except.ok (Prod.ext ht.symm (Prod.ext rfl hsc.symm))
  · -- a closing parenthesis
    intro s depth scratch c rest hs hopen hq hclose r
    rw [parseAt, hs]
    simp [hclose, not_reads_of_close hs hclose]
  · -- an atom
    intro s depth scratch c rest hs hopen hq hclose r
    rw [parseAt, hs]
    simp only [if_neg hopen, if_neg hq, if_neg hclose, reads_atom_iff hs hopen hq hclose,
      Except.ok.injEq]
    constructor
    · intro h
      rw [← h]
      exact ⟨⟨rfl, rfl⟩, rfl⟩
    · intro ⟨⟨ht, hafter⟩, hsc⟩
      exact Prod.ext ht.symm (Prod.ext hafter.symm hsc.symm)
  · -- an open list at the end of the text
    intro s depth start scratch hs hstart r
    rw [parseItems, hs]
    simp [not_readsItems_of_nil hs]
  · -- the end of the list
    intro s depth start scratch c rest hs hclose hstart r
    rw [parseItems, hs]
    simp only [if_pos hclose, Except.ok.injEq, readsItems_close_iff hs hclose]
    constructor
    · intro h
      rw [← h]
      exact ⟨[], by rw [List.append_nil], ⟨rfl, rfl⟩, rfl⟩
    · intro ⟨items, ht, ⟨hitems, hafter⟩, hsc⟩
      rw [hitems, List.append_nil] at ht
      exact Prod.ext ht.symm (Prod.ext hafter.symm hsc.symm)
  · -- a wrong item
    intro s depth start scratch c rest hs hclose e hitem ih hstart r
    rw [parseItems, hs]
    simp only [if_neg hclose, hitem, readsItems_cons_iff hs hclose, reduceCtorEq, false_iff]
    intro ⟨items, _, ⟨t, next, ts, _, ht, _⟩, _⟩
    have hok := (ih (t, next, scratch)).mpr ⟨ht, rfl⟩
    rw [hitem] at hok
    cases hok
  · -- an item and the others
    intro s depth start scratch c rest hs hclose item next scratch' hitem hlt ih ihs hstart r
    obtain ⟨hread, hsc⟩ := (ih (item, next, scratch')).mp hitem
    replace hsc : scratch' = scratch := hsc
    have hstart' : start ≤ (scratch' ++ [item]).length := by
      rw [hsc, List.length_append]
      omega
    have hstep : parseItems maxDepth s depth start scratch =
        parseItems maxDepth next depth start (scratch' ++ [item]) := by
      rw [parseItems, hs]
      simp only [if_neg hclose, hitem, dif_pos hlt]
    rw [hstep, ihs hstart' r, hsc, List.drop_append_of_le_length hstart,
      List.take_append_of_le_length hstart]
    simp only [readsItems_cons_iff hs hclose, List.append_assoc, List.singleton_append]
    constructor
    · intro ⟨items, ht, hi, htake⟩
      exact ⟨item :: items, ht, ⟨item, next, items, rfl, hread, hi⟩, htake⟩
    · intro ⟨_, ht, ⟨t, next', ts, hitems, hread', hi⟩, htake⟩
      -- the item is the one the parser found
      have hok := (ih (t, next', scratch)).mpr ⟨hread', rfl⟩
      rw [hitem] at hok
      obtain ⟨htt, hnext⟩ := Prod.mk.inj (Except.ok.inj hok)
      rw [← (Prod.mk.inj hnext).1] at hi
      exact ⟨ts, by rw [ht, hitems, htt], hi, htake⟩
  · -- no item is empty
    intro s depth start scratch c rest hs hclose item next scratch' hitem hlt ih
    have hread := ((ih (item, next, scratch')).mp hitem).1
    have hnext := hread.suffix.2
    have htail := (skipSpaces_suffix hs).length_le
    exact absurd (Nat.lt_of_lt_of_le hnext htail) hlt

theorem parseAt_eq_ok_iff {maxDepth depth : ℕ} {s rest : List U} {scratch scratch' : List (Sexp U)}
    {t : Sexp U} : parseAt maxDepth s depth scratch = .ok (t, rest, scratch') ↔
      Reads maxDepth s depth t rest ∧ scratch' = scratch :=
  (parse_iff maxDepth).1 s depth scratch (t, rest, scratch')

/-- A text reads as one item at most. -/
theorem Reads.unique {maxDepth depth : ℕ} {s rest rest' : List U} {t t' : Sexp U}
    (h : Reads maxDepth s depth t rest) (h' : Reads maxDepth s depth t' rest') :
    t = t' ∧ rest = rest' := by
  have hok := ((parse_iff maxDepth).1 s depth [] (t, rest, [])).mpr ⟨h, rfl⟩
  rw [((parse_iff maxDepth).1 s depth [] (t', rest', [])).mpr ⟨h', rfl⟩] at hok
  cases hok
  exact ⟨rfl, rfl⟩

/-- The compiler accepts the texts of one item within the limits. -/
theorem parseWithLimits_eq_ok_iff {maxBytes maxDepth : ℕ} {s : List U} {t : Sexp U} :
    parseWithLimits maxBytes maxDepth s = .ok t ↔
      s.length ≤ maxBytes ∧ ∃ rest, Reads maxDepth s 0 t rest ∧ skipSpaces rest = [] := by
  rw [parseWithLimits]
  split
  · simp only [reduceCtorEq, false_iff]
    omega
  · next hsize =>
    constructor
    · intro h
      split at h
      · cases h
      · next v rest scratch hparse =>
        split at h
        · next hrest =>
          cases h
          exact ⟨Nat.not_lt.mp hsize, rest, (parseAt_eq_ok_iff.mp hparse).1,
            List.isEmpty_iff.mp hrest⟩
        · cases h
    · rintro ⟨_, rest, hread, hrest⟩
      rw [parseAt_eq_ok_iff.mpr ⟨hread, rfl⟩]
      simp [hrest]

end ScalaRs.Wire
