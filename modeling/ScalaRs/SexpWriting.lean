import ScalaRs.SexpReading

/-! # Written trees

What is written reads back in every encoding: the units of a text say the same as its
characters, and both sides write the same characters. -/
namespace ScalaRs.Wire
open CodeUnits

/-- A tree of characters in an encoding. -/
def Sexp.encode {U : Type} [CodeUnit U] (e : Encoding U) : Sexp Char → Sexp U
  | .atom a => .atom (e.text a)
  | .str s => .str (e.text s)
  | .list items => .list (items.map (Sexp.encode e))

theorem Sexp.induct {U : Type} {motive : Sexp U → Prop} (atom : ∀ a, motive (.atom a))
    (str : ∀ s, motive (.str s)) (list : ∀ items, (∀ t ∈ items, motive t) → motive (.list items))
    (t : Sexp U) : motive t := by
  match t with
  | .atom a => exact atom a
  | .str s => exact str s
  | .list items => exact list items fun t ht => Sexp.induct atom str list t
termination_by sizeOf t
decreasing_by
  have hlt := List.sizeOf_lt_of_mem ht
  simp only [Sexp.list.sizeOf_spec]
  omega

section Encodings

variable {U : Type} [CodeUnit U] (e : Encoding U)

/-! ## Reading an encoded text -/

theorem skipSpaces_text (cs : List Char) : skipSpaces (e.text cs) = e.text (skipSpaces cs) := by
  apply Encoding.dropWhile_text (P := fun n => n == 32)
  intro n hn
  simp only [beq_eq_false_iff_ne.mpr (show n ≠ 32 by omega)]
  rfl

theorem atom_codes (n : ℕ) (hn : 128 ≤ n) :
    (!(n == 32 || n == 40 || n == 41)) = !((128 : ℕ) == 32 || (128 : ℕ) == 40 || (128 : ℕ) == 41) := by
  simp only [beq_eq_false_iff_ne.mpr (show n ≠ 32 by omega), beq_eq_false_iff_ne.mpr (show n ≠ 40 by omega),
    beq_eq_false_iff_ne.mpr (show n ≠ 41 by omega)]
  rfl

theorem takeWhile_inAtom_text (cs : List Char) :
    (e.text cs).takeWhile inAtom = e.text (cs.takeWhile inAtom) :=
  Encoding.takeWhile_text (P := fun n => !(n == 32 || n == 40 || n == 41)) atom_codes cs

theorem dropWhile_inAtom_text (cs : List Char) :
    (e.text cs).dropWhile inAtom = e.text (cs.dropWhile inAtom) :=
  Encoding.dropWhile_text (P := fun n => !(n == 32 || n == 40 || n == 41)) atom_codes cs

/-- An encoded character is copied. -/
theorem readStr_append {us s : List U} (h : ∀ u ∈ us, code u ≠ 34 ∧ code u ≠ 92) :
    readStr (us ++ s) = (readStr s).map fun r => (us ++ r.1, r.2) := by
  induction us with
  | nil =>
    simp
  | cons u us ih =>
    have hu := h u List.mem_cons_self
    rw [List.cons_append, readStr_plain hu.1 hu.2, ih fun v hv => h v (List.mem_cons_of_mem _ hv),
      Option.map_map]
    rfl

theorem unescape_encode {c : Char} {u : U} (hu : code u = code c) :
    unescape u = (unescape c).bind fun v => (e.encode v).head? := by
  have hu' : u = ofCode (code c) := by rw [← hu, CodeUnit.ofCode_code]
  rw [unescape, unescape, hu]
  split_ifs with h h h h
  · rw [Option.bind_some, e.encode_ofCode (by omega)]
    rfl
  · rw [Option.bind_some, e.encode_ofCode (by omega)]
    rfl
  · rw [Option.bind_some, e.encode_ofCode (by omega)]
    rfl
  · rw [Option.bind_some, e.encode_of_code rfl (by omega), hu']
    rfl
  · rfl

theorem unescape_ascii {c v : Char} (h : unescape c = some v) : code v < 128 := by
  rw [unescape] at h
  split_ifs at h with h1 h2 h3 h4
  · cases h
    rw [CodeUnit.code_ofCode] <;> omega
  · cases h
    rw [CodeUnit.code_ofCode] <;> omega
  · cases h
    rw [CodeUnit.code_ofCode] <;> omega
  · cases h
    omega

theorem unescape_other {u : U} (h : 128 ≤ code u) : unescape u = none := by
  rw [unescape, if_neg (by omega), if_neg (by omega), if_neg (by omega), if_neg (by omega)]

theorem readStr_text (cs : List Char) :
    readStr (e.text cs) = (readStr cs).map fun r => (e.text r.1, e.text r.2) := by
  fun_induction readStr cs with
  | case1 => simp
  | case2 c s hq =>
    rw [Encoding.text_cons, e.encode_of_code hq (by omega), List.singleton_append,
      readStr_quote (CodeUnit.code_ofCode 34 (by omega))]
    rfl
  | case3 c s hq hb ih =>
    rw [Encoding.text_cons, readStr_append, ih, Option.map_map, Option.map_map]
    · rfl
    · intro u hu
      rcases e.code_of_mem hu with heq | ⟨hu', _⟩ <;> omega
  | case4 c hq hb =>
    rw [Encoding.text_cons, e.encode_of_code (not_not.mp hb) (by omega), Encoding.text_nil,
      List.append_nil, readStr_escape_nil (CodeUnit.code_ofCode 92 (by omega))]
    rfl
  | case5 c hq hb c' s ih =>
    obtain ⟨u, us, hus⟩ := List.exists_cons_of_ne_nil (e.encode_ne_nil c')
    rw [Encoding.text_cons, e.encode_of_code (not_not.mp hb) (by omega), Encoding.text_cons, hus,
      List.singleton_append, List.cons_append, readStr_escape (CodeUnit.code_ofCode 92 (by omega))]
    by_cases hc : code c' < 128
    · have hone := e.encode_of_code rfl hc
      rw [hus] at hone
      obtain ⟨hu, hnil⟩ := List.cons.inj hone
      have hcode : code u = code c' := by rw [hu, CodeUnit.code_ofCode _ hc]
      rw [unescape_encode e hcode, hnil, List.nil_append, ih]
      cases hv : unescape c' with
      | none => rfl
      | some v =>
        rw [Option.bind_some, e.encode_of_code rfl (unescape_ascii hv)]
        simp only [List.head?_cons, Option.bind_some, Option.map_map]
        congr 1
        funext r
        simp only [Function.comp_apply, Encoding.text_cons, e.encode_of_code rfl (unescape_ascii hv)]
        rfl
    · have hu : 128 ≤ code u := by
        rcases e.code_of_mem (hus ▸ List.mem_cons_self) with heq | ⟨hu', _⟩ <;> omega
      have hc' : 128 ≤ code c' := by omega
      rw [unescape_other hu, unescape_other hc']
      rfl

variable {d : ℕ}

mutual
theorem Reads.encode {cs rest : List Char} {depth : ℕ} {t : Sexp Char} (h : Reads d cs depth t rest) :
    Reads d (e.text cs) depth (t.encode e) (e.text rest) := by
  cases h with
  | @atom _ _ c rest hs hc hq =>
    obtain ⟨u, us, hus⟩ := List.exists_cons_of_ne_nil (e.encode_ne_nil c)
    have hskip : skipSpaces (e.text cs) = u :: (us ++ e.text rest) := by
      rw [skipSpaces_text, hs, Encoding.text_cons, hus, List.cons_append]
    have hcons : u :: (us ++ e.text rest) = e.text (c :: rest) := by
      rw [Encoding.text_cons, hus, List.cons_append]
    have hu : code u = code c ∨ 128 ≤ code u ∧ 128 ≤ code c := e.code_of_mem (hus ▸ List.mem_cons_self)
    have hatom := inAtom_iff.mp hc
    have hread := @Reads.atom _ _ d _ depth _ _ hskip (inAtom_iff.mpr (by omega)) (by omega)
    rw [hcons, takeWhile_inAtom_text, dropWhile_inAtom_text] at hread
    rw [Sexp.encode]
    exact hread
  | @str _ _ c rest content _ hs hq hr =>
    have hskip : skipSpaces (e.text cs) = ofCode 34 :: e.text rest := by
      rw [skipSpaces_text, hs, Encoding.text_cons, e.encode_of_code hq (by omega), List.singleton_append]
    rw [Sexp.encode]
    apply Reads.str hskip (CodeUnit.code_ofCode 34 (by omega))
    rw [readStr_text, hr]
    rfl
  | @list _ _ c rest items _ hs hc hd hi =>
    have hskip : skipSpaces (e.text cs) = ofCode 40 :: e.text rest := by
      rw [skipSpaces_text, hs, Encoding.text_cons, e.encode_of_code hc (by omega), List.singleton_append]
    rw [Sexp.encode]
    exact .list hskip (CodeUnit.code_ofCode 40 (by omega)) hd hi.encode

theorem ReadsItems.encode {cs rest : List Char} {depth : ℕ} {ts : List (Sexp Char)}
    (h : ReadsItems d cs depth ts rest) :
    ReadsItems d (e.text cs) depth (ts.map (Sexp.encode e)) (e.text rest) := by
  cases h with
  | @nil _ _ c _ hs hc =>
    have hskip : skipSpaces (e.text cs) = ofCode 41 :: e.text rest := by
      rw [skipSpaces_text, hs, Encoding.text_cons, e.encode_of_code hc (by omega), List.singleton_append]
    exact .nil hskip (CodeUnit.code_ofCode 41 (by omega))
  | @cons _ _ c rest t next ts _ hs hc ht hts =>
    obtain ⟨u, us, hus⟩ := List.exists_cons_of_ne_nil (e.encode_ne_nil c)
    have hcons : e.text (c :: rest) = u :: (us ++ e.text rest) := by
      rw [Encoding.text_cons, hus, List.cons_append]
    have hskip : skipSpaces (e.text cs) = u :: (us ++ e.text rest) := by
      rw [skipSpaces_text, hs, hcons]
    have hu : code u = code c ∨ 128 ≤ code u ∧ 128 ≤ code c := e.code_of_mem (hus ▸ List.mem_cons_self)
    have hread := ht.encode
    rw [hcons] at hread
    exact .cons hskip (by omega) hread hts.encode
end

/-- The first character behind a first unit. -/
theorem exists_of_skipSpaces_text {cs : List Char} {u : U} {us : List U}
    (h : skipSpaces (e.text cs) = u :: us) : ∃ c rest, skipSpaces cs = c :: rest ∧
      u :: us = e.text (c :: rest) ∧ (code u = code c ∨ 128 ≤ code u ∧ 128 ≤ code c) ∧
      (code u < 128 → us = e.text rest) := by
  rw [skipSpaces_text] at h
  cases hs : skipSpaces cs with
  | nil =>
    rw [hs] at h
    cases h
  | cons c rest =>
    rw [hs, Encoding.text_cons] at h
    obtain ⟨v, vs, hvs⟩ := List.exists_cons_of_ne_nil (e.encode_ne_nil c)
    rw [hvs, List.cons_append] at h
    obtain ⟨hu, hus⟩ := List.cons.inj h
    have hcode := e.code_of_mem (c := c) (u := v) (hvs ▸ List.mem_cons_self)
    refine ⟨c, rest, rfl, ?_, hu ▸ hcode, ?_⟩
    · rw [Encoding.text_cons, hvs, List.cons_append, h]
    · intro hlt
      have hone := e.encode_of_code (c := c) rfl (by rw [hu] at hcode; omega)
      rw [hvs] at hone
      rw [← hus, (List.cons.inj hone).2, List.nil_append]

mutual
theorem exists_reads_of_text {s rest : List U} {depth : ℕ} {t : Sexp U} (h : Reads d s depth t rest)
    (cs : List Char) (hcs : s = e.text cs) : ∃ t' rest', Reads d cs depth t' rest' := by
  cases h with
  | atom hs hc hq =>
    obtain ⟨c, rest, hs', _, hcode, _⟩ := exists_of_skipSpaces_text e (hcs ▸ hs)
    have hatom := inAtom_iff.mp hc
    exact ⟨_, _, .atom hs' (inAtom_iff.mpr (by omega)) (by omega)⟩
  | str hs hq hr =>
    obtain ⟨c, rest, hs', _, hcode, hrest⟩ := exists_of_skipSpaces_text e (hcs ▸ hs)
    rw [hrest (by omega), readStr_text] at hr
    obtain ⟨r, hr', _⟩ := Option.map_eq_some_iff.mp hr
    exact ⟨_, _, .str hs' (by omega) hr'⟩
  | list hs hc hd hi =>
    obtain ⟨c, rest, hs', _, hcode, hrest⟩ := exists_of_skipSpaces_text e (hcs ▸ hs)
    obtain ⟨items, after, hi'⟩ := exists_readsItems_of_text hi rest (hrest (by omega))
    exact ⟨_, _, .list hs' (by omega) hd hi'⟩

theorem exists_readsItems_of_text {s rest : List U} {depth : ℕ} {ts : List (Sexp U)}
    (h : ReadsItems d s depth ts rest) (cs : List Char) (hcs : s = e.text cs) :
    ∃ ts' rest', ReadsItems d cs depth ts' rest' := by
  cases h with
  | nil hs hc =>
    obtain ⟨c, rest, hs', _, hcode, _⟩ := exists_of_skipSpaces_text e (hcs ▸ hs)
    exact ⟨_, _, .nil hs' (by omega)⟩
  | cons hs hc ht hts =>
    obtain ⟨c, rest, hs', hcons, hcode, _⟩ := exists_of_skipSpaces_text e (hcs ▸ hs)
    obtain ⟨t', next, ht'⟩ := exists_reads_of_text ht (c :: rest) hcons
    -- the unit text goes on where the characters do
    obtain ⟨_, hnext⟩ := ht.unique (hcons ▸ ht'.encode e)
    obtain ⟨ts', after, hts'⟩ := exists_readsItems_of_text hts next hnext
    exact ⟨_, _, .cons hs' (by omega) ht' hts'⟩
end

end Encodings

/-! ## Writing -/

section Writing

variable {U : Type} [CodeUnit U]

/-- What is written for a unit of a quoted string. -/
def escaped (c : U) : List U := (escapeOf c).getD [c]

theorem quoteFrom_eq (out run s : List U) :
    quoteFrom out run s = out ++ run ++ s.flatMap escaped ++ [ofCode 34] := by
  induction s generalizing out run with
  | nil => simp [quoteFrom]
  | cons c s ih =>
    rw [quoteFrom, List.flatMap_cons, escaped]
    cases escapeOf c with
    | none =>
      simp only [ih, Option.getD_none]
      simp
    | some esc =>
      simp only [ih, Option.getD_some]
      simp

theorem ofCode_eq {c : U} {n : ℕ} (h : code c = n) : ofCode n = c := by
  rw [← h, CodeUnit.ofCode_code]

/-- Both sides escape alike. -/
theorem escaped_eq (c : U) : escaped c = if code c = 34 ∨ code c = 92 then [ofCode 92, c]
    else if code c = 10 then [ofCode 92, ofCode 110]
    else if code c = 9 then [ofCode 92, ofCode 116]
    else if code c = 13 then [ofCode 92, ofCode 114]
    else [c] := by
  rw [escaped, escapeOf]
  by_cases hquote : code c = 34
  · rw [if_pos hquote, if_pos (.inl hquote), Option.getD_some, ofCode_eq hquote]
  · by_cases hback : code c = 92
    · rw [if_neg hquote, if_pos hback, if_pos (.inr hback), Option.getD_some, ofCode_eq hback]
    · have hneither : ¬ (code c = 34 ∨ code c = 92) := by omega
      rw [if_neg hquote, if_neg hback, if_neg hneither]
      split_ifs <;> rfl

theorem quote_eq (s : List U) : quote s = [ofCode 34] ++ s.flatMap escaped ++ [ofCode 34] := by
  rw [quote, ← funext escaped_eq]

theorem quoteInto_eq_quote (s : List U) : quoteInto [] s = quote s := by
  rw [quoteInto, quoteFrom_eq, quote_eq]
  simp

theorem display_eq_write (t : Sexp U) : display t = write quote t := by
  rw [display, funext quoteInto_eq_quote]

/-- A unit is one unit that nothing escapes, or a backslash and what stands for it. -/
theorem escaped_cases (c : U) : (escaped c = [c] ∧ code c ≠ 34 ∧ code c ≠ 92) ∨
    ∃ e, escaped c = [ofCode 92, e] ∧ unescape e = some c := by
  rw [escaped_eq]
  split_ifs with hself hn ht hr
  · refine .inr ⟨c, rfl, ?_⟩
    rw [unescape, if_neg (by omega), if_neg (by omega), if_neg (by omega), if_pos hself]
  · refine .inr ⟨ofCode 110, rfl, ?_⟩
    rw [unescape, CodeUnit.code_ofCode 110 (by omega), if_pos rfl, ofCode_eq hn]
  · refine .inr ⟨ofCode 116, rfl, ?_⟩
    rw [unescape, CodeUnit.code_ofCode 116 (by omega), if_neg (by omega), if_pos rfl, ofCode_eq ht]
  · refine .inr ⟨ofCode 114, rfl, ?_⟩
    rw [unescape, CodeUnit.code_ofCode 114 (by omega), if_neg (by omega), if_neg (by omega),
      if_pos rfl, ofCode_eq hr]
  · exact .inl ⟨rfl, by omega, by omega⟩

theorem readStr_escaped (s rest : List U) :
    readStr (s.flatMap escaped ++ ofCode 34 :: rest) = some (s, rest) := by
  induction s with
  | nil => exact readStr_quote (CodeUnit.code_ofCode 34 (by omega))
  | cons c s ih =>
    rw [List.flatMap_cons, List.append_assoc]
    rcases escaped_cases c with ⟨hc, hquote, hback⟩ | ⟨e, hc, he⟩
    · rw [hc, List.singleton_append, readStr_plain hquote hback, ih]
      rfl
    · rw [hc, List.cons_append, List.singleton_append,
        readStr_escape (CodeUnit.code_ofCode 92 (by omega)), he, ih]
      rfl

/-! ## Reading what was written -/

/-- Non-empty, free of spaces, parentheses and line breaks, and of a leading quote. -/
def PlainAtom (a : List U) : Prop :=
  a ≠ [] ∧ (∀ c ∈ a, code c ≠ 32 ∧ code c ≠ 40 ∧ code c ≠ 41 ∧ code c ≠ 10 ∧ code c ≠ 13) ∧
    ∀ c ∈ a.head?, code c ≠ 34

inductive Sexp.Atoms (P : List U → Prop) : Sexp U → Prop
  | atom {a} (h : P a) : Atoms P (.atom a)
  | str {s} : Atoms P (.str s)
  | list {items} (h : ∀ t ∈ items, Atoms P t) : Atoms P (.list items)

/-- The lists of a tree are not nested too deeply. -/
inductive Sexp.Within (maxDepth : ℕ) : ℕ → Sexp U → Prop
  | atom {depth a} : Within maxDepth depth (.atom a)
  | str {depth s} : Within maxDepth depth (.str s)
  | list {depth items} (hd : depth < maxDepth) (hi : ∀ t ∈ items, Within maxDepth (depth + 1) t) :
    Within maxDepth depth (.list items)

variable {d depth : ℕ} {s rest : List U}

mutual
theorem Reads.within {s rest : List U} {depth : ℕ} {t : Sexp U} (h : Reads d s depth t rest) :
    t.Within d depth := by
  cases h with
  | atom => exact .atom
  | str => exact .str
  | list _ _ hd hi => exact .list hd hi.within

theorem ReadsItems.within {s rest : List U} {depth : ℕ} {ts : List (Sexp U)}
    (h : ReadsItems d s depth ts rest) : ∀ t ∈ ts, t.Within d (depth + 1) := by
  cases h with
  | nil =>
    intro t ht
    cases ht
  | cons _ _ ht hts =>
    have hhead := ht.within
    have htail := hts.within
    intro t' hmem
    rcases List.mem_cons.mp hmem with heq | hmem
    · rw [heq]
      exact hhead
    · exact htail t' hmem
end

/-- A text that ends an atom. -/
def Stops (rest : List U) : Prop := ∀ c ∈ rest.head?, inAtom c = false

theorem skipSpaces_cons_space : skipSpaces (ofCode 32 :: s) = skipSpaces s := by
  rw [skipSpaces, List.dropWhile_cons, if_pos]
  · rfl
  · rw [CodeUnit.code_ofCode 32 (by omega)]
    rfl

theorem ReadsItems.cons_space {ts : List (Sexp U)} (h : ReadsItems d s depth ts rest) :
    ReadsItems d (ofCode 32 :: s) depth ts rest := by
  cases h with
  | nil hs hc => exact .nil (skipSpaces_cons_space.trans hs) hc
  | cons hs hc ht hts => exact .cons (skipSpaces_cons_space.trans hs) hc ht hts

theorem reads_atom {a : List U} (ha : PlainAtom a) (hrest : Stops rest) :
    Reads d (a ++ rest) depth (.atom a) rest := by
  obtain ⟨hne, hunits, hhead⟩ := ha
  have hin : ∀ c ∈ a, inAtom c = true := by
    intro c hc
    have hcode := hunits c hc
    exact inAtom_iff.mpr ⟨hcode.1, hcode.2.1, hcode.2.2.1⟩
  obtain ⟨c, a, rfl⟩ := List.exists_cons_of_ne_nil hne
  have hc := hin c List.mem_cons_self
  have hskip : skipSpaces (c :: (a ++ rest)) = c :: (a ++ rest) := skipSpaces_of_ne (inAtom_iff.mp hc).1
  have hread := @Reads.atom _ _ d _ depth _ _ hskip hc (hhead c rfl)
  have htake : (c :: (a ++ rest)).takeWhile inAtom = c :: a := by
    rw [← List.cons_append, List.takeWhile_append_of_pos hin]
    cases rest with
    | nil => simp
    | cons r rest => rw [List.takeWhile_cons, if_neg (by simp [hrest r rfl]), List.append_nil]
  have hdrop : (c :: (a ++ rest)).dropWhile inAtom = rest := by
    rw [← List.cons_append, List.dropWhile_append_of_pos hin]
    cases rest with
    | nil => rfl
    | cons r rest => rw [List.dropWhile_cons, if_neg (by simp [hrest r rfl])]
  rw [htake, hdrop] at hread
  exact hread

theorem reads_quote : Reads d (quote s ++ rest) depth (.str s) rest := by
  have hshape : quote s ++ rest = ofCode 34 :: (s.flatMap escaped ++ ofCode 34 :: rest) := by
    rw [quote_eq]
    simp
  have hcode : code (ofCode 34 : U) = 34 := CodeUnit.code_ofCode 34 (by omega)
  rw [hshape]
  exact .str (skipSpaces_of_ne (by omega)) hcode (readStr_escaped s rest)

/-- What is written starts an item. -/
theorem write_head {t : Sexp U} (h : t.Atoms PlainAtom) :
    ∃ c s, write quote t = c :: s ∧ code c ≠ 32 ∧ code c ≠ 41 := by
  cases h with
  | atom ha =>
    obtain ⟨c, a, rfl⟩ := List.exists_cons_of_ne_nil ha.1
    have hc := ha.2.1 c List.mem_cons_self
    rw [write]
    exact ⟨c, a, rfl, hc.1, hc.2.2.1⟩
  | str =>
    rw [write, quote_eq]
    refine ⟨ofCode 34, _, rfl, ?_, ?_⟩ <;> rw [CodeUnit.code_ofCode 34 (by omega)] <;> omega
  | list _ =>
    rw [write]
    refine ⟨ofCode 40, _, rfl, ?_, ?_⟩ <;> rw [CodeUnit.code_ofCode 40 (by omega)] <;> omega

theorem stops_close : Stops (ofCode 41 :: rest) := by
  intro c hc
  cases hc
  simp [inAtom, CodeUnit.code_ofCode]

theorem stops_space : Stops (ofCode 32 :: rest) := by
  intro c hc
  cases hc
  simp [inAtom, CodeUnit.code_ofCode]

/-- Items that can be written can be written one after the other. -/
theorem readsItems_write (rest : List U) {items : List (Sexp U)} (hatoms : ∀ t ∈ items, t.Atoms PlainAtom)
    (hitems : ∀ t ∈ items, ∀ rest, Stops rest →
      Reads d (write quote t ++ rest) (depth + 1) t rest) :
    ReadsItems d ([ofCode 32].intercalate (items.map (write quote)) ++ ofCode 41 :: rest) depth items
      rest := by
  induction items with
  | nil =>
    have hcode : code (ofCode 41 : U) = 41 := CodeUnit.code_ofCode 41 (by omega)
    exact .nil (skipSpaces_of_ne (by omega)) hcode
  | cons t items ih =>
    have ht := hitems t List.mem_cons_self
    obtain ⟨c, s, hwrite, hspace, hclose⟩ := write_head (hatoms t List.mem_cons_self)
    have htail := ih (fun u hu => hatoms u (List.mem_cons_of_mem _ hu))
      fun u hu => hitems u (List.mem_cons_of_mem _ hu)
    cases items with
    | nil =>
      have hread := ht (ofCode 41 :: rest) stops_close
      rw [hwrite, List.cons_append] at hread
      have hshape : [ofCode 32].intercalate ([t].map (write quote)) ++ ofCode 41 :: rest =
          c :: (s ++ ofCode 41 :: rest) := by
        simp [List.intercalate, hwrite]
      rw [hshape]
      exact .cons (skipSpaces_of_ne hspace) hclose hread htail
    | cons u items =>
      have hread := ht _ (@stops_space _ _
        ([ofCode 32].intercalate ((u :: items).map (write quote)) ++ ofCode 41 :: rest))
      rw [hwrite, List.cons_append] at hread
      have hshape : [ofCode 32].intercalate ((t :: u :: items).map (write quote)) ++ ofCode 41 :: rest =
          c :: (s ++ ofCode 32 :: ([ofCode 32].intercalate ((u :: items).map (write quote)) ++
            ofCode 41 :: rest)) := by
        simp [List.intercalate, hwrite]
      rw [hshape]
      exact .cons (skipSpaces_of_ne hspace) hclose hread htail.cons_space

/-- What is written reads back, before anything that ends an atom. -/
theorem reads_write {t : Sexp U} (hdepth : t.Within d depth) (hatoms : t.Atoms PlainAtom)
    {rest : List U} (hrest : Stops rest) : Reads d (write quote t ++ rest) depth t rest := by
  induction hdepth generalizing rest with
  | atom =>
    cases hatoms with
    | atom ha =>
      rw [write]
      exact reads_atom ha hrest
  | str =>
    rw [write]
    exact reads_quote
  | @list depth items hd hi ih =>
    cases hatoms with
    | list hatoms =>
      have hread := readsItems_write rest hatoms fun t ht rest hrest =>
        ih t ht (hatoms t ht) hrest
      have hcode : code (ofCode 40 : U) = 40 := CodeUnit.code_ofCode 40 (by omega)
      have hshape : write quote (.list items) ++ rest =
          ofCode 40 :: ([ofCode 32].intercalate (items.map (write quote)) ++ ofCode 41 :: rest) := by
        rw [write]
        simp
      rw [hshape]
      exact .list (skipSpaces_of_ne (by omega)) hcode hd hread

end Writing

/-! ## One text for both sides -/

section Lines

variable {U : Type} [CodeUnit U] (e : Encoding U)

theorem escaped_encode (c : Char) : (e.encode c).flatMap escaped = e.text (escaped c) := by
  by_cases hc : code c < 128
  · have hcode : code (ofCode (code c) : U) = code c := CodeUnit.code_ofCode _ hc
    have hself : e.encode c = [ofCode (code c)] := e.encode_of_code rfl hc
    rw [hself, List.flatMap_singleton, escaped_eq, escaped_eq, hcode]
    split_ifs <;>
      simp only [Encoding.text_cons, Encoding.text_nil, hself,
        e.encode_ofCode (show 92 < 128 by omega), e.encode_ofCode (show 110 < 128 by omega),
        e.encode_ofCode (show 116 < 128 by omega), e.encode_ofCode (show 114 < 128 by omega)] <;> rfl
  · have hplain : ∀ {V : Type} [CodeUnit V] (u : V), 128 ≤ code u → escaped u = [u] := by
      intro V _ u hu
      rw [escaped_eq, if_neg (by omega), if_neg (by omega), if_neg (by omega), if_neg (by omega)]
    rw [hplain c (by omega), Encoding.text_cons, Encoding.text_nil, List.append_nil]
    calc (e.encode c).flatMap escaped = (e.encode c).flatMap fun u => [u] := by
          apply List.flatMap_congr
          intro u hu
          apply hplain
          rcases e.code_of_mem hu with heq | ⟨hu', _⟩ <;> omega
      _ = e.encode c := List.flatMap_pure_eq_map _ _ |>.trans (List.map_id _)

theorem quote_text (cs : List Char) : quote (e.text cs) = e.text (quote cs) := by
  have hbody : (e.text cs).flatMap escaped = e.text (cs.flatMap escaped) := by
    induction cs with
    | nil => rfl
    | cons c cs ih =>
      rw [Encoding.text_cons, List.flatMap_append, ih, escaped_encode, List.flatMap_cons,
        Encoding.text_append]
  rw [quote_eq, quote_eq, hbody, Encoding.text_append, Encoding.text_append, Encoding.text_cons,
    Encoding.text_nil, e.encode_ofCode (show 34 < 128 by omega)]
  rfl

theorem intercalate_text (lines : List (List Char)) :
    [ofCode 32].intercalate (lines.map e.text) = e.text ([ofCode 32].intercalate lines) := by
  induction lines with
  | nil => rfl
  | cons l lines ih =>
    cases lines with
    | nil => simp [List.intercalate]
    | cons m lines =>
      have hspace : e.encode (ofCode 32) = [ofCode 32] := e.encode_ofCode (by omega)
      simp only [List.map_cons] at ih ⊢
      simp only [List.intercalate, List.intersperse_cons₂, List.flatten_cons] at ih ⊢
      rw [ih]
      simp only [Encoding.text_append, Encoding.text_cons, Encoding.text_nil, hspace, List.append_nil]

/-- Both sides write the same text. -/
theorem write_encode (t : Sexp Char) : write quote (t.encode e) = e.text (write quote t) := by
  induction t using Sexp.induct with
  | atom a => rw [Sexp.encode, write, write]
  | str s => rw [Sexp.encode, write, write, quote_text]
  | list items ih =>
    have hitems : (items.map (Sexp.encode e)).map (write quote) =
        (items.map (write quote)).map e.text := by
      rw [List.map_map, List.map_map]
      exact List.map_congr_left ih
    rw [Sexp.encode, write, write, hitems, intercalate_text]
    simp only [Encoding.text_append, Encoding.text_cons, Encoding.text_nil, List.append_nil,
      e.encode_ofCode (show 40 < 128 by omega), e.encode_ofCode (show 41 < 128 by omega)]

theorem mem_of_mem_intercalate {α : Type} {sep : List α} {lines : List (List α)} {a : α}
    (h : a ∈ sep.intercalate lines) : a ∈ sep ∨ ∃ l ∈ lines, a ∈ l := by
  induction lines with
  | nil => cases h
  | cons l lines ih =>
    cases lines with
    | nil =>
      simp only [List.intercalate, List.intersperse_single, List.flatten_singleton] at h
      exact .inr ⟨l, List.mem_cons_self, h⟩
    | cons m lines =>
      simp only [List.intercalate, List.intersperse_cons₂, List.flatten_cons, List.mem_append] at h
      rcases h with h | h | h
      · exact .inr ⟨l, List.mem_cons_self, h⟩
      · exact .inl h
      · rcases ih h with h | ⟨l', hl', h⟩
        · exact .inl h
        · exact .inr ⟨l', List.mem_cons_of_mem _ hl', h⟩

/-- No line break is written. -/
theorem not_mem_escaped {n : ℕ} (hn : n = 10 ∨ n = 13) (c : U) : ∀ u ∈ escaped c, code u ≠ n := by
  intro u hu
  rw [escaped_eq] at hu
  split_ifs at hu with h h h h
  · rcases List.mem_pair.mp hu with rfl | rfl
    · rw [CodeUnit.code_ofCode 92 (by omega)]
      omega
    · omega
  · rcases List.mem_pair.mp hu with rfl | rfl <;> rw [CodeUnit.code_ofCode _ (by omega)] <;> omega
  · rcases List.mem_pair.mp hu with rfl | rfl <;> rw [CodeUnit.code_ofCode _ (by omega)] <;> omega
  · rcases List.mem_pair.mp hu with rfl | rfl <;> rw [CodeUnit.code_ofCode _ (by omega)] <;> omega
  · rw [List.mem_singleton.mp hu]
    omega

theorem write_one_line {t : Sexp U} (h : t.Atoms PlainAtom) {n : ℕ} (hn : n = 10 ∨ n = 13) :
    ∀ u ∈ write quote t, code u ≠ n := by
  induction h with
  | atom ha =>
    rw [write]
    intro u hu
    have hcode := ha.2.1 u hu
    omega
  | @str s =>
    rw [write, quote_eq]
    intro u hu
    simp only [List.mem_append, List.mem_singleton, List.mem_flatMap] at hu
    rcases hu with (rfl | ⟨c, _, hu⟩) | rfl
    · rw [CodeUnit.code_ofCode 34 (by omega)]
      omega
    · exact not_mem_escaped hn c u hu
    · rw [CodeUnit.code_ofCode 34 (by omega)]
      omega
  | @list items _ ih =>
    rw [write]
    intro u hu
    simp only [List.mem_append, List.mem_singleton] at hu
    rcases hu with (rfl | hu) | rfl
    · rw [CodeUnit.code_ofCode 40 (by omega)]
      omega
    · rcases mem_of_mem_intercalate hu with hu | ⟨l, hl, hu⟩
      · rw [List.mem_singleton.mp hu, CodeUnit.code_ofCode 32 (by omega)]
        omega
      · obtain ⟨t, ht, rfl⟩ := List.mem_map.mp hl
        exact ih t ht u hu
    · rw [CodeUnit.code_ofCode 41 (by omega)]
      omega

end Lines
end ScalaRs.Wire
