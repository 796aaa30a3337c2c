import ScalaRs.EncodedNames
import ScalaRs.WhileLoops

/-! # Nesting separators

A dollar that belongs to no symbol separates a class from the class around it. The
separators are replaced from the right, and what is left of a separator is read
again from its start. -/
namespace ScalaRs.NameTransformer

open GreedyTokens CodeUnits WhileLoops

theorem sub_symbol_lt {name : List Char} {offset n : ℕ} {c : Char} (h : offset < name.length)
    (hs : symbolAt (name.drop offset) = some (c, n)) :
    name.length - (offset + n) < name.length - offset := by
  have hpos : 0 < n := symbols.length_pos hs
  omega

def lastNestingLoop (name : List Char) (offset : ℕ) (last : Option ℕ) : Option ℕ :=
  if h : offset < name.length then
    match hs : symbolAt (name.drop offset) with
    | some (_, n) => lastNestingLoop name (offset + n) last
    | none => lastNestingLoop name (offset + 1) (if name[offset] = '$' then some offset else last)
  else last
termination_by name.length - offset
decreasing_by
  · exact sub_symbol_lt h hs
  · omega

def lastNestingSeparator (name : List Char) : Option ℕ := lastNestingLoop name 0 none

/-- One turn of the loop, at the name so far and the offset up to which it is read. -/
def nestedBody : List Char × ℕ → Option (Step (List Char) (List Char × ℕ))
  | (out, stop) => match lastNestingSeparator (out.take stop) with
    | some i => some (.next (out.set i '.', i))
    | none => some (.done out)

def nestedToDotted (fuel : ℕ) (name : List Char) : Option (List Char) :=
  run nestedBody fuel (name, name.length)

/-! ## The separators of any string -/

def dot : Piece Char Char → List Char
  | .token _ text => text
  | .plain c => if c = '$' then ['.'] else [c]

def dotted (ps : List (Piece Char Char)) : List Char := ps.flatMap dot

theorem dot_of_not_bare {p : Piece Char Char} (h : p ≠ .plain '$') : dot p = p.text := by
  cases p with
  | token => rfl
  | plain c => exact if_neg fun hc => h (congrArg Piece.plain hc)

theorem dotted_of_not_bare {ps : List (Piece Char Char)} (h : ∀ p ∈ ps, p ≠ .plain '$') :
    dotted ps = texts ps := by
  apply List.flatMap_congr
  intro p hp
  exact dot_of_not_bare (h p hp)

/-- What a search that starts at `offset` with `last` finds in `ps`: the last bare
dollar if there is one. -/
def LastBare (offset : ℕ) (last : Option ℕ) (ps : List (Piece Char Char)) (r : Option ℕ) : Prop :=
  r = last ∧ (∀ p ∈ ps, p ≠ .plain '$') ∨
    ∃ before after, ps = before ++ .plain '$' :: after ∧ (∀ p ∈ after, p ≠ .plain '$') ∧
      r = some (offset + (texts before).length)

theorem LastBare.step {offset : ℕ} {last last' : Option ℕ} {p : Piece Char Char}
    {ps : List (Piece Char Char)} {r : Option ℕ}
    (h : LastBare (offset + p.text.length) last' ps r)
    (hnone : (∀ q ∈ ps, q ≠ .plain '$') → LastBare offset last (p :: ps) last') :
    LastBare offset last (p :: ps) r := by
  rcases h with ⟨rfl, hps⟩ | ⟨before, after, rfl, hafter, rfl⟩
  · exact hnone hps
  · refine .inr ⟨p :: before, after, rfl, hafter, ?_⟩
    rw [texts_cons, List.length_append, Nat.add_assoc]

theorem LastBare.of_not_bare {offset : ℕ} {last : Option ℕ} {p : Piece Char Char}
    {ps : List (Piece Char Char)} {r : Option ℕ} (hp : p ≠ .plain '$')
    (h : LastBare (offset + p.text.length) last ps r) : LastBare offset last (p :: ps) r := by
  apply h.step
  intro hps
  refine .inl ⟨rfl, ?_⟩
  intro q hq
  rcases List.mem_cons.mp hq with rfl | hq
  · exact hp
  · exact hps q hq

theorem LastBare.of_bare {offset : ℕ} {last : Option ℕ} {ps : List (Piece Char Char)}
    {r : Option ℕ} (h : LastBare (offset + 1) (some offset) ps r) :
    LastBare offset last (.plain '$' :: ps) r := by
  apply LastBare.step (p := .plain '$') h
  intro hps
  exact .inr ⟨[], ps, rfl, hps, rfl⟩

theorem lastBare_lastNestingLoop (rest before : List Char) (last : Option ℕ) :
    LastBare before.length last (symbols.pieces rest)
      (lastNestingLoop (before ++ rest) before.length last) := by
  induction rest using symbols.pieces_induction generalizing before last with
  | nil =>
    rw [lastNestingLoop, List.append_nil, dif_neg (Nat.lt_irrefl _), symbols.pieces_nil]
    exact .inl ⟨rfl, nofun⟩
  | token s c n h ih =>
    have hlt : before.length < (before ++ s).length := by
      have hpos := symbols.length_pos h
      have hle := symbols.length_le h
      rw [List.length_append]
      omega
    have hat : symbolAt ((before ++ s).drop before.length) = some (c, n) := by
      rw [List.drop_left]
      exact h
    have hlen : (s.take n).length = n := List.length_take_of_le (symbols.length_le h)
    have hstep : lastNestingLoop (before ++ s) before.length last =
        lastNestingLoop (before ++ s) (before.length + n) last := by
      rw [lastNestingLoop, dif_pos hlt]
      split
      · next hs =>
        rw [hat] at hs
        cases hs
        rfl
      · next hs =>
        rw [hat] at hs
        cases hs
    have hrest := ih (before ++ s.take n) last
    rw [List.append_assoc, List.take_append_drop, List.length_append, hlen] at hrest
    rw [hstep, symbols.pieces_of_read h]
    apply LastBare.of_not_bare (p := .token c (s.take n)) nofun
    rw [Piece.text, hlen]
    exact hrest
  | plain c s h ih =>
    have hlt : before.length < (before ++ c :: s).length := by
      rw [List.length_append, List.length_cons]
      omega
    have hat : symbolAt ((before ++ c :: s).drop before.length) = none := by
      rw [List.drop_left]
      exact h
    have hget : (before ++ c :: s)[before.length] = c := by simp
    have hstep : lastNestingLoop (before ++ c :: s) before.length last =
        lastNestingLoop (before ++ c :: s) (before.length + 1)
          (if c = '$' then some before.length else last) := by
      rw [lastNestingLoop, dif_pos hlt]
      split
      · next hs =>
        rw [hat] at hs
        cases hs
      · rw [hget]
    have hrest := ih (before ++ [c]) (if c = '$' then some before.length else last)
    rw [List.append_assoc, List.singleton_append, List.length_append, List.length_singleton]
      at hrest
    rw [hstep, symbols.pieces_of_not_read h]
    by_cases hc : c = '$'
    · subst hc
      rw [if_pos rfl] at hrest ⊢
      exact .of_bare hrest
    · rw [if_neg hc] at hrest ⊢
      exact .of_not_bare (fun hp => hc (Piece.plain.inj hp)) hrest

theorem lastBare_lastNestingSeparator (name : List Char) :
    LastBare 0 none (symbols.pieces name) (lastNestingSeparator name) :=
  lastBare_lastNestingLoop name [] none

/-- The loop turns the bare dollars before `stop` into dots. -/
theorem run_nestedBody {fuel stop : ℕ} {out : List Char} (hstop : stop ≤ out.length)
    (hfuel : stop < fuel) : run nestedBody fuel (out, stop) =
      some (dotted (symbols.pieces (out.take stop)) ++ out.drop stop) := by
  induction fuel generalizing out stop with
  | zero => omega
  | succ fuel ih =>
    rcases lastBare_lastNestingSeparator (out.take stop) with ⟨hi, hps⟩ |
        ⟨before, after, hps, hafter, hi⟩
    · have hbody : nestedBody (out, stop) = some (.done out) := by
        simp only [nestedBody, hi]
      rw [run_done hbody, dotted_of_not_bare hps, symbols.texts_pieces, List.take_append_drop]
    · rw [Nat.zero_add] at hi
      have hbody : nestedBody (out, stop) =
          some (.next (out.set (texts before).length '.', (texts before).length)) := by
        simp only [nestedBody, hi]
      have htake : out.take stop = texts before ++ '$' :: texts after := by
        rw [← symbols.texts_pieces (out.take stop), hps, texts_append, texts_cons]
        rfl
      have hout : out = texts before ++ '$' :: (texts after ++ out.drop stop) := by
        calc out = out.take stop ++ out.drop stop := (List.take_append_drop _ _).symm
          _ = _ := by rw [htake, List.append_assoc, List.cons_append]
      have hlt : (texts before).length < stop := by
        have hlen := congrArg List.length htake
        rw [List.length_take_of_le hstop, List.length_append, List.length_cons] at hlen
        omega
      have hset : out.set (texts before).length '.' =
          texts before ++ '.' :: (texts after ++ out.drop stop) := by
        generalize out.drop stop = rest at hout
        rw [hout]
        simp
      have hcut : symbols.pieces (texts before) = before := symbols.pieces_cut hps
      have hdots : dotted (before ++ .plain '$' :: after) =
          dotted before ++ '.' :: texts after := by
        rw [← dotted_of_not_bare hafter]
        simp [dotted, dot]
      rw [run_next hbody, ih _ (by omega), hset, List.take_left, List.drop_left, hcut, hps, hdots,
        List.append_assoc, List.cons_append]
      rw [List.length_set]
      omega

/-- On any string the loop ends, and turns exactly the bare dollars into dots. -/
theorem nestedToDotted_eq {fuel : ℕ} {name : List Char} (h : name.length < fuel) :
    nestedToDotted fuel name = some (dotted (symbols.pieces name)) := by
  rw [nestedToDotted, run_nestedBody (Nat.le_refl _) h, List.take_length, List.drop_length,
    List.append_nil]

/-! ## Joined names -/

/-- The name starts with what would make a symbol of a dollar in front of it. -/
def startsLikeSymbol (name : List Char) : Bool :=
  OPERATORS.any (fun op => op.2.tail.isPrefixOf name) || match name with
    | 'u' :: a :: b :: c :: d :: _ =>
      isLeadingHex a && (hexValue b).isSome && (hexValue c).isSome && (hexValue d).isSome
    | _ => false

theorem encodeChar_shape (c : Char) : encodeChar c = [c] ∨ ∃ w, encodeChar c = '$' :: w := by
  unfold encodeChar
  split
  · next d code hfind =>
    obtain ⟨y, z, w, hw, -⟩ := operator_shape (List.mem_of_find?_eq_some hfind)
    exact .inr ⟨_, hw⟩
  · split
    · exact .inl rfl
    · obtain ⟨u, us, hus⟩ := List.exists_cons_of_ne_nil (utf16.encode_ne_nil c)
      rw [hus, List.flatMap_cons]
      exact .inr ⟨_, rfl⟩

/-- The end of a name, where the text ends or a separator follows. -/
def Closes (s : List Char) : Prop := ∀ c t, s = c :: t → c = '$'

/-- A word without dollars at the front of an encoded name is one of the name. -/
theorem prefix_of_flatMap {f : Char → List Char} (hf : ∀ c, f c = [c] ∨ ∃ w, f c = '$' :: w)
    {name w s : List Char} (hw : '$' ∉ w) (hs : Closes s) (h : w <+: name.flatMap f ++ s) :
    w <+: name := by
  induction w generalizing name with
  | nil => exact List.nil_prefix
  | cons x w ih =>
    have hx : x ≠ '$' := fun hx => hw (hx ▸ List.mem_cons_self)
    cases name with
    | nil =>
      obtain ⟨t, ht⟩ := h
      exact absurd (hs x (w ++ t) ht.symm) hx
    | cons c name =>
      rw [List.flatMap_cons, List.append_assoc] at h
      rcases hf c with hc | ⟨v, hc⟩
      · rw [hc, List.singleton_append, List.cons_prefix_cons] at h
        obtain ⟨rfl, h⟩ := h
        rw [List.cons_prefix_cons]
        exact ⟨rfl, ih (fun hmem => hw (List.mem_cons_of_mem _ hmem)) h⟩
      · rw [hc, List.cons_append, List.cons_prefix_cons] at h
        exact absurd h.1 hx

theorem prefix_of_encodeMethodName {name w s : List Char} (hname : '$' ∉ name) (hw : '$' ∉ w)
    (hs : Closes s) (h : w <+: encodeMethodName name ++ s) : w <+: name := by
  rcases encodeMethodName_eq hname with heq | heq
  · rw [heq] at h
    exact prefix_of_flatMap encodeChar_shape hw hs h
  · rw [heq] at h
    exact prefix_of_flatMap (fun c => .inl rfl) hw hs h

theorem operator_tail_dollar {op : Char × List Char} (h : op ∈ OPERATORS) : '$' ∉ op.2.tail := by
  have hall : ∀ op ∈ OPERATORS, '$' ∉ op.2.tail := by decide
  exact hall op h

theorem fromStrRadix16_eq_some {a b c d : Char} {n : ℕ}
    (h : fromStrRadix16 [a, b, c, d] = some n) :
    (hexValue a).isSome ∧ (hexValue b).isSome ∧ (hexValue c).isSome ∧ (hexValue d).isSome := by
  cases ha : hexValue a <;> cases hb : hexValue b <;> cases hc : hexValue c <;>
    cases hd : hexValue d <;> simp_all [fromStrRadix16]

/-- The dollar in front of an encoded name is a bare one. -/
theorem not_symbolAt_encodeMethodName {name s : List Char} (hname : '$' ∉ name)
    (hstart : startsLikeSymbol name = false) (hs : Closes s) :
    symbolAt ('$' :: (encodeMethodName name ++ s)) = none := by
  cases h : symbolAt ('$' :: (encodeMethodName name ++ s)) with
  | none => rfl
  | some x =>
    obtain ⟨hoperator, hescape⟩ := Bool.or_eq_false_iff.mp hstart
    have hword : ∀ {n : ℕ}, escapedUnit ('$' :: (encodeMethodName name ++ s)) = some n → False := by
      intro n hn
      obtain ⟨a, b, c, d, t, heq, ha, hdigits⟩ := escapedUnit_eq_some hn
      obtain ⟨ha', hb, hc, hd⟩ := fromStrRadix16_eq_some hdigits
      have hdollar : '$' ∉ ['u', a, b, c, d] := by
        have hno : ∀ x, (hexValue x).isSome → '$' ≠ x := by
          intro x hx hxd
          rw [← hxd] at hx
          exact absurd hx (by decide)
        simp only [List.mem_cons, List.not_mem_nil, or_false, not_or]
        exact ⟨by decide, hno a ha', hno b hb, hno c hc, hno d hd⟩
      have hpre : ['u', a, b, c, d] <+: name := by
        apply prefix_of_encodeMethodName hname hdollar hs
        exact ⟨t, (List.cons.inj heq).2.symm⟩
      obtain ⟨u, rfl⟩ := hpre
      simp [ha, hb, hc, hd] at hescape
    obtain ⟨c, k⟩ := x
    rcases symbolAt_eq_some_iff.mp h with h | ⟨op, hop, hpre, -, -⟩
    · cases h with
      | single hfirst _ => exact (hword hfirst).elim
      | pair hfirst _ _ _ _ => exact (hword hfirst).elim
    · obtain ⟨y, z, w, hw, -⟩ := operator_shape hop
      have htail : op.2.tail <+: encodeMethodName name ++ s := by
        rw [hw, List.cons_prefix_cons] at hpre
        rw [hw]
        exact hpre.2
      have hpre' := prefix_of_encodeMethodName hname (operator_tail_dollar hop) hs htail
      have hno := List.any_eq_false.mp hoperator op hop
      exact absurd (List.isPrefixOf_iff_prefix.mpr hpre') hno

def join (separator : Char) (names : List (List Char)) : List Char :=
  [separator].intercalate (names.map encodeMethodName)

@[simp]
theorem join_singleton (separator : Char) (name : List Char) :
    join separator [name] = encodeMethodName name := by simp [join]

@[simp]
theorem join_cons_cons (separator : Char) (a b : List Char) (names : List (List Char)) :
    join separator (a :: b :: names) =
      encodeMethodName a ++ separator :: join separator (b :: names) := by
  simp [join, List.intercalate]

theorem dotted_pieces_join {names : List (List Char)}
    (h : ∀ name ∈ names, '$' ∉ name ∧ startsLikeSymbol name = false) :
    dotted (symbols.pieces (join '$' names)) = join '.' names := by
  induction names with
  | nil => simp [join, dotted]
  | cons a names ih =>
    obtain ⟨ps, hps⟩ := encodes_encodeMethodName (h a List.mem_cons_self).1
    cases names with
    | nil =>
      have hfirst := hps.first []
      rw [List.append_nil, symbols.pieces_nil, List.append_nil] at hfirst
      rw [join_singleton, join_singleton, hfirst, dotted_of_not_bare hps.not_bare, hps.texts]
    | cons b names =>
      obtain ⟨hb, hstart⟩ := h b (List.mem_cons_of_mem _ List.mem_cons_self)
      have hnext : ∃ s, Closes s ∧ join '$' (b :: names) = encodeMethodName b ++ s := by
        cases names with
        | nil => exact ⟨[], nofun, by simp⟩
        | cons c names =>
          refine ⟨'$' :: join '$' (c :: names), ?_, join_cons_cons _ _ _ _⟩
          intro x t hx
          exact (List.cons.inj hx).1.symm
      obtain ⟨s, hs, hjoin⟩ := hnext
      have hbare : symbols.read ('$' :: join '$' (b :: names)) = none := by
        rw [hjoin]
        exact not_symbolAt_encodeMethodName hb hstart hs
      have hrest := ih fun name hname => h name (List.mem_cons_of_mem _ hname)
      rw [join_cons_cons, join_cons_cons, hps.first, symbols.pieces_of_not_read hbare, dotted,
        List.flatMap_append, List.flatMap_cons]
      have hfront : ps.flatMap dot = encodeMethodName a := by
        rw [← hps.texts]
        exact dotted_of_not_bare hps.not_bare
      rw [hfront, ← hrest]
      rfl

/-- The separators between encoded names become dots, and the loop ends on any string. -/
theorem nestedToDotted_join {names : List (List Char)}
    (h : ∀ name ∈ names, '$' ∉ name ∧ startsLikeSymbol name = false) :
    (∀ fuel, (join '$' names).length < fuel →
      nestedToDotted fuel (join '$' names) = some (join '.' names)) ∧
    ∀ (name : List Char) (fuel : ℕ), name.length < fuel →
      ∃ r, nestedToDotted fuel name = some r := by
  constructor
  · intro fuel hfuel
    rw [nestedToDotted_eq hfuel, dotted_pieces_join h]
  · intro name fuel hfuel
    exact ⟨_, nestedToDotted_eq hfuel⟩

/-- `Outer$$plus$plus` is the operator `++` inside of `Outer`. -/
theorem nestedToDotted_join_outer :
    nestedToDotted 20 (join '$' ["Outer".toList, ['+', '+']]) =
      some (join '.' ["Outer".toList, ['+', '+']]) :=
  (nestedToDotted_join (by decide)).1 20 (by decide)

end ScalaRs.NameTransformer
