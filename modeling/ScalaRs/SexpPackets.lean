import ScalaRs.SexpParsing

/-! # The engine's table of a text

The scan accepts what the grammar reads, and the spans it appends are a block: those
of the item in preorder, each with the place after its last descendant. -/
namespace ScalaRs.Wire
open CodeUnits

variable {U : Type} [CodeUnit U]

/-! ## Positions -/

theorem dropWhile_eq_drop {α : Type} (p : α → Bool) (l : List α) :
    l.dropWhile p = l.drop (l.takeWhile p).length := by
  calc l.dropWhile p
      = (l.takeWhile p ++ l.dropWhile p).drop (l.takeWhile p).length := List.drop_left.symm
    _ = l.drop (l.takeWhile p).length := by rw [List.takeWhile_append_dropWhile]

theorem skipSpaces_drop (cs : List U) (pos : ℕ) :
    skipSpaces (cs.drop pos) = cs.drop (spacesEnd cs pos) := by
  rw [skipSpaces, dropWhile_eq_drop, List.drop_drop, spacesEnd]

theorem skipSpaces_drop_of_none {cs : List U} {pos : ℕ} (h : cs[spacesEnd cs pos]? = none) :
    skipSpaces (cs.drop pos) = [] := by
  rw [skipSpaces_drop, List.drop_eq_nil_iff]
  exact List.getElem?_eq_none_iff.mp h

theorem skipSpaces_drop_of_some {cs : List U} {pos : ℕ} {c : U}
    (h : cs[spacesEnd cs pos]? = some c) :
    skipSpaces (cs.drop pos) = c :: cs.drop (spacesEnd cs pos + 1) := by
  obtain ⟨hlt, hc⟩ := List.getElem?_eq_some_iff.mp h
  rw [skipSpaces_drop, List.drop_eq_getElem_cons hlt, hc]

omit [CodeUnit U] in
theorem lt_length_of_getElem? {cs : List U} {pos : ℕ} {c : U} (h : cs[pos]? = some c) :
    pos < cs.length := (List.getElem?_eq_some_iff.mp h).1

theorem isEscape_iff (e : U) : isEscape e = true ↔ ∃ u, unescape e = some u := by
  rw [isEscape, unescape]
  split_ifs <;> simp_all

/-- What a unit after a backslash stands for. -/
theorem unescape_eq {e u : U} (h : unescape e = some u) :
    u = if code e = 110 then ofCode 10 else if code e = 116 then ofCode 9
      else if code e = 114 then ofCode 13 else e := by
  rw [unescape] at h
  split_ifs at h ⊢ <;> simp_all

/-- A string up to its closing quote is decoded later. -/
theorem stringEnd_eq_ok {pos fin : ℕ} {s : List U} (h : stringEnd pos s = .ok fin) :
    ∃ raw q after content, s = raw ++ q :: after ∧ fin = pos + raw.length + 1 ∧
      readStr s = some (content, after) ∧
      ∀ decoded run, decode decoded run raw = decoded ++ run ++ content := by
  fun_induction stringEnd pos s with
  | case1 => cases h
  | case2 pos c s hq =>
    cases h
    refine ⟨[], c, s, [], rfl, rfl, readStr_quote hq, ?_⟩
    intro decoded run
    rw [decode, List.append_nil]
  | case3 => cases h
  | case4 pos c hq hb e s hesc ih =>
    obtain ⟨raw, q, after, content, hs, hfin, hread, hdecode⟩ := ih h
    obtain ⟨u, hu⟩ := (isEscape_iff e).mp hesc
    refine ⟨c :: e :: raw, q, after, u :: content, ?_, ?_, ?_, ?_⟩
    · rw [hs]
      rfl
    · simp only [List.length_cons]
      omega
    · rw [readStr_escape hb, hu, hread]
      rfl
    · intro decoded run
      rw [decode.eq_def]
      simp only [if_neg (show ¬ code c ≠ 92 by omega)]
      rw [hdecode, ← unescape_eq hu]
      simp
  | case5 => cases h
  | case6 pos c s hq hb ih =>
    obtain ⟨raw, q, after, content, hs, hfin, hread, hdecode⟩ := ih h
    refine ⟨c :: raw, q, after, c :: content, ?_, ?_, ?_, ?_⟩
    · rw [hs]
      rfl
    · simp only [List.length_cons]
      omega
    · rw [readStr_plain hq hb, hread]
      rfl
    · intro decoded run
      rw [decode.eq_def]
      simp only [if_pos hb]
      rw [hdecode]
      simp

theorem stringEnd_of_readStr (pos : ℕ) {s : List U} {r : List U × List U} (h : readStr s = some r) :
    ∃ fin, stringEnd pos s = .ok fin := by
  fun_induction stringEnd pos s generalizing r with
  | case1 => simp at h
  | case2 pos c s hq => exact ⟨_, rfl⟩
  | case3 pos c hq hb =>
    rw [readStr_escape_nil hb] at h
    cases h
  | case4 pos c hq hb e s hesc ih =>
    rw [readStr_escape hb] at h
    obtain ⟨u, _, h⟩ := Option.bind_eq_some_iff.mp h
    obtain ⟨r', hr', _⟩ := Option.map_eq_some_iff.mp h
    exact ih hr'
  | case5 pos c hq hb e s hesc =>
    rw [readStr_escape hb] at h
    obtain ⟨u, hu, h⟩ := Option.bind_eq_some_iff.mp h
    exact absurd ((isEscape_iff e).mpr ⟨u, hu⟩) hesc
  | case6 pos c s hq hb ih =>
    rw [readStr_plain hq hb] at h
    obtain ⟨r', hr', _⟩ := Option.map_eq_some_iff.mp h
    exact ih hr'

omit [CodeUnit U] in
theorem substring_of_drop {text raw after : List U} {start : ℕ} (h : text.drop start = raw ++ after) :
    substring text start (start + raw.length) = raw := by
  rw [substring, List.drop_take, Nat.add_sub_cancel_left, h, List.take_left]

/-! ## Blocks of spans -/

mutual
/-- The spans from one place to another are those of an item. -/
inductive Block (text : List U) (spans : List Span) : ℕ → Sexp U → ℕ → Prop
  | atom {i start fin a} (h : spans[i]? = some ⟨start, fin, i + 1, -2⟩)
    (ha : substring text start fin = a) : Block text spans i (.atom a) (i + 1)
  | str {i start fin s} (h : spans[i]? = some ⟨start, fin, i + 1, -1⟩)
    (hs : decode [] [] (substring text (start + 1) (fin - 1)) = s) :
    Block text spans i (.str s) (i + 1)
  | list {i start fin items next} (h : spans[i]? = some ⟨start, fin, next, (items.length : ℤ)⟩)
    (hi : Blocks text spans (i + 1) items next) : Block text spans i (.list items) next

/-- The spans of several items, one after the other. -/
inductive Blocks (text : List U) (spans : List Span) : ℕ → List (Sexp U) → ℕ → Prop
  | nil {i} : Blocks text spans i [] i
  | cons {i j k t ts} (ht : Block text spans i t j) (hts : Blocks text spans j ts k) :
    Blocks text spans i (t :: ts) k
end

variable {text : List U} {spans spans' : List Span}

mutual
theorem Block.lt {i j : ℕ} {t : Sexp U} (h : Block text spans i t j) : i < j := by
  cases h with
  | atom => exact Nat.lt_succ_self i
  | str => exact Nat.lt_succ_self i
  | list _ hi => exact hi.le

theorem Blocks.le {i j : ℕ} {ts : List (Sexp U)} (h : Blocks text spans i ts j) : i ≤ j := by
  cases h with
  | nil => exact le_rfl
  | cons ht hts => exact Nat.le_trans (Nat.le_of_lt ht.lt) hts.le
end

mutual
/-- Only the spans from the first place on matter. -/
theorem Block.frame {i j : ℕ} {t : Sexp U} (h : Block text spans i t j)
    (hf : ∀ n sp, i ≤ n → spans[n]? = some sp → spans'[n]? = some sp) :
    Block text spans' i t j := by
  cases h with
  | atom h ha => exact .atom (hf _ _ le_rfl h) ha
  | str h hs => exact .str (hf _ _ le_rfl h) hs
  | list h hi =>
    apply Block.list (hf _ _ le_rfl h)
    exact hi.frame fun n sp hn => hf n sp (by omega)

theorem Blocks.frame {i j : ℕ} {ts : List (Sexp U)} (h : Blocks text spans i ts j)
    (hf : ∀ n sp, i ≤ n → spans[n]? = some sp → spans'[n]? = some sp) :
    Blocks text spans' i ts j := by
  cases h with
  | nil => exact .nil
  | cons ht hts =>
    have hlt := ht.lt
    exact .cons (ht.frame hf) (hts.frame fun n sp hn => hf n sp (by omega))
end

theorem getElem?_of_prefix (h : spans <+: spans') {n : ℕ} {sp : Span} (hn : spans[n]? = some sp) :
    spans'[n]? = some sp := by
  obtain ⟨more, rfl⟩ := h
  rw [List.getElem?_append_left (List.getElem?_eq_some_iff.mp hn).1, hn]

/-! ## Slots -/

namespace Packet
section Slots

variable {V : Type} (p : Packet V) (start fin : ℕ) (children : ℤ)

theorem reserve_length : (p.reserve start).spans.length = p.spans.length + 1 := by
  rw [reserve, List.length_append, List.length_singleton]

theorem reserve_prefix : p.spans <+: (p.reserve start).spans := List.prefix_append _ _

theorem fill_length (slot : ℕ) : (p.fill slot fin children).spans.length = p.spans.length :=
  List.length_modify _ _ _

theorem fill_getElem?_ne {slot n : ℕ} (hn : n ≠ slot) :
    (p.fill slot fin children).spans[n]? = p.spans[n]? := by
  rw [fill, List.getElem?_modify_ne _ _ (Ne.symm hn)]

theorem fill_getElem? {slot : ℕ} {sp : Span} (h : p.spans[slot]? = some sp) :
    (p.fill slot fin children).spans[slot]? = some ⟨sp.start, fin, p.spans.length, children⟩ := by
  rw [fill, List.getElem?_modify_eq, h]
  rfl

theorem reserve_getElem? : (p.reserve start).spans[p.spans.length]? = some ⟨start, 0, 0, 0⟩ := by
  rw [reserve, List.getElem?_append_right le_rfl, Nat.sub_self]
  rfl

/-- The earlier spans are not touched. -/
theorem prefix_fill {q : Packet V} (h : (p.reserve start).spans <+: q.spans) :
    p.spans <+: (q.fill p.spans.length fin children).spans := by
  rw [List.prefix_iff_getElem?]
  intro i hi
  rw [fill_getElem?_ne q fin children (Nat.ne_of_lt hi)]
  exact List.prefix_iff_getElem?.mp ((p.reserve_prefix start).trans h) i hi

/-- A slot filled without children. -/
theorem fill_reserve_getElem? :
    ((p.reserve start).fill p.spans.length fin children).spans[p.spans.length]? =
      some ⟨start, fin, p.spans.length + 1, children⟩ := by
  rw [fill_getElem? _ fin children (p.reserve_getElem? start), p.reserve_length]

theorem fill_reserve_length :
    ((p.reserve start).fill p.spans.length fin children).spans.length = p.spans.length + 1 := by
  rw [fill_length, reserve_length]

end Slots
end Packet

/-! ## The scan -/

/-- A packet after an item has been scanned. -/
structure Scanned (maxDepth : ℕ) (p : Packet U) (depth : ℕ) (t : Sexp U) (q : Packet U) : Prop where
  text : q.text = p.text
  reads : Reads maxDepth (p.text.drop p.position) depth t (p.text.drop q.position)
  position : q.position ≤ p.text.length
  spans : p.spans <+: q.spans
  block : Block p.text q.spans p.spans.length t q.spans.length

/-- A packet after the items of a list have been scanned from `pos` to `fin`. -/
structure ScannedItems (maxDepth : ℕ) (p : Packet U) (pos depth : ℕ) (ts : List (Sexp U))
    (q : Packet U) (fin : ℕ) : Prop where
  text : q.text = p.text
  reads : ReadsItems maxDepth (p.text.drop pos) depth ts (p.text.drop fin)
  position : fin ≤ p.text.length
  spans : p.spans <+: q.spans
  block : Blocks p.text q.spans p.spans.length ts q.spans.length

/-- Filling the slot of a list gives its items their list. -/
theorem ScannedItems.fill {maxDepth depth fin : ℕ} {p q : Packet U} {c : U} {ts : List (Sexp U)}
    (h : ScannedItems maxDepth (p.reserve (spacesEnd p.text p.position))
      (spacesEnd p.text p.position + 1) depth ts q fin)
    (hc : p.text[spacesEnd p.text p.position]? = some c) (hopen : code c = 40)
    (hdepth : depth < maxDepth) :
    Scanned maxDepth p depth (.list ts) (q.fill p.spans.length fin ts.length) where
  text := h.text
  reads := .list (skipSpaces_drop_of_some hc) hopen hdepth h.reads
  position := h.position
  spans := p.prefix_fill _ fin _ h.spans
  block := by
    have hslot := getElem?_of_prefix h.spans (p.reserve_getElem? (spacesEnd p.text p.position))
    rw [Packet.fill_length]
    apply Block.list (q.fill_getElem? fin ts.length hslot)
    have hblock := h.block
    rw [p.reserve_length] at hblock
    apply hblock.frame
    intro n sp hn hsp
    rw [q.fill_getElem?_ne fin ts.length (by omega), hsp]

theorem scan_iff (maxDepth : ℕ) :
    (∀ (p : Packet U) depth,
      (∀ q, scan maxDepth p depth = .ok q → ∃ t, Scanned maxDepth p depth t q) ∧
      ∀ t rest, Reads maxDepth (p.text.drop p.position) depth t rest →
        ∃ q, scan maxDepth p depth = .ok q) ∧
    ∀ (p : Packet U) pos depth children,
      (∀ q fin n, scanItems maxDepth p pos depth children = .ok (q, fin, n) →
        ∃ ts : List (Sexp U), ScannedItems maxDepth p pos depth ts q fin ∧ n = children + ts.length) ∧
      ∀ ts rest, ReadsItems maxDepth (p.text.drop pos) depth ts rest →
        ∃ r, scanItems maxDepth p pos depth children = .ok r := by
  apply scan.mutual_induct maxDepth
    (fun p depth =>
      (∀ q, scan maxDepth p depth = .ok q → ∃ t, Scanned maxDepth p depth t q) ∧
      ∀ t rest, Reads maxDepth (p.text.drop p.position) depth t rest →
        ∃ q, scan maxDepth p depth = .ok q)
    (fun p pos depth children =>
      (∀ q fin n, scanItems maxDepth p pos depth children = .ok (q, fin, n) →
        ∃ ts : List (Sexp U), ScannedItems maxDepth p pos depth ts q fin ∧ n = children + ts.length) ∧
      ∀ ts rest, ReadsItems maxDepth (p.text.drop pos) depth ts rest →
        ∃ r, scanItems maxDepth p pos depth children = .ok r)
  · -- no item
    intro p depth hnone
    constructor
    · intro q h
      rw [scan, hnone] at h
      cases h
    · intro t rest hread
      exact absurd hread (not_reads_of_nil (skipSpaces_drop_of_none hnone))
  · -- a list too deep
    intro p depth c hc hopen hdeep
    constructor
    · intro q h
      rw [scan, hc] at h
      simp only [if_pos hopen, if_pos hdeep] at h
      cases h
    · intro t rest hread
      have hlt := ((reads_list_iff (skipSpaces_drop_of_some hc) hopen).mp hread).1
      omega
  · -- a list with a wrong item
    intro p depth c hc hopen hdeep e hitems ih
    constructor
    · intro q h
      rw [scan, hc] at h
      simp only [if_pos hopen, if_neg hdeep, hitems] at h
      cases h
    · intro t rest hread
      obtain ⟨_, items, _, hi⟩ := (reads_list_iff (skipSpaces_drop_of_some hc) hopen).mp hread
      obtain ⟨r, hr⟩ := ih.2 items rest hi
      rw [hitems] at hr
      cases hr
  · -- a list
    intro p depth c hc hopen hdeep q fin children hitems ih
    have hscan : scan maxDepth p depth = .ok (q.fill p.spans.length fin children) := by
      rw [scan, hc]
      simp only [if_pos hopen, if_neg hdeep, hitems]
    constructor
    · intro q' h
      rw [hscan] at h
      cases h
      obtain ⟨ts, hts, hn⟩ := ih.1 q fin children hitems
      rw [hn, Int.zero_add]
      exact ⟨.list ts, hts.fill hc hopen (Nat.not_le.mp hdeep)⟩
    · intro t rest hread
      exact ⟨_, hscan⟩
  · -- a wrong string
    intro p depth c hc hopen hq e hfin
    constructor
    · intro q h
      rw [scan, hc] at h
      simp only [if_neg hopen, if_pos hq, hfin] at h
      cases h
    · intro t rest hread
      obtain ⟨content, _, hstr⟩ := (reads_str_iff (skipSpaces_drop_of_some hc) hq).mp hread
      obtain ⟨fin, hok⟩ := stringEnd_of_readStr (spacesEnd p.text p.position + 1) hstr
      rw [hfin] at hok
      cases hok
  · -- a quoted string
    intro p depth c hc hopen hq fin hfin
    have hscan : scan maxDepth p depth = .ok
        ((p.reserve (spacesEnd p.text p.position)).fill p.spans.length fin (-1)) := by
      rw [scan, hc]
      simp only [if_neg hopen, if_pos hq, hfin]
    constructor
    · intro q h
      rw [hscan] at h
      cases h
      obtain ⟨raw, quote, after, content, hs, hpos, hread, hdecode⟩ := stringEnd_eq_ok hfin
      have hlen := congrArg List.length hs
      simp only [List.length_drop, List.length_append, List.length_cons] at hlen
      have hstart := lt_length_of_getElem? hc
      have hdrop : p.text.drop fin = after := by
        rw [hpos, Nat.add_assoc, ← List.drop_drop, hs, ← List.drop_drop, List.drop_left,
          List.drop_one, List.tail_cons]
      refine ⟨.str content, rfl, ?_, ?_, ?_, ?_⟩
      · change Reads maxDepth _ depth _ (p.text.drop fin)
        rw [hdrop]
        exact .str (skipSpaces_drop_of_some hc) hq hread
      · change fin ≤ p.text.length
        omega
      · exact p.prefix_fill _ fin (-1) (List.prefix_refl _)
      · rw [Packet.fill_reserve_length]
        apply Block.str (p.fill_reserve_getElem? _ fin (-1))
        rw [hpos, Nat.add_sub_cancel, substring_of_drop hs, hdecode]
        rfl
    · intro t rest hread
      exact ⟨_, hscan⟩
  · -- a closing parenthesis
    intro p depth c hc hopen hq hclose
    constructor
    · intro q h
      rw [scan, hc] at h
      simp only [if_neg hopen, if_neg hq, if_pos hclose] at h
      cases h
    · intro t rest hread
      exact absurd hread (not_reads_of_close (skipSpaces_drop_of_some hc) hclose)
  · -- an atom
    intro p depth c hc hopen hq hclose
    have hscan : scan maxDepth p depth = .ok
        ((p.reserve (spacesEnd p.text p.position)).fill p.spans.length
          (atomEnd p.text (spacesEnd p.text p.position)) (-2)) := by
      rw [scan, hc]
      simp only [if_neg hopen, if_neg hq, if_neg hclose]
    constructor
    · intro q h
      rw [hscan] at h
      cases h
      have hs := skipSpaces_drop_of_some hc
      have hfrom := hs
      rw [skipSpaces_drop] at hfrom
      refine ⟨.atom ((p.text.drop (spacesEnd p.text p.position)).takeWhile inAtom), rfl, ?_, ?_, ?_, ?_⟩
      · change Reads maxDepth _ depth _ (p.text.drop (atomEnd p.text _))
        rw [atomEnd, ← List.drop_drop, ← dropWhile_eq_drop, hfrom]
        exact (reads_atom_iff hs hopen hq hclose).mpr ⟨rfl, rfl⟩
      · change atomEnd p.text _ ≤ p.text.length
        have hle := (List.takeWhile_sublist inAtom (l := p.text.drop
          (spacesEnd p.text p.position))).length_le
        have hlt := lt_length_of_getElem? hc
        rw [List.length_drop] at hle
        rw [atomEnd]
        omega
      · exact p.prefix_fill _ _ (-2) (List.prefix_refl _)
      · rw [Packet.fill_reserve_length]
        apply Block.atom (p.fill_reserve_getElem? _ _ (-2))
        exact substring_of_drop (List.takeWhile_append_dropWhile (p := inAtom)).symm
    · intro t rest hread
      exact ⟨_, hscan⟩
  · -- an open list at the end of the text
    intro p pos depth children hnone
    constructor
    · intro q fin n h
      rw [scanItems, hnone] at h
      cases h
    · intro ts rest hread
      exact absurd hread (not_readsItems_of_nil (skipSpaces_drop_of_none hnone))
  · -- the end of the list
    intro p pos depth children c hc hclose
    have hscan : scanItems maxDepth p pos depth children =
        .ok (p, spacesEnd p.text pos + 1, children) := by
      rw [scanItems, hc]
      simp only [if_pos hclose]
    constructor
    · intro q fin n h
      rw [hscan] at h
      cases h
      refine ⟨[], ⟨rfl, .nil (skipSpaces_drop_of_some hc) hclose, ?_, List.prefix_refl _, .nil⟩, ?_⟩
      · exact lt_length_of_getElem? hc
      · simp
    · intro ts rest hread
      exact ⟨_, hscan⟩
  · -- a wrong item
    intro p pos depth children c hc hclose e hitem ih
    have hs := skipSpaces_drop_of_some hc
    constructor
    · intro q fin n h
      rw [scanItems, hc] at h
      simp only [if_neg hclose, hitem] at h
      cases h
    · intro ts rest hread
      obtain ⟨t, next, ts', _, ht, _⟩ := (readsItems_cons_iff hs hclose).mp hread
      rw [← hs, skipSpaces_drop] at ht
      obtain ⟨q, hq⟩ := ih.2 t next ht
      rw [hitem] at hq
      cases hq
  · -- an item and the others
    intro p pos depth children c hc hclose q hitem hlt ih ihs
    have hs := skipSpaces_drop_of_some hc
    have hscan : scanItems maxDepth p pos depth children =
        scanItems maxDepth q q.position depth (children + 1) := by
      rw [scanItems, hc]
      simp only [if_neg hclose, hitem, dif_pos hlt]
    obtain ⟨t, ht⟩ := ih.1 q hitem
    have hread := ht.reads
    rw [show p.text.drop (spacesEnd p.text pos) = c :: p.text.drop (spacesEnd p.text pos + 1) by
      rw [← skipSpaces_drop, hs]] at hread
    rw [hscan]
    constructor
    · intro r fin n h
      obtain ⟨ts, hts, hn⟩ := ihs.1 r fin n h
      have htail := hts.reads
      rw [ht.text] at htail
      refine ⟨t :: ts, ⟨hts.text.trans ht.text, .cons hs hclose hread htail, ?_,
        ht.spans.trans hts.spans, ?_⟩, ?_⟩
      · exact ht.text ▸ hts.position
      · have hblocks := hts.block
        rw [ht.text] at hblocks
        exact .cons (ht.block.frame fun n sp _ hn => getElem?_of_prefix hts.spans hn) hblocks
      · rw [hn, List.length_cons, Int.natCast_succ]
        omega
    · intro ts rest hitems
      obtain ⟨t', next, ts', _, ht', hts'⟩ := (readsItems_cons_iff hs hclose).mp hitems
      obtain ⟨_, hnext⟩ := hread.unique ht'
      apply ihs.2 ts' rest
      rw [ht.text]
      exact hnext ▸ hts'
  · -- no item is empty
    intro p pos depth children c hc hclose q hitem hlt ih
    obtain ⟨t, ht⟩ := ih.1 q hitem
    have hshort := ht.reads.suffix.2
    have hpos := le_spacesEnd p.text pos
    have hend := lt_length_of_getElem? hc
    rw [ht.text] at hlt
    simp only [List.length_drop] at hshort hlt
    omega

end ScalaRs.Wire
