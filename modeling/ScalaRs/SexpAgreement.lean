import ScalaRs.SexpWriting

/-! # The two parsers agree

The compiler sees the UTF-8 bytes of a text and the engine its UTF-16 units. -/
namespace ScalaRs.Wire
open CodeUnits

def maxWireBytes : ℕ := 16 * 1024 * 1024

def maxWireChars : ℕ := 16 * 1024 * 1024

def maxWireDepth : ℕ := 512

/-- `Sexp::parse` of the compiler -/
def parse (s : List UInt8) : Except ParseError (Sexp UInt8) :=
  parseWithLimits maxWireBytes maxWireDepth s

/-- `Sexp.parse` of the engine -/
def Packet.parse (s : List UInt16) : Except PacketError (Packet UInt16 × Nodes UInt16) :=
  parsePacket maxWireChars maxWireDepth s

/-- A text that is not too large for either side. -/
def WithinSize (cs : List Char) : Prop :=
  (utf8.text cs).length ≤ maxWireBytes ∧ (utf16.text cs).length ≤ maxWireChars

/-- Both sides yield the same tree. -/
def Accept (cs : List Char) (t : Sexp Char) : Prop :=
  parse (utf8.text cs) = .ok (t.encode utf8) ∧
    ∃ p nodes, Packet.parse (utf16.text cs) = .ok (p, nodes) ∧ Yields p nodes (t.encode utf16)

def Reject (cs : List Char) : Prop :=
  (∀ t, parse (utf8.text cs) ≠ .ok t) ∧ ∀ r, Packet.parse (utf16.text cs) ≠ .ok r

/-- What both sides write for a tree, as one line. -/
structure Writes (t : Sexp Char) (line : List Char) : Prop where
  compiler : display (t.encode utf8) = utf8.text line
  engine : write quote (t.encode utf16) = utf16.text line
  noLineFeed : '\n' ∉ line
  noReturn : '\r' ∉ line

theorem skipSpaces_text_eq_nil_iff {U : Type} [CodeUnit U] (e : Encoding U) (cs : List Char) :
    skipSpaces (e.text cs) = [] ↔ skipSpaces cs = [] := by
  rw [skipSpaces_text]
  cases skipSpaces cs with
  | nil => simp
  | cons c rest => simp [e.encode_ne_nil c]

theorem accept_of_reads {cs rest : List Char} {t : Sexp Char} (hsize : WithinSize cs)
    (h : Reads maxWireDepth cs 0 t rest) (hrest : skipSpaces rest = []) : Accept cs t := by
  constructor
  · apply parseWithLimits_eq_ok_iff.mpr
    exact ⟨hsize.1, utf8.text rest, h.encode utf8, (skipSpaces_text_eq_nil_iff utf8 rest).mpr hrest⟩
  · exact parsePacket_ok_of_reads hsize.2 (h.encode utf16)
      ((skipSpaces_text_eq_nil_iff utf16 rest).mpr hrest)

/-- An encoding of a text reads as an item only if the text does. -/
theorem exists_reads_of_encoded {U : Type} [CodeUnit U] (e : Encoding U) {cs : List Char}
    {t : Sexp U} {rest : List U} (h : Reads maxWireDepth (e.text cs) 0 t rest)
    (hrest : skipSpaces rest = []) :
    ∃ t' rest', Reads maxWireDepth cs 0 t' rest' ∧ skipSpaces rest' = [] := by
  obtain ⟨t', rest', ht'⟩ := exists_reads_of_text e h cs rfl
  obtain ⟨_, hafter⟩ := h.unique (ht'.encode e)
  rw [hafter] at hrest
  exact ⟨t', rest', ht', (skipSpaces_text_eq_nil_iff e rest').mp hrest⟩

theorem reject_or_reads (cs : List Char) :
    Reject cs ∨ ∃ t rest, Reads maxWireDepth cs 0 t rest ∧ skipSpaces rest = [] := by
  by_cases h : ∃ t rest, Reads maxWireDepth cs 0 t rest ∧ skipSpaces rest = []
  · exact .inr h
  · refine .inl ⟨?_, ?_⟩
    · intro t ht
      obtain ⟨_, rest, hread, hrest⟩ := parseWithLimits_eq_ok_iff.mp ht
      exact h (exists_reads_of_encoded utf8 hread hrest)
    · intro r hr
      obtain ⟨_, t, rest, hread, hrest⟩ := reads_of_parsePacket_ok hr
      exact h (exists_reads_of_encoded utf16 hread hrest)

theorem writes_of_atoms {t : Sexp Char} (h : t.Atoms PlainAtom) : Writes t (write quote t) where
  compiler := by rw [display_eq_write, write_encode]
  engine := write_encode utf16 t
  noLineFeed := fun hmem => write_one_line h (.inl rfl) _ hmem rfl
  noReturn := fun hmem => write_one_line h (.inr rfl) _ hmem rfl

/-- Both sides reject a text or yield the same tree, and what either writes for it
reads back, unless that is too large. -/
theorem wire_agreement (cs : List Char) (hsize : WithinSize cs) :
    Reject cs ∨ ∃ t, Accept cs t ∧ (t.Atoms PlainAtom →
      ∃ line, Writes t line ∧ (WithinSize line → Accept line t)) := by
  rcases reject_or_reads cs with hreject | ⟨t, rest, hread, hrest⟩
  · exact .inl hreject
  · refine .inr ⟨t, accept_of_reads hsize hread hrest, ?_⟩
    intro hatoms
    refine ⟨write quote t, writes_of_atoms hatoms, ?_⟩
    intro hline
    have hback : Reads maxWireDepth (write quote t ++ []) 0 t [] :=
      reads_write hread.within hatoms (by simp [Stops])
    rw [List.append_nil] at hback
    exact accept_of_reads hline hback rfl

theorem wire_agreement_atom : Reject ['a'] ∨ ∃ t, Accept ['a'] t ∧ (t.Atoms PlainAtom →
    ∃ line, Writes t line ∧ (WithinSize line → Accept line t)) := by
  apply wire_agreement ['a']
  exact ⟨by decide, by decide⟩

/-! ## Escapes can make a text too large -/

def tabs (n : ℕ) : List Char := List.replicate n '\t'

/-- A quoted string of raw tabs. -/
def quotedTabs (n : ℕ) : List Char := '"' :: (tabs n ++ ['"'])

theorem length_text_ascii {U : Type} [CodeUnit U] (e : Encoding U) {cs : List Char}
    (h : ∀ c ∈ cs, code c < 128) : (e.text cs).length = cs.length := by
  induction cs with
  | nil => rfl
  | cons c cs ih =>
    have htail := ih fun d hd => h d (List.mem_cons_of_mem _ hd)
    rw [Encoding.text_cons, List.length_append, htail,
      e.encode_of_code rfl (h c List.mem_cons_self), List.length_singleton, List.length_cons]
    omega

theorem withinSize_quotedTabs {n : ℕ} (hn : n + 2 ≤ 16 * 1024 * 1024) : WithinSize (quotedTabs n) := by
  have hascii : ∀ c ∈ quotedTabs n, code c < 128 := by
    intro c hc
    simp only [quotedTabs, tabs, List.mem_cons, List.mem_append, List.mem_replicate, List.not_mem_nil,
      or_false] at hc
    rcases hc with rfl | ⟨_, rfl⟩ | rfl <;> decide
  have hlen : (quotedTabs n).length = n + 2 := by simp [quotedTabs, tabs]
  constructor
  · rw [length_text_ascii utf8 hascii, hlen, maxWireBytes]
    exact hn
  · rw [length_text_ascii utf16 hascii, hlen, maxWireChars]
    exact hn

theorem reads_quotedTabs (d n : ℕ) : Reads d (quotedTabs n) 0 (.str (tabs n)) [] := by
  have htabs : ∀ c ∈ tabs n, code c ≠ 34 ∧ code c ≠ 92 := by
    intro c hc
    rw [List.eq_of_mem_replicate hc]
    decide
  apply @Reads.str _ _ d _ 0 '"' (tabs n ++ ['"'])
  · exact skipSpaces_of_ne (by decide)
  · decide
  · rw [readStr_append htabs, readStr_quote (by decide), Option.map_some, List.append_nil]

/-- The tabs are escaped. -/
theorem length_display_tabs (n : ℕ) : (display (.str (utf8.text (tabs n)))).length = 2 * n + 2 := by
  have hbody : ∀ m, ((utf8.text (tabs m)).flatMap escaped).length = 2 * m := by
    intro m
    induction m with
    | zero => rfl
    | succ m ih =>
      have htab : (utf8.encode '\t').flatMap escaped = [92, 116] := by decide
      rw [tabs, List.replicate_succ, Encoding.text_cons, List.flatMap_append, List.length_append, htab]
      change 2 + ((utf8.text (tabs m)).flatMap escaped).length = 2 * (m + 1)
      omega
  rw [display_eq_write, write, quote_eq, List.length_append, List.length_append, hbody,
    List.length_singleton]
  omega

/-- What is written for a tree both sides yield can be too large for them. -/
theorem written_too_large : ¬ ∀ cs, WithinSize cs → Reject cs ∨ ∃ t, Accept cs t ∧
    (t.Atoms PlainAtom → ∃ line, Writes t line ∧ Accept line t) := by
  intro hall
  have hsize : WithinSize (quotedTabs 16777214) := withinSize_quotedTabs (by omega)
  obtain ⟨hparse, _⟩ := accept_of_reads hsize (reads_quotedTabs _ 16777214) rfl
  rcases hall (quotedTabs 16777214) hsize with hreject | ⟨t, ht, hback⟩
  · exact hreject.1 _ hparse
  · have htree : t.encode utf8 = .str (utf8.text (tabs 16777214)) := by
      have heq := ht.1.symm.trans hparse
      rw [Except.ok.inj heq, Sexp.encode]
    cases t with
    | atom a =>
      rw [Sexp.encode] at htree
      cases htree
    | list items =>
      rw [Sexp.encode] at htree
      cases htree
    | str s =>
      obtain ⟨line, hwrites, haccept, _⟩ := hback .str
      have hlen := (parseWithLimits_eq_ok_iff.mp haccept).1
      rw [← hwrites.compiler, htree, length_display_tabs, maxWireBytes] at hlen
      omega

end ScalaRs.Wire
