import ScalaRs.PickleEntryRoundTrip

/-! # Reading back a pickle

The first pass finds the tag, the start and the end of every entry that was
written; from there the second pass reads back the entries. -/
namespace ScalaRs.Pickling
open CheckedReaders CheckedReaders.CheckedM

/-- The tags of a table of entries. -/
def tagsOf (entries : List Entry) : List UInt8 := entries.map (·.tag.code)

/-- A table that can be read back: references are in range, the entries are
well formed and their number and lengths have 32 bits. -/
structure WellFormedTable (entries : List Entry) : Prop where
  refs : ∀ e ∈ entries, ∀ i ∈ e.refs, i.toNat < entries.length
  wellFormed : ∀ e ∈ entries, e.WellFormed (tagsOf entries)
  body_lt : ∀ e ∈ entries, e.body.length < 2 ^ 32
  length_lt : entries.length < 2 ^ 32

/-! ## The bytes of the frame -/

def Entry.bytes (e : Entry) : List UInt8 :=
  [e.tag.code] ++ (countBytes e.body ++ e.body)

theorem writeEntry_eq (buf : List UInt8) (e : Entry) :
    writeEntry buf e.tag.code e.body = buf ++ e.bytes := by
  have htag : writeNatTo [] e.tag.code.toUInt32 = [e.tag.code] := by
    cases e.tag <;> decide
  rw [writeEntry, writeNatTo_eq, writeNatTo_eq buf, htag, Entry.bytes, countBytes]
  simp

theorem writePickle_eq (entries : List Entry) : writePickle entries =
    writeNatTo [] MAJOR ++ (writeNatTo [] MINOR ++ (countBytes entries ++ entries.flatMap Entry.bytes)) := by
  have hfold : ∀ (es : List Entry) (buf : List UInt8),
      (es.map fun e => (e.tag.code, e.body)).foldl (fun buf x => writeEntry buf x.1 x.2) buf
        = buf ++ es.flatMap Entry.bytes := by
    intro es
    induction es with
    | nil => simp
    | cons e es ih =>
      intro buf
      rw [List.map_cons, List.foldl_cons, ih, List.flatMap_cons, ← List.append_assoc]
      exact congrArg (· ++ es.flatMap Entry.bytes) (writeEntry_eq buf e)
  rw [writePickle, finish, hfold, List.length_map, writeNatTo_eq, writeNatTo_eq (writeNatTo [] MAJOR)]
  simp only [List.append_assoc]
  rfl

/-! ## The first pass -/

variable [Build] {bytes : Slice}

/-- The table holds the tags, starts and ends of these entries. -/
structure Table.Frames (table : Table) (bytes : Slice) (entries : List Entry) : Prop where
  fits : table.Fits bytes entries.length
  entryTags : table.entryTags = tagsOf entries
  row : ∀ i e, entries[i]? = some e → ∃ r rest, table.Row bytes i r (r.pos + e.body.length) ∧
    r.rest = e.body ++ rest

omit [Build] in
theorem Reader.length_rest (r : Reader) : r.rest.length = r.bytes.length - r.pos :=
  List.length_drop

theorem readTableEntry_of_rest {e : Entry} {r : Reader} {rest : List UInt8}
    (h : r.rest = e.bytes ++ rest) (hlen : e.body.length < 2 ^ 32) (i : ℕ) (table : Table) :
    ∃ row : Reader, row.bytes = r.bytes ∧ row.entry = i ∧ row.tag = e.tag.code ∧
      row.rest = e.body ++ rest ∧ row.pos + e.body.length ≤ r.bytes.length ∧
      readTableEntry i table r =
        .ok (table.push row.pos e.tag.code (row.pos + e.body.length), row.skip e.body.length) := by
  simp only [Entry.bytes, List.append_assoc] at h
  have htotal := r.length_rest
  rw [h] at htotal
  have hbyte : byte ⟨r.bytes, r.pos, i, 0⟩ = .ok (e.tag.code, ⟨r.bytes, r.pos + 1, i, 0⟩) :=
    reads_byte e.tag.code _ _ h
  have hrest : (r.skip 1).rest = countBytes e.body ++ (e.body ++ rest) := Reader.rest_skip h
  have hnat : natUsize ⟨r.bytes, r.pos + 1, i, e.tag.code⟩ = .ok (e.body.length,
      ⟨r.bytes, r.pos + 1 + (countBytes e.body).length, i, e.tag.code⟩) :=
    reads_natUsize hlen _ _ hrest
  have hbody := Reader.rest_skip hrest
  have hpos : r.pos + 1 + (countBytes e.body).length + e.body.length ≤ r.bytes.length := by
    simp only [List.length_singleton, List.length_append] at htotal
    omega
  have hlt := r.bytes.length_lt
  refine ⟨⟨r.bytes, r.pos + 1 + (countBytes e.body).length, i, e.tag.code⟩, rfl, rfl, rfl, hbody,
    hpos, ?_⟩
  rw [readTableEntry, modify_bind_apply, bind_of_ok hbyte, modify_bind_apply]
  dsimp only
  rw [bind_of_ok hnat, get_bind_apply, if_pos]
  · rfl
  · exact ⟨Nat.lt_of_le_of_lt hpos (Nat.lt_trans hlt (by decide)), hpos⟩

omit [Build] in
theorem Table.Frames.push {table : Table} {done : List Entry} {e : Entry} {row : Reader}
    {rest : List UInt8} (h : table.Frames bytes done) (hbytes : row.bytes = bytes)
    (hentry : row.entry = done.length) (htag : row.tag = e.tag.code)
    (hrest : row.rest = e.body ++ rest) (hpos : row.pos + e.body.length ≤ bytes.length) :
    (table.push row.pos e.tag.code (row.pos + e.body.length)).Frames bytes (done ++ [e]) where
  fits := by
    rw [List.length_append]
    exact h.fits.push _ (Nat.le_add_right _ _) hpos
  entryTags := by simp [Table.push, h.entryTags, tagsOf]
  row i e' he' := by
    by_cases hi : i < done.length
    · rw [List.getElem?_append_left hi] at he'
      obtain ⟨r, more, hrow, hr⟩ := h.row i e' he'
      refine ⟨r, more, ⟨?_, ?_, ?_, hrow.bytes, hrow.entry⟩, hr⟩
      · rw [Table.push, List.getElem?_append_left (by rw [h.fits.offsets]; exact hi), hrow.offset]
      · rw [Table.push, List.getElem?_append_left (by rw [h.fits.entryTags]; exact hi), hrow.tag]
      · rw [Table.push, List.getElem?_append_left (by rw [h.fits.ends]; exact hi), hrow.fin]
    · obtain rfl : i = done.length := by
        have hlt := (List.getElem?_eq_some_iff.mp he').1
        rw [List.length_append, List.length_singleton] at hlt
        omega
      rw [List.getElem?_concat_length] at he'
      cases he'
      refine ⟨row, rest, ⟨?_, ?_, ?_, hbytes, hentry⟩, hrest⟩
      · rw [Table.push, ← h.fits.offsets, List.getElem?_concat_length]
      · rw [Table.push, ← h.fits.entryTags, List.getElem?_concat_length, htag]
      · rw [Table.push, ← h.fits.ends, List.getElem?_concat_length]

/-- The first pass frames the entries one after the other. -/
theorem readTable_of_rest (es : List Entry) : ∀ (done : List Entry) (table : Table) (r : Reader),
    table.Frames bytes done → r.bytes = bytes → r.rest = es.flatMap Entry.bytes →
    (∀ e ∈ es, e.body.length < 2 ^ 32) →
      ∃ table' r', forRange readTableEntry done.length es.length table r = .ok (table', r') ∧
        r'.bytes = bytes ∧ table'.Frames bytes (done ++ es) := by
  induction es with
  | nil =>
    intro done table r hframes hbytes _ _
    rw [List.append_nil]
    exact ⟨table, r, rfl, hbytes, hframes⟩
  | cons e es ih =>
    intro done table r hframes hbytes hrest hlen
    obtain ⟨row, hrow, hentry, htag, hbody, hpos, hread⟩ :=
      readTableEntry_of_rest hrest (hlen e List.mem_cons_self) done.length table
    rw [hbytes] at hrow hpos
    have hframes' := hframes.push hrow hentry htag hbody hpos
    obtain ⟨table', r', hrun, hr', htable'⟩ := ih (done ++ [e]) _ (row.skip e.body.length) hframes'
      hrow (Reader.rest_skip hbody) fun e' he' => hlen e' (List.mem_cons_of_mem e he')
    refine ⟨table', r', ?_, hr', ?_⟩
    · rw [List.length_cons, forRange, bind_of_ok hread]
      simpa using hrun
    · simpa using htable'

/-! ## The second pass -/

theorem readEntries_of_frames {table : Table} {entries : List Entry} (hwf : WellFormedTable entries)
    (hframes : table.Frames bytes entries) {r : Reader} (hr : r.bytes = bytes) (k : ℕ) :
    k ≤ entries.length → ∃ r', forRange (readTableBody table entries.length) 0 k [] r =
      .ok (entries.take k, r') ∧ r'.bytes = bytes := by
  induction k with
  | zero => exact fun _ => ⟨r, rfl, hr⟩
  | succ k ih =>
    intro hk
    obtain ⟨r₁, hrun, hr₁⟩ := ih (by omega)
    have he : entries[k]? = some entries[k] := List.getElem?_eq_getElem hk
    have hmem : entries[k] ∈ entries := List.getElem_mem hk
    obtain ⟨row, rest, hrow, hbody⟩ := hframes.row k _ he
    have hwithin := hframes.fits.within k _ _ hrow.offset hrow.fin
    have htag : row.tag = entries[k].tag.code := by
      have htag := hrow.tag
      rw [hframes.entryTags, tagsOf, List.getElem?_map, he] at htag
      exact (Option.some.inj htag).symm
    have hread := readEntry_of_rest (tagsOf entries) entries[k]
      (by rw [Reader.Within, hrow.bytes]; omega) htag hbody (hwf.refs _ hmem)
      (hwf.wellFormed _ hmem) (hwf.body_lt _ hmem)
    rw [← hframes.entryTags] at hread
    refine ⟨row.skip entries[k].body.length, ?_, hrow.bytes⟩
    rw [forRange_succ_last, bind_of_ok hrun, Nat.zero_add]
    apply (readTableBody_eq_ok hrow hr₁).mpr
    exact ⟨_, hread, rfl, by rw [List.take_add_one, he]; rfl⟩

/-! ## The whole pickle -/

theorem reads_readHeader {entries : List Entry} (h : entries.length < 2 ^ 32) :
    Reads readHeader (writeNatTo [] MAJOR ++ (writeNatTo [] MINOR ++ countBytes entries))
      ⟨MAJOR, MINOR, entries.length⟩ := by
  apply Reads.bind (reads_nat MAJOR)
  apply Reads.bind (reads_nat MINOR)
  exact (reads_natUsize h).map (Header.mk MAJOR MINOR)

/-- A well-formed table is read back as it was written, in the same order. -/
theorem readPickle_writePickle {entries : List Entry} (hwf : WellFormedTable entries)
    (hbytes : bytes.bytes = writePickle entries) : readPickle bytes =
      .ok ⟨MAJOR, MINOR, entries, tagsOf entries, entries.map fun _ => none⟩ := by
  have hrest : (Reader.new bytes).rest = (writeNatTo [] MAJOR ++ (writeNatTo [] MINOR ++
      countBytes entries)) ++ entries.flatMap Entry.bytes := by
    change bytes.bytes = _
    rw [hbytes, writePickle_eq]
    simp only [List.append_assoc]
  have hheader := reads_readHeader hwf.length_lt (Reader.new bytes) _ hrest
  have hempty : Table.Frames ⟨[], [], []⟩ bytes [] :=
    ⟨⟨rfl, rfl, rfl, by simp⟩, rfl, by simp⟩
  obtain ⟨table, r, htable, hr, hframes⟩ :=
    readTable_of_rest entries [] _ _ hempty rfl (Reader.rest_skip hrest) hwf.body_lt
  obtain ⟨r', hentries, -⟩ :=
    readEntries_of_frames hwf hframes hr entries.length (Nat.le_refl _)
  rw [List.take_length] at hentries
  change Prod.fst <$> (readHeader >>= _) (Reader.new bytes) = _
  rw [bind_of_ok hheader]
  rw [bind_of_ok (p := readTable entries.length) htable,
    bind_of_ok (p := readEntries table entries.length) hentries, hframes.entryTags]
  rfl

/-- A class `C`, private in itself, with a constant and an annotation whose
argument has a name. -/
def sampleTable : List Entry :=
  [.TypeName "C", .NoneSym, .NoTpe, .ClassSym ⟨0, 1, 0x400, some 3, 2⟩ (some 2), .TermName "x",
    .Literal (.Int 300), .SymAnnot 3 ⟨2, [5], [(4, 5)]⟩, .Tree none .Empty,
    .Tree (some 2) (.Apply 7 [7, 7])]

omit [Build] in
theorem sampleTable_wellFormed : WellFormedTable sampleTable where
  refs := by
    simp only [sampleTable, List.forall_mem_cons, Entry.refs, SymInfo.refs, AnnotInfo.refs,
      Tree.refs, Option.toList, List.flatMap, List.cons_append, List.nil_append, List.map_cons,
      List.flatten]
    simp
  wellFormed := by
    have hclass : SymInfo.WellFormed (tagsOf sampleTable) ⟨0, 1, 0x400, some 3, 2⟩ :=
      ⟨fun p hp => by cases hp; rfl, rfl⟩
    have hannot : AnnotInfo.WellFormed (tagsOf sampleTable) ⟨2, [5], [(4, 5)]⟩ := by
      constructor <;> simp <;> rfl
    simp only [sampleTable, List.forall_mem_cons, Entry.WellFormed]
    exact ⟨trivial, trivial, trivial, hclass, trivial, trivial, hannot, by simp, by simp, by simp⟩
  body_lt := by
    have hlen : (sampleTable.all fun e => decide (e.body.length < 2 ^ 32)) = true := by
      decide +kernel
    simpa using hlen
  length_lt := by decide

omit [Build] in
theorem readPickle_writePickle_sample : ∃ bytes : Slice, bytes.bytes = writePickle sampleTable ∧
    @readPickle debugBuild bytes = .ok ⟨MAJOR, MINOR, sampleTable, tagsOf sampleTable,
      sampleTable.map fun _ => none⟩ :=
  ⟨⟨writePickle sampleTable, by decide +kernel⟩, rfl,
    @readPickle_writePickle debugBuild _ _ sampleTable_wellFormed rfl⟩

/-- The information of a symbol is not a symbol, and the positional arguments of
an annotation are not names. -/
def Entry.Unambiguous (tags : List UInt8) : Entry → Prop
  | TypeSym info | AliasSym info | ClassSym info _ | ModuleSym info _ | ValSym info _ =>
    isSymRef tags info.info = false
  | SymAnnot _ annot | AnnotInfo annot => ∀ i ∈ annot.args, isNameEntry tags i = false
  | _ => True

/-- A symbol that is `private` within a name. -/
def misleadingTable : List Entry :=
  [.TermName "a", .NoneSym, .NoTpe, .TypeSym ⟨0, 1, 0, some 0, 2⟩]

omit [Build] in
theorem unambiguous_not_sufficient : ¬ ∀ (entries : List Entry) (bytes : Slice),
    (∀ e ∈ entries, ∀ i ∈ e.refs, i.toNat < entries.length) →
    (∀ e ∈ entries, e.Unambiguous (tagsOf entries)) → bytes.bytes = writePickle entries →
      ∃ pickle, @readPickle debugBuild bytes = .ok pickle ∧ pickle.entries = entries := by
  intro h
  have hunambiguous : ∀ e ∈ misleadingTable, e.Unambiguous (tagsOf misleadingTable) := by
    simp only [misleadingTable, List.forall_mem_cons, Entry.Unambiguous]
    exact ⟨trivial, trivial, trivial, by decide, by simp⟩
  have hrefs : ∀ e ∈ misleadingTable, ∀ i ∈ e.refs, i.toNat < misleadingTable.length := by
    simp [misleadingTable, Entry.refs, SymInfo.refs]
  obtain ⟨pickle, hread, -⟩ := h misleadingTable ⟨writePickle misleadingTable, by decide +kernel⟩
    hrefs hunambiguous rfl
  have hfails : (@readPickle debugBuild ⟨writePickle misleadingTable, by decide +kernel⟩).isOk = false := by
    decide +kernel
  rw [hread] at hfails
  cases hfails

end ScalaRs.Pickling
