import ScalaRs.PickleReader

/-! # Where the pickle reader panics

Every read moves the position forward and keeps it within the pickle. The one
operation that can go wrong is the sign extension of a number without bytes. -/
namespace ScalaRs.Pickling
open CheckedReaders CheckedReaders.CheckedM

/-- The position is within the pickle. -/
def Reader.Within (r : Reader) : Prop := r.pos ≤ r.bytes.length

/-- What reading keeps, and where it leads. -/
structure Reader.Ahead (r r' : Reader) : Prop where
  bytes : r'.bytes = r.bytes
  entry : r'.entry = r.entry
  tag : r'.tag = r.tag
  pos : r.pos ≤ r'.pos

instance : Std.Refl Reader.Ahead where
  refl r := ⟨rfl, rfl, rfl, Nat.le_refl r.pos⟩

instance : IsTrans Reader Reader.Ahead where
  trans _ _ _ h h' := ⟨h'.bytes.trans h.bytes, h'.entry.trans h.entry, h'.tag.trans h.tag,
    Nat.le_trans h.pos h'.pos⟩

/-- A read that does not panic. -/
abbrev SafeRead {α : Type} (p : Read α) : Prop := Safe Reader.Within Reader.Ahead p

variable {α : Type} [Build]

instance safe_err (message : String) : SafeRead (err message : Read α) := by
  rw [err]
  infer_instance

theorem byte_of_lt {r : Reader} {b : UInt8} (h : r.bytes.bytes[r.pos]? = some b) :
    byte r = .ok (b, { r with pos := r.pos + 1 }) := by
  have hlt := (List.getElem?_eq_some_iff.mp h).1
  have hmax := r.bytes.length_lt
  have hread : indexAt r.bytes.bytes r.pos = (pure b : Read UInt8) := by simp [indexAt, h]
  rw [byte, get_bind_apply, if_neg (by simp [Slice.length]; omega), hread, pure_bind_apply, usizeAdd,
    if_pos (by omega)]
  rfl

theorem byte_of_ge {r : Reader} (h : r.bytes.length ≤ r.pos) :
    byte r = .error (.error ⟨r.entry, r.tag, r.pos, "unexpected end of pickle"⟩) := by
  rw [byte, get_bind_apply, if_pos h]
  rfl

/-- A byte that is read moves the position by one. -/
theorem byte_eq_ok {r r' : Reader} {b : UInt8} (h : byte r = .ok (b, r')) :
    r.bytes.bytes[r.pos]? = some b ∧ r' = { r with pos := r.pos + 1 } := by
  cases hb : r.bytes.bytes[r.pos]? with
  | none =>
    rw [byte_of_ge (List.getElem?_eq_none_iff.mp hb)] at h
    cases h
  | some b' =>
    rw [byte_of_lt hb] at h
    cases h
    exact ⟨rfl, rfl⟩

instance safe_byte : SafeRead byte where
  ne_panic r hr h := by
    cases hb : r.bytes.bytes[r.pos]? with
    | none =>
      rw [byte_of_ge (List.getElem?_eq_none_iff.mp hb)] at h
      cases h
    | some b =>
      rw [byte_of_lt hb] at h
      cases h
  moves r b r' hr h := by
    obtain ⟨hb, rfl⟩ := byte_eq_ok h
    have hlt := (List.getElem?_eq_some_iff.mp hb).1
    exact ⟨hlt, ⟨rfl, rfl, rfl, Nat.le_succ r.pos⟩⟩

instance safe_longNatFrom (fuel : ℕ) (x : UInt64) : SafeRead (longNatFrom fuel x) := by
  induction fuel generalizing x with
  | zero => exact safe_err _
  | succ fuel ih =>
    rw [longNatFrom]
    infer_instance

instance safe_longNat : SafeRead longNat := safe_longNatFrom 10 0

instance safe_nat : SafeRead nat := by
  rw [nat]
  infer_instance

instance safe_natUsize : SafeRead natUsize := by
  rw [natUsize]
  infer_instance

instance safe_longBytes (len : ℕ) (x : BitVec 64) : SafeRead (longBytes len x) := by
  induction len generalizing x with
  | zero => exact safe_pure x
  | succ len ih =>
    rw [longBytes]
    infer_instance

instance safe_readRef (n : ℕ) : SafeRead (readRef n) := by
  simp only [readRef, checkRef]
  infer_instance

instance safe_readUntil {β : Type} {body : β → Read β} [∀ acc, SafeRead (body acc)] (fin : ℕ)
    (acc : β) : SafeRead (readUntil fin body acc) := safe_whileDo acc

instance safe_readRefsUntil (fin n : ℕ) : SafeRead (readRefsUntil fin n) := by
  rw [readRefsUntil]
  infer_instance

instance safe_readSymInfo (allTags : List UInt8) (n : ℕ) : SafeRead (readSymInfo allTags n) := by
  rw [readSymInfo]
  infer_instance

instance safe_readAnnotInfo (fin : ℕ) (allTags : List UInt8) (n : ℕ) :
    SafeRead (readAnnotInfo fin allTags n) := by
  have hargs : ∀ info, SafeRead (readAnnotArg allTags n info) := by
    intro info
    rw [readAnnotArg]
    infer_instance
  rw [readAnnotInfo]
  infer_instance

instance safe_readOptRef (fin n : ℕ) : SafeRead (readOptRef fin n) := by
  rw [readOptRef]
  infer_instance

instance safe_readRefs (count n : ℕ) : SafeRead (readRefs count n) := by
  rw [readRefs]
  infer_instance

instance safe_readTree (fin n : ℕ) (t : TreeTag) : SafeRead (readTree fin n t) := by
  have hparamss : ∀ nss, SafeRead (forRange (fun _ vparamss => do
      let np ← natUsize
      return vparamss ++ [← readRefs np n]) 0 nss ([] : List (List Idx))) := by infer_instance
  cases t <;> (rw [readTree]; infer_instance)

instance safe_readTreeOf (fin n : ℕ) (tt : UInt8) : SafeRead (readTreeOf fin n tt) := by
  rw [readTreeOf]
  split <;> infer_instance

instance safe_readTreeEntry (fin n : ℕ) : SafeRead (readTreeEntry fin n) := by
  simp only [readTreeEntry, readTreeType]
  infer_instance

/-! ## Numbers -/

def EntryTag.isNumber : EntryTag → Bool
  | LITERALboolean | LITERALbyte | LITERALshort | LITERALchar | LITERALint | LITERALlong
  | LITERALfloat | LITERALdouble => true
  | _ => false

def EntryTag.isName : EntryTag → Bool
  | TERMname | TYPEname => true
  | _ => false

theorem usizeSub_of_le {a b : ℕ} (h : b ≤ a) : usizeSub a b = pure (a - b) := by
  rw [usizeSub, if_pos h]

theorem shl_of_lt (x : BitVec 64) {n : ℕ} (h : n < 64) : shl x n = pure (x <<< n) := by
  rw [shl, if_pos h]

theorem shr_of_lt (x : BitVec 64) {n : ℕ} (h : n < 64) : shr x n = pure (x.sshiftRight n) := by
  rw [shr, if_pos h]

/-- The sign extension of a number of `len` bytes. -/
def signExtend (len : ℕ) (x : BitVec 64) : BitVec 64 :=
  (x <<< (64 - 8 * len)).sshiftRight (64 - 8 * len)

theorem long_of_pos {len : ℕ} (hpos : 0 < len) (hlen : len ≤ 8) :
    long len = signExtend len <$> longBytes len 0 := by
  have hshift : len <<< 3 = 8 * len := by rw [Nat.shiftLeft_eq, Nat.mul_comm]
  have hsub : usizeSub 64 (8 * len) = pure (64 - 8 * len) := usizeSub_of_le (by omega)
  rw [long, if_neg (by omega), hshift]
  funext r
  simp only [map_eq_pure_bind]
  apply bind_congr_ok
  intro x r' _
  rw [hsub, pure_bind_apply, shl_of_lt x (by omega), pure_bind_apply, shr_of_lt _ (by omega)]
  rfl

theorem safe_long {len : ℕ} (hpos : 0 < len) : SafeRead (long len) := by
  by_cases hlen : len ≤ 8
  · rw [long_of_pos hpos hlen]
    infer_instance
  · rw [long, if_pos (by omega)]
    infer_instance

/-- `64 - (0 << 3)` is no amount to shift by. -/
theorem long_zero (h : Build.overflowChecks) (r : Reader) :
    long 0 r = .error .panic := by
  rw [long, if_neg (by decide)]
  simp only [longBytes, usizeSub_of_le (show 0 <<< 3 ≤ 64 by decide), pure_bind_apply]
  apply bind_of_error
  rw [shl, if_neg (by decide), if_pos h]
  rfl

theorem long_zero_eq_ok {r r' : Reader} {x : BitVec 64} (h : long 0 r = .ok (x, r')) : r' = r := by
  rw [long, if_neg (by decide)] at h
  simp only [longBytes, usizeSub_of_le (show 0 <<< 3 ≤ 64 by decide), pure_bind_apply] at h
  obtain ⟨y, s, hshl, hshr⟩ := bind_eq_ok h
  rw [shl, if_neg (by decide)] at hshl
  rw [shr, if_neg (by decide)] at hshr
  split at hshl
  · cases hshl
  · next hchecks =>
    rw [if_neg hchecks] at hshr
    cases hshl
    cases hshr
    rfl

theorem safe_readBody {t : EntryTag} (hnumber : t.isNumber = false) (hname : t.isName = false)
    (fin : ℕ) (allTags : List UInt8) (n : ℕ) : SafeRead (readBody fin allTags n t) := by
  cases t <;> first
    | (rw [readBody]; infer_instance)
    | simp [EntryTag.isNumber, EntryTag.isName] at hnumber hname

/-- The constant a number is read as. -/
def EntryTag.constant : EntryTag → BitVec 64 → Constant
  | LITERALboolean, x => .Boolean (x != 0)
  | LITERALbyte, x => .Byte (x.setWidth 8)
  | LITERALshort, x => .Short (x.setWidth 16)
  | LITERALchar, x => .Char (x.setWidth 32 &&& 0xffff)
  | LITERALint, x => .Int (x.setWidth 32)
  | LITERALfloat, x => .Float (x.setWidth 32)
  | LITERALdouble, x => .Double x
  | _, x => .Long x

theorem readBody_number {t : EntryTag} (h : t.isNumber) (fin : ℕ) (allTags : List UInt8) (n : ℕ) :
    readBody fin allTags n t = (fun x => .Literal (t.constant x)) <$> readLong fin := by
  cases t <;> first | rfl | simp [EntryTag.isNumber] at h

theorem readLong_of_le {fin : ℕ} {r : Reader} (h : r.pos ≤ fin) :
    readLong fin r = long (fin - r.pos) r := by
  rw [readLong, get_bind_apply, usizeSub_of_le h, pure_bind_apply]

theorem readBody_name {t : EntryTag} (h : t.isName) {fin : ℕ} (allTags : List UInt8) (n : ℕ)
    {r : Reader} (hpos : r.pos ≤ fin) (hfin : fin ≤ r.bytes.length) :
    ∃ e, readBody fin allTags n t r = .ok (e, { r with pos := fin }) := by
  have hslice : sliceOf r.bytes r.pos fin = pure ((r.bytes.bytes.take fin).drop r.pos) := by
    rw [sliceOf, if_pos ⟨hpos, hfin⟩]
  cases t <;> first
    | exact ⟨_, by rw [readBody, readName]; simp only [bind_assoc, get_bind_apply, hslice]; rfl⟩
    | simp [EntryTag.isName] at h

/-! ## Entries -/

theorem readEntry_of_code {t : EntryTag} {r : Reader} (h : EntryTag.ofCode r.tag = some t) (fin : ℕ)
    (allTags : List UInt8) (n : ℕ) : readEntry fin allTags n r = readBody fin allTags n t r := by
  rw [readEntry, get_bind_apply, h]

theorem readBody_number_apply {t : EntryTag} (h : t.isNumber) {fin : ℕ} {r : Reader}
    (hpos : r.pos ≤ fin) (allTags : List UInt8) (n : ℕ) : readBody fin allTags n t r =
      ((fun x => Entry.Literal (t.constant x)) <$> long (fin - r.pos)) r := by
  rw [readBody_number h]
  exact map_congr (readLong_of_le hpos)

/-- An entry is read ahead, and without a panic unless it is a number without bytes. -/
theorem readEntry_spec {fin : ℕ} {r : Reader} (hpos : r.pos ≤ fin) (hfin : fin ≤ r.bytes.length)
    (allTags : List UInt8) (n : ℕ) :
    (∀ e r', readEntry fin allTags n r = .ok (e, r') → r.Ahead r') ∧
      ((∀ t, EntryTag.ofCode r.tag = some t → t.isNumber → r.pos ≠ fin) →
        readEntry fin allTags n r ≠ .error .panic) := by
  have hwithin : r.Within := Nat.le_trans hpos hfin
  have hsafe : ∀ p : Read Entry, SafeRead p →
      (∀ e r', p r = .ok (e, r') → r.Ahead r') ∧ p r ≠ .error .panic :=
    fun p hp => ⟨fun e r' h => (hp.moves r e r' hwithin h).2, hp.ne_panic r hwithin⟩
  cases hcode : EntryTag.ofCode r.tag with
  | none =>
    have herr : readEntry fin allTags n r = err s!"unknown pickle tag {r.tag}" r := by
      rw [readEntry, get_bind_apply, hcode]
    rw [herr]
    have h := hsafe _ (safe_err s!"unknown pickle tag {r.tag}")
    exact ⟨h.1, fun _ => h.2⟩
  | some t =>
    rw [readEntry_of_code hcode]
    by_cases hnum : t.isNumber
    · rw [readBody_number_apply hnum hpos]
      by_cases hempty : r.pos = fin
      · constructor
        · intro e r' h
          rw [hempty, Nat.sub_self] at h
          obtain ⟨x, hlong, -⟩ := map_eq_ok h
          rw [long_zero_eq_ok hlong]
          exact Std.Refl.refl r
        · intro hnumber
          exact absurd hempty (hnumber t rfl hnum)
      · have hlong := safe_long (show 0 < fin - r.pos by omega)
        have h := hsafe ((fun x => Entry.Literal (t.constant x)) <$> long (fin - r.pos))
          inferInstance
        exact ⟨h.1, fun _ => h.2⟩
    · by_cases hname : t.isName
      · obtain ⟨e, he⟩ := readBody_name hname allTags n hpos hfin
        rw [he]
        constructor
        · intro e' r' h
          cases h
          exact ⟨rfl, rfl, rfl, hpos⟩
        · intro _ h
          cases h
      · have h := hsafe _ (safe_readBody (by simpa using hnum) (by simpa using hname) fin allTags n)
        exact ⟨h.1, fun _ => h.2⟩

/-- With overflow checks, a number without bytes panics. -/
theorem readEntry_empty_number (hchecks : Build.overflowChecks) {r : Reader} {t : EntryTag}
    (hcode : EntryTag.ofCode r.tag = some t) (hnum : t.isNumber) (allTags : List UInt8) (n : ℕ) :
    readEntry r.pos allTags n r = .error .panic := by
  rw [readEntry_of_code hcode, readBody_number_apply hnum (Nat.le_refl _), Nat.sub_self]
  exact map_of_error (long_zero hchecks r)

/-! ## The table -/

/-- Row `i` of the table: the reader at the start of that entry, and its end. -/
structure Table.Row (table : Table) (bytes : Slice) (i : ℕ) (r : Reader) (fin : ℕ) : Prop where
  offset : table.offsets[i]? = some r.pos
  tag : table.entryTags[i]? = some r.tag
  fin : table.ends[i]? = some fin
  bytes : r.bytes = bytes
  entry : r.entry = i

/-- A table of `k` entries that lie within the pickle. -/
structure Table.Fits (table : Table) (bytes : Slice) (k : ℕ) : Prop where
  offsets : table.offsets.length = k
  entryTags : table.entryTags.length = k
  ends : table.ends.length = k
  within : ∀ (i : ℕ) (offset fin : ℕ), table.offsets[i]? = some offset →
    table.ends[i]? = some fin → offset ≤ fin ∧ fin ≤ bytes.length

omit [Build] in
theorem Table.Fits.row {table : Table} {bytes : Slice} {k i : ℕ} (h : table.Fits bytes k)
    (hi : i < k) : ∃ r fin, table.Row bytes i r fin := by
  have hoffset : i < table.offsets.length := by rw [h.offsets]; exact hi
  have htag : i < table.entryTags.length := by rw [h.entryTags]; exact hi
  have hfin : i < table.ends.length := by rw [h.ends]; exact hi
  exact ⟨⟨bytes, table.offsets[i], i, table.entryTags[i]⟩, table.ends[i],
    List.getElem?_eq_getElem hoffset, List.getElem?_eq_getElem htag, List.getElem?_eq_getElem hfin,
    rfl, rfl⟩

/-- The table with one more row. -/
def Table.push (table : Table) (start : ℕ) (tag : UInt8) (fin : ℕ) : Table :=
  ⟨table.offsets ++ [start], table.entryTags ++ [tag], table.ends ++ [fin]⟩

omit [Build] in
theorem Table.Fits.push {table : Table} {bytes : Slice} {k start fin : ℕ}
    (h : table.Fits bytes k) (tag : UInt8) (hstart : start ≤ fin) (hfin : fin ≤ bytes.length) :
    (table.push start tag fin).Fits bytes (k + 1) where
  offsets := by simp [Table.push, h.offsets]
  entryTags := by simp [Table.push, h.entryTags]
  ends := by simp [Table.push, h.ends]
  within i offset fin' hoffset hfin' := by
    simp only [Table.push, List.getElem?_append, h.offsets, h.ends] at hoffset hfin'
    split at hoffset
    · next hi =>
      rw [if_pos hi] at hfin'
      exact h.within i offset fin' hoffset hfin'
    · next hi =>
      rw [if_neg hi] at hfin'
      obtain ⟨-, rfl⟩ : i - k = 0 ∧ start = offset := by simpa [List.getElem?_singleton] using hoffset
      obtain ⟨-, rfl⟩ : i - k = 0 ∧ fin = fin' := by simpa [List.getElem?_singleton] using hfin'
      exact ⟨hstart, hfin⟩

/-- What one iteration of the first pass does. -/
theorem readTableEntry_eq_ok {i : ℕ} {table table' : Table} {r r' : Reader}
    (h : readTableEntry i table r = .ok (table', r')) : ∃ tag len r₁ r₂,
      byte { r with entry := i, tag := 0 } = .ok (tag, r₁) ∧
      natUsize { r₁ with tag := tag } = .ok (len, r₂) ∧ r₂.pos + len ≤ r₂.bytes.length ∧
      table' = table.push r₂.pos tag (r₂.pos + len) ∧ r' = { r₂ with pos := r₂.pos + len } := by
  rw [readTableEntry, modify_bind_apply] at h
  obtain ⟨tag, r₁, hbyte, h⟩ := bind_eq_ok h
  rw [modify_bind_apply] at h
  obtain ⟨len, r₂, hnat, h⟩ := bind_eq_ok h
  rw [get_bind_apply] at h
  split at h
  · next hfits =>
    cases h
    exact ⟨tag, len, r₁, r₂, hbyte, hnat, hfits.2, rfl, rfl⟩
  · cases h

theorem readTableEntry_ne_panic {r : Reader} (hr : r.Within) (i : ℕ) (table : Table) :
    readTableEntry i table r ≠ .error .panic := by
  rw [readTableEntry, modify_bind_apply]
  intro h
  rcases bind_eq_panic h with h | ⟨tag, r₁, hbyte, h⟩
  · exact safe_byte.ne_panic { r with entry := i, tag := 0 } hr h
  · have hfirst := (safe_byte.moves { r with entry := i, tag := 0 } tag r₁ hr hbyte).1
    rw [modify_bind_apply] at h
    rcases bind_eq_panic h with h | ⟨len, r₂, hnat, h⟩
    · exact safe_natUsize.ne_panic { r₁ with tag := tag } hfirst h
    · rw [get_bind_apply] at h
      split at h <;> cases h

theorem readTableEntry_spec {bytes : Slice} {k : ℕ} {table : Table} {r : Reader}
    (hr : r.Within ∧ r.bytes = bytes ∧ table.Fits bytes k) (i : ℕ) :
    readTableEntry i table r ≠ .error .panic ∧
      ∀ table' r', readTableEntry i table r = .ok (table', r') →
        r'.Within ∧ r'.bytes = bytes ∧ table'.Fits bytes (k + 1) := by
  refine ⟨readTableEntry_ne_panic hr.1 i table, fun table' r' h => ?_⟩
  obtain ⟨tag, len, r₁, r₂, hbyte, hnat, hfits, rfl, rfl⟩ := readTableEntry_eq_ok h
  have hfirst := safe_byte.moves { r with entry := i, tag := 0 } tag r₁ hr.1 hbyte
  have hsecond := safe_natUsize.moves { r₁ with tag := tag } len r₂ hfirst.1 hnat
  have hbytes : r₂.bytes = bytes := (hsecond.2.bytes.trans hfirst.2.bytes).trans hr.2.1
  rw [hbytes] at hfits
  refine ⟨?_, hbytes, hr.2.2.push tag (Nat.le_add_right _ _) hfits⟩
  rw [← hbytes] at hfits
  exact hfits

theorem readTable_spec {r : Reader} (hr : r.Within) (n : ℕ) :
    readTable n r ≠ .error .panic ∧ ∀ table r', readTable n r = .ok (table, r') →
      r'.Within ∧ r'.bytes = r.bytes ∧ table.Fits r.bytes n := by
  have hstart : r.Within ∧ r.bytes = r.bytes ∧ Table.Fits ⟨[], [], []⟩ r.bytes 0 :=
    ⟨hr, rfl, rfl, rfl, rfl, by simp⟩
  have hrun := forRange_spec (P := fun k (table : Table) (s : Reader) =>
    s.Within ∧ s.bytes = r.bytes ∧ Table.Fits table r.bytes k) n hstart
    fun k table s _ _ h => readTableEntry_spec h k
  simpa [readTable] using hrun

theorem readTableBody_of_row {table : Table} {bytes : Slice} {i fin : ℕ} {r s : Reader}
    (hrow : table.Row bytes i r fin) (hs : s.bytes = bytes) (n : ℕ) (entries : List Entry) :
    readTableBody table n i entries s = (readEntry fin table.entryTags n >>= fun e => do
      let r' ← get
      if r'.pos ≠ fin then
        let consumed ← usizeSub r'.pos r.pos
        let length ← usizeSub fin r.pos
        err s!"entry body not fully consumed ({consumed} of {length} bytes)"
      else return entries ++ [e]) r := by
  have htag : indexAt table.entryTags i = (pure r.tag : Read UInt8) := by rw [indexAt, hrow.tag]
  have hoffset : indexAt table.offsets i = (pure r.pos : Read ℕ) := by rw [indexAt, hrow.offset]
  have hfin : indexAt table.ends i = (pure fin : Read ℕ) := by rw [indexAt, hrow.fin]
  have hstart : { s with entry := i, tag := r.tag, pos := r.pos } = r := by
    rw [← hrow.entry, hs, ← hrow.bytes]
  rw [readTableBody, modify_bind_apply, htag, pure_bind_apply, modify_bind_apply, hoffset,
    pure_bind_apply, modify_bind_apply, hfin, pure_bind_apply]
  dsimp only
  rw [hstart]

theorem readTableBody_eq_ok {table : Table} {bytes : Slice} {i fin : ℕ} {r s s' : Reader}
    (hrow : table.Row bytes i r fin) (hs : s.bytes = bytes) {n : ℕ} {entries entries' : List Entry} :
    readTableBody table n i entries s = .ok (entries', s') ↔
      ∃ e, readEntry fin table.entryTags n r = .ok (e, s') ∧ s'.pos = fin ∧
        entries' = entries ++ [e] := by
  rw [readTableBody_of_row hrow hs]
  constructor
  · intro h
    obtain ⟨e, r', hentry, h⟩ := bind_eq_ok h
    rw [get_bind_apply] at h
    split at h
    · obtain ⟨consumed, r₁, -, h⟩ := bind_eq_ok h
      obtain ⟨length, r₂, -, h⟩ := bind_eq_ok h
      cases h
    · next hpos =>
      cases h
      exact ⟨e, hentry, Decidable.not_not.mp hpos, rfl⟩
  · rintro ⟨e, hentry, hpos, rfl⟩
    rw [bind_of_ok hentry, get_bind_apply, if_neg (Decidable.not_not.mpr hpos)]
    rfl

theorem readTableBody_eq_panic {table : Table} {bytes : Slice} {i fin : ℕ} {r s : Reader}
    (hrow : table.Row bytes i r fin) (hs : s.bytes = bytes) (hpos : r.pos ≤ fin)
    (hfin : fin ≤ bytes.length) {n : ℕ} {entries : List Entry} :
    readTableBody table n i entries s = .error .panic ↔
      readEntry fin table.entryTags n r = .error .panic := by
  rw [readTableBody_of_row hrow hs]
  constructor
  · intro h
    rcases bind_eq_panic h with h | ⟨e, r', hentry, h⟩
    · exact h
    · have hahead := (readEntry_spec hpos (by rw [hrow.bytes]; exact hfin) _ n).1 e r' hentry
      rw [get_bind_apply] at h
      split at h
      · rw [usizeSub_of_le hahead.pos, pure_bind_apply, usizeSub_of_le hpos, pure_bind_apply] at h
        cases h
      · cases h
  · intro h
    rw [bind_of_error h]

/-! ## The whole pickle -/

/-- Header and table. -/
def readTables : Read (Header × Table) := do
  let header ← readHeader
  let table ← readTable header.nentries
  return (header, table)

/-- Entry `i` is well formed: it is read, up to its end. -/
def Table.EntryRead (table : Table) (bytes : Slice) (n i : ℕ) : Prop :=
  ∃ r fin e r', table.Row bytes i r fin ∧ readEntry fin table.entryTags n r = .ok (e, r') ∧
    r'.pos = fin

omit [Build] in
/-- Entry `i` is a number without bytes. -/
def Table.EmptyNumber (table : Table) (bytes : Slice) (i : ℕ) : Prop :=
  ∃ r fin t, table.Row bytes i r fin ∧ EntryTag.ofCode r.tag = some t ∧ t.isNumber ∧ r.pos = fin

/-- Header and table are well formed, and so are the entries before one that is
a number without bytes. -/
def ReachesEmptyNumber (bytes : Slice) : Prop :=
  ∃ header table r, readTables (Reader.new bytes) = .ok ((header, table), r) ∧
    ∃ i < header.nentries, table.EmptyNumber bytes i ∧
      ∀ j < i, table.EntryRead bytes header.nentries j

instance safe_readHeader : SafeRead readHeader := by
  rw [readHeader]
  infer_instance

theorem readTables_spec (bytes : Slice) :
    readTables (Reader.new bytes) ≠ .error .panic ∧ ∀ header table r,
      readTables (Reader.new bytes) = .ok ((header, table), r) →
        r.bytes = bytes ∧ table.Fits bytes header.nentries := by
  have hstart : (Reader.new bytes).Within := Nat.zero_le _
  constructor
  · intro h
    rcases bind_eq_panic h with h | ⟨header, r₁, hheader, h⟩
    · exact safe_readHeader.ne_panic _ hstart h
    · have hfirst := safe_readHeader.moves _ header r₁ hstart hheader
      rcases bind_eq_panic h with h | ⟨table, r₂, htable, h⟩
      · exact (readTable_spec hfirst.1 _).1 h
      · cases h
  · intro header table r h
    obtain ⟨header', r₁, hheader, h⟩ := bind_eq_ok h
    obtain ⟨table', r₂, htable, h⟩ := bind_eq_ok h
    cases h
    have hfirst := safe_readHeader.moves _ header r₁ hstart hheader
    have hspec := (readTable_spec hfirst.1 _).2 table r htable
    have hbytes : r₁.bytes = bytes := hfirst.2.bytes
    rw [hbytes] at hspec
    exact ⟨hspec.2.1, hspec.2.2⟩

omit [Build] in
theorem Table.Row.unique {table : Table} {bytes : Slice} {i fin fin' : ℕ} {r r' : Reader}
    (h : table.Row bytes i r fin) (h' : table.Row bytes i r' fin') : r = r' ∧ fin = fin' := by
  obtain ⟨b, pos, entry, tag⟩ := r
  obtain ⟨b', pos', entry', tag'⟩ := r'
  have hpos : pos = pos' := Option.some.inj (h.offset.symm.trans h'.offset)
  have htag : tag = tag' := Option.some.inj (h.tag.symm.trans h'.tag)
  have hbytes : b = b' := h.bytes.trans h'.bytes.symm
  have hentry : entry = entry' := h.entry.trans h'.entry.symm
  exact ⟨by rw [hpos, htag, hbytes, hentry], Option.some.inj (h.fin.symm.trans h'.fin)⟩

/-- The entries a run of the second pass has read. -/
theorem readEntries_spec {table : Table} {bytes : Slice} {n : ℕ} (hfits : table.Fits bytes n)
    {r : Reader} (hr : r.bytes = bytes) (k : ℕ) (hk : k ≤ n) : ∀ entries r',
    forRange (readTableBody table n) 0 k [] r = .ok (entries, r') →
      r'.bytes = bytes ∧ entries.length = k ∧ ∀ j < k, ∃ row fin e s, table.Row bytes j row fin ∧
        readEntry fin table.entryTags n row = .ok (e, s) ∧ s.pos = fin ∧ entries[j]? = some e := by
  induction k with
  | zero =>
    intro entries r' h
    cases h
    exact ⟨hr, rfl, fun j hj => absurd hj (Nat.not_lt_zero j)⟩
  | succ k ih =>
    intro entries r' h
    rw [forRange_succ_last] at h
    obtain ⟨entries₁, r₁, hrun, hbody⟩ := bind_eq_ok h
    obtain ⟨hbytes, hlen, hentries⟩ := ih (by omega) entries₁ r₁ hrun
    obtain ⟨row, fin, hrow⟩ := hfits.row (show k < n by omega)
    rw [Nat.zero_add] at hbody
    obtain ⟨e, hentry, hpos, rfl⟩ := (readTableBody_eq_ok hrow hbytes).mp hbody
    have hwithin := hfits.within k _ _ hrow.offset hrow.fin
    have hahead := (readEntry_spec hwithin.1 (by rw [hrow.bytes]; exact hwithin.2) _ n).1 e r' hentry
    refine ⟨hahead.bytes.trans hrow.bytes, by simp [hlen], fun j hj => ?_⟩
    by_cases hjk : j < k
    · obtain ⟨row', fin', e', s, hrow', hentry', hpos', he'⟩ := hentries j hjk
      refine ⟨row', fin', e', s, hrow', hentry', hpos', ?_⟩
      rw [List.getElem?_append_left (by omega), he']
    · obtain rfl : j = k := by omega
      refine ⟨row, fin, e, r', hrow, hentry, hpos, ?_⟩
      rw [← hlen, List.getElem?_concat_length]

/-- The first `k` entries are read if each of them is well formed. -/
theorem readEntries_of_read {table : Table} {bytes : Slice} {n : ℕ} (hfits : table.Fits bytes n)
    {r : Reader} (hr : r.bytes = bytes) (k : ℕ) (hk : k ≤ n)
    (hread : ∀ j < k, table.EntryRead bytes n j) :
    ∃ entries r', forRange (readTableBody table n) 0 k [] r = .ok (entries, r') := by
  induction k with
  | zero => exact ⟨[], r, rfl⟩
  | succ k ih =>
    obtain ⟨entries, r', hrun⟩ := ih (by omega) fun j hj => hread j (by omega)
    have hbytes := (readEntries_spec hfits hr k (by omega) entries r' hrun).1
    obtain ⟨row, fin, e, s, hrow, hentry, hpos⟩ := hread k (Nat.lt_succ_self k)
    refine ⟨entries ++ [e], s, ?_⟩
    rw [forRange_succ_last, bind_of_ok hrun, Nat.zero_add]
    exact (readTableBody_eq_ok hrow hbytes).mpr ⟨e, hentry, hpos, rfl⟩

theorem readPickle_eq_panic {bytes : Slice} : readPickle bytes = .error .panic ↔
    ∃ header table r, readTables (Reader.new bytes) = .ok ((header, table), r) ∧
      readEntries table header.nentries r = .error .panic := by
  have hprogram : readPickle bytes = Prod.fst <$> ((readTables >>= fun tables =>
      readEntries tables.2 tables.1.nentries >>= fun entries =>
        (pure ⟨tables.1.major, tables.1.minor, entries, tables.2.entryTags,
          entries.map fun _ => none⟩ : Read Pickle)) (Reader.new bytes)) := by
    simp only [readPickle, readTables, bind_assoc, pure_bind]
  rw [hprogram]
  constructor
  · intro h
    have hrun : ∀ {result : Except (Stop ReadError) (Pickle × Reader)},
        Prod.fst <$> result = .error .panic → result = .error .panic := by
      intro result h
      cases result with
      | error e => cases h; rfl
      | ok r => cases h
    rcases bind_eq_panic (hrun h) with h | ⟨⟨header, table⟩, r, htables, h⟩
    · exact absurd h (readTables_spec bytes).1
    · rcases bind_eq_panic h with h | ⟨entries, r', -, h⟩
      · exact ⟨header, table, r, htables, h⟩
      · cases h
  · rintro ⟨header, table, r, htables, h⟩
    rw [bind_of_ok htables, bind_of_error h]
    rfl

/-- With overflow checks the reader panics on the pickles that reach a number
without bytes, and on no others. -/
theorem readPickle_panics_iff (hchecks : Build.overflowChecks) (bytes : Slice) :
    readPickle bytes = .error .panic ↔ ReachesEmptyNumber bytes := by
  rw [readPickle_eq_panic]
  constructor
  · rintro ⟨header, table, r, htables, h⟩
    obtain ⟨hr, hfits⟩ := (readTables_spec bytes).2 header table r htables
    obtain ⟨k, hk, entries, s, hrun, hpanic⟩ := (forRange_panics_iff _).mp h
    obtain ⟨hs, -, hentries⟩ := readEntries_spec hfits hr k (by omega) entries s hrun
    obtain ⟨row, fin, hrow⟩ := hfits.row hk
    have hwithin := hfits.within k _ _ hrow.offset hrow.fin
    rw [Nat.zero_add, readTableBody_eq_panic hrow hs hwithin.1 hwithin.2] at hpanic
    refine ⟨header, table, r, htables, k, hk, ?_, fun j hj => ?_⟩
    · apply Classical.byContradiction
      intro hempty
      apply (readEntry_spec hwithin.1 (by rw [hrow.bytes]; exact hwithin.2) _ _).2 _ hpanic
      intro t hcode hnum hpos
      exact hempty ⟨row, fin, t, hrow, hcode, hnum, hpos⟩
    · obtain ⟨row', fin', e, s', hrow', hentry, hpos, -⟩ := hentries j hj
      exact ⟨row', fin', e, s', hrow', hentry, hpos⟩
  · rintro ⟨header, table, r, htables, k, hk, ⟨row, fin, t, hrow, hcode, hnum, hpos⟩, hread⟩
    obtain ⟨hr, hfits⟩ := (readTables_spec bytes).2 header table r htables
    obtain ⟨entries, s, hrun⟩ := readEntries_of_read hfits hr k (by omega) hread
    have hs := (readEntries_spec hfits hr k (by omega) entries s hrun).1
    have hwithin := hfits.within k _ _ hrow.offset hrow.fin
    refine ⟨header, table, r, htables, (forRange_panics_iff _).mpr ⟨k, hk, entries, s, hrun, ?_⟩⟩
    rw [Nat.zero_add, readTableBody_eq_panic hrow hs hwithin.1 hwithin.2, ← hpos]
    exact readEntry_empty_number hchecks hcode hnum _ _

/-- A build whose overflow checks report every operation that goes wrong. -/
abbrev debugBuild : Build := ⟨true⟩

omit [Build] in
/-- Nothing goes wrong exactly where no number without bytes is reached. -/
theorem readPickle_safe_iff (bytes : Slice) :
    @readPickle debugBuild bytes ≠ .error .panic ↔ ¬ @ReachesEmptyNumber debugBuild bytes :=
  not_congr (@readPickle_panics_iff debugBuild rfl bytes)

omit [Build] in
/-- One `Int` constant whose length is zero. -/
theorem readPickle_panics_on_empty_int :
    ¬ ∀ bytes : Slice, @readPickle debugBuild bytes ≠ .error .panic := by
  intro h
  exact h ⟨[5, 2, 1, 29, 0], by decide⟩ rfl

end ScalaRs.Pickling
