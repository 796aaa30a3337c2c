import ScalaRs.ClassEmission
import ScalaRs.ClassfileReading

/-! # Annotations, written and read

The bytes of an annotation refer to its strings. Which annotation the reader
takes for the signature depends only on what these strings are read back as. -/
namespace ScalaRs.Classfile
open ModifiedUtf8 ClassfileCursors

/-- What a string is read back as. -/
def readBack (s : String) : Option String := modifiedUtf8ToString (modifiedUtf8Bytes s)

/-! ## What is written -/

section
variable (index : PoolKey → Option ℕ)

mutual
def Annotation.Encodes : Annotation → List UInt8 → Prop
  | ⟨desc, _, elems⟩, bs => ∃ d body, index (.utf8 desc) = some d ∧ EncodesElems elems body ∧
    bs = be2 d ++ be2 elems.length ++ body

def EncodesElems : List (String × ElementValue) → List UInt8 → Prop
  | [], bs => bs = []
  | (name, value) :: elems, bs => ∃ n v rest, index (.utf8 name) = some n ∧ value.Encodes v ∧
    EncodesElems elems rest ∧ bs = be2 n ++ v ++ rest

/-- The bytes of an element value. -/
def ElementValue.Encodes : ElementValue → List UInt8 → Prop
  | .Int tag _, bs => ∃ i, bs = tag.byte :: be2 i
  | .Long _, bs => ∃ i, bs = 74 :: be2 i
  | .Float _, bs => ∃ i, bs = 70 :: be2 i
  | .Double _, bs => ∃ i, bs = 68 :: be2 i
  | .Str s, bs => ∃ i, index (.utf8 s) = some i ∧ bs = 115 :: be2 i
  | .Enum _ _, bs => ∃ d n, bs = 101 :: be2 d ++ be2 n
  | .Class _, bs => ∃ i, bs = 99 :: be2 i
  | .Annot a, bs => ∃ body, a.Encodes body ∧ bs = 64 :: body
  | .Array items, bs => ∃ body, EncodesItems items body ∧ bs = 91 :: be2 items.length ++ body

def EncodesItems : List ElementValue → List UInt8 → Prop
  | [], bs => bs = []
  | item :: items, bs => ∃ v rest, item.Encodes v ∧ EncodesItems items rest ∧ bs = v ++ rest
end

def EncodesAnnotations : List Annotation → List UInt8 → Prop
  | [], bs => bs = []
  | a :: annots, bs => ∃ body rest, a.Encodes index body ∧ EncodesAnnotations annots rest ∧
    bs = body ++ rest

end

mutual
/-- No count in an annotation exceeds a `u16`. -/
def Annotation.Fits : Annotation → Prop
  | ⟨_, _, elems⟩ => elems.length < 65536 ∧ FitElems elems

def FitElems : List (String × ElementValue) → Prop
  | [] => True
  | (_, value) :: elems => value.Fits ∧ FitElems elems

def ElementValue.Fits : ElementValue → Prop
  | .Annot a => a.Fits
  | .Array items => items.length < 65536 ∧ FitItems items
  | .Int _ _ | .Long _ | .Float _ | .Double _ | .Str _ | .Enum _ _ | .Class _ => True

def FitItems : List ElementValue → Prop
  | [] => True
  | item :: items => item.Fits ∧ FitItems items
end

/-! ## What is read -/

mutual
def Annotation.content : Annotation → Option String
  | ⟨_, _, elems⟩ => contentOfElems elems

def contentOfElems : List (String × ElementValue) → Option String
  | [] => some ""
  | (_, value) :: elems => do
    let s ← value.content
    let rest ← contentOfElems elems
    pure (s ++ rest)

/-- The string constants of an element value, in one, unless one of them is not
read back. -/
def ElementValue.content : ElementValue → Option String
  | .Str s => readBack s
  | .Annot a => a.content
  | .Array items => contentOfItems items
  | .Int _ _ | .Long _ | .Float _ | .Double _ | .Enum _ _ | .Class _ => some ""

def contentOfItems : List ElementValue → Option String
  | [] => some ""
  | item :: items => do
    let s ← item.content
    let rest ← contentOfItems items
    pure (s ++ rest)
end

/-- The last element named `bytes` in front of these, or among them. -/
def foundAmong (isSig : Bool) : List (String × ElementValue) → Option String →
    Option (Option String)
  | [], found => some found
  | (name, value) :: elems, found => do
    let s ← value.content
    foundAmong isSig elems (if isSig ∧ (readBack name).getD "" = "bytes" then some s else found)

/-- The `bytes` of an annotation that looks like a signature. -/
def Annotation.signature (a : Annotation) : Option (Option String) :=
  foundAmong (isSignature ((readBack a.desc).getD "")) a.elems none

/-- The `bytes` of the first annotation that looks like a signature. -/
def firstSignature : List Annotation → Option (Option String)
  | [] => some none
  | a :: annots => do
    let found ← a.signature
    match found with
    | some s => pure (some s)
    | none => firstSignature annots

/-! ## Reading what is written -/

/-- A constant pool in which the known strings are read back. -/
def Cp.Reads (cp : Cp) (index : PoolKey → Option ℕ) : Prop :=
  ∀ s i, index (.utf8 s) = some i → i < 65536 ∧ cp.utf8 i = readBack s

variable {cp : Cp} {index : PoolKey → Option ℕ}

theorem Cp.Reads.parses (hcp : cp.Reads index) {s : String} {i : ℕ}
    (hi : index (.utf8 s) = some i) : Parses Cursor.u2 (be2 i) i := parses_u2 (hcp s i hi).1

/-- A value of one index. -/
theorem readElementValue_one {tag : UInt8} (htag : tag ∈ [66, 67, 73, 83, 90, 70, 68, 74, 99])
    (fuel i : ℕ) : ReadsAs (readElementValue cp (fuel + 1)) (tag :: be2 i) (some "") := by
  obtain ⟨n, hread⟩ := exists_parses_be2 i
  have hstr : tag ≠ 115 := by
    intro h
    rw [h] at htag
    revert htag
    decide
  rw [readElementValue]
  apply readsAs_u1_bind
  rw [if_neg hstr, if_pos htag]
  apply hread.then
  exact Parses.pure _

theorem IntTag.byte_mem (tag : IntTag) : tag.byte ∈ [66, 67, 73, 83, 90, 70, 68, 74, 99] := by
  cases tag <;> decide

/-- An annotation, behind its tag or not. -/
theorem reads_pairs {n d : ℕ} (hn : n < 65536) {p : Cursor String} {body : List UInt8}
    {a : Option String} (h : ReadsAs (concatTimes n p) body a) :
    ReadsAs (do
      let _ ← Cursor.u2
      let npairs ← Cursor.u2
      concatTimes npairs p) (be2 d ++ be2 n ++ body) a := by
  obtain ⟨m, hd⟩ := exists_parses_be2 d
  rw [List.append_assoc]
  apply hd.bind_readsAs
  exact (parses_u2 hn).bind_readsAs h

section
variable (hcp : cp.Reads index)
include hcp

mutual
theorem readElementValue_reads : ∀ (v : ElementValue), v.Fits → ∀ {bs : List UInt8},
    v.Encodes index bs → ∀ {fuel : ℕ}, bs.length ≤ fuel →
    ReadsAs (readElementValue cp fuel) bs v.content
  | .Int tag _, _, _, ⟨i, rfl⟩, _ + 1, _ => readElementValue_one tag.byte_mem _ i
  | .Long _, _, _, ⟨i, rfl⟩, _ + 1, _ => readElementValue_one (by decide) _ i
  | .Float _, _, _, ⟨i, rfl⟩, _ + 1, _ => readElementValue_one (by decide) _ i
  | .Double _, _, _, ⟨i, rfl⟩, _ + 1, _ => readElementValue_one (by decide) _ i
  | .Class _, _, _, ⟨i, rfl⟩, _ + 1, _ => readElementValue_one (by decide) _ i
  | .Str s, _, _, ⟨i, hi, rfl⟩, fuel + 1, _ => by
    rw [readElementValue]
    apply readsAs_u1_bind
    rw [if_pos rfl]
    intro rest
    rw [(hcp.parses hi).bind_run, (hcp s i hi).2, ElementValue.content]
    cases readBack s <;> rfl
  | .Enum desc name, _, _, ⟨d, n, rfl⟩, fuel + 1, _ => by
    obtain ⟨_, hd⟩ := exists_parses_be2 d
    obtain ⟨_, hn⟩ := exists_parses_be2 n
    rw [readElementValue]
    apply readsAs_u1_bind
    rw [if_neg (by decide), if_neg (by decide), if_pos rfl]
    apply hd.bind_readsAs
    apply hn.then
    exact Parses.pure _
  | .Annot ⟨desc, _, elems⟩, hfits, _, ⟨_, ⟨d, body, _, hbody, rfl⟩, rfl⟩, fuel + 1, hfuel => by
    have hlen : body.length ≤ fuel := by
      simp only [List.length_cons, List.length_append, length_be2] at hfuel
      omega
    rw [readElementValue]
    apply readsAs_u1_bind
    rw [if_neg (by decide), if_neg (by decide), if_neg (by decide), if_pos rfl]
    exact reads_pairs hfits.1 (concatTimes_elems elems hfits.2 hbody hlen)
  | .Array items, hfits, _, ⟨body, hbody, rfl⟩, fuel + 1, hfuel => by
    have hlen : body.length ≤ fuel := by
      simp only [List.length_cons, List.length_append, length_be2] at hfuel
      omega
    rw [readElementValue]
    apply readsAs_u1_bind
    rw [if_neg (by decide), if_neg (by decide), if_neg (by decide), if_neg (by decide), if_pos rfl]
    apply (parses_u2 hfits.1).bind_readsAs
    exact concatTimes_items items hfits.2 hbody hlen

theorem concatTimes_elems : ∀ (elems : List (String × ElementValue)), FitElems elems →
    ∀ {bs : List UInt8}, EncodesElems index elems bs → ∀ {fuel : ℕ}, bs.length ≤ fuel →
    ReadsAs (concatTimes elems.length do
      let _ ← Cursor.u2
      readElementValue cp fuel) bs (contentOfElems elems)
  | [], _, _, rfl, _, _ => Parses.pure _
  | (name, value) :: elems, hfits, _, ⟨n, v, rest, hn, hv, hrest, rfl⟩, fuel, hfuel => by
    simp only [List.length_append, length_be2] at hfuel
    have hlen : v.length ≤ fuel ∧ rest.length ≤ fuel := by omega
    have hvalue := readElementValue_reads value hfits.1 hv hlen.1
    have helems := concatTimes_elems elems hfits.2 hrest hlen.2
    have hfirst : ReadsAs (do
        let _ ← Cursor.u2
        readElementValue cp fuel) (be2 n ++ v) value.content :=
      (hcp.parses hn).bind_readsAs hvalue
    rw [List.length_cons, concatTimes, contentOfElems]
    apply hfirst.bind
    intro s _
    exact helems.then fun _ => rfl

theorem concatTimes_items : ∀ (items : List ElementValue), FitItems items →
    ∀ {bs : List UInt8}, EncodesItems index items bs → ∀ {fuel : ℕ}, bs.length ≤ fuel →
    ReadsAs (concatTimes items.length (readElementValue cp fuel)) bs (contentOfItems items)
  | [], _, _, rfl, _, _ => Parses.pure _
  | item :: items, hfits, _, ⟨v, rest, hv, hrest, rfl⟩, fuel, hfuel => by
    simp only [List.length_append] at hfuel
    have hlen : v.length ≤ fuel ∧ rest.length ≤ fuel := by omega
    have hitem := readElementValue_reads item hfits.1 hv hlen.1
    have hitems := concatTimes_items items hfits.2 hrest hlen.2
    rw [List.length_cons, concatTimes, contentOfItems]
    apply hitem.bind
    intro s _
    exact hitems.then fun _ => rfl
end

/-- The pairs of an annotation. -/
theorem readPairs_reads (isSig : Bool) : ∀ (elems : List (String × ElementValue)),
    FitElems elems → ∀ {bs : List UInt8}, EncodesElems index elems bs → ∀ {fuel : ℕ},
    bs.length ≤ fuel → ∀ found, ReadsAs (readPairs cp fuel isSig elems.length found) bs
      (foundAmong isSig elems found)
  | [], _, _, rfl, _, _, _ => Parses.pure _
  | (name, value) :: elems, hfits, _, ⟨n, v, rest, hn, hv, hrest, rfl⟩, fuel, hfuel, found => by
    simp only [List.length_append, length_be2] at hfuel
    have hlen : v.length ≤ fuel ∧ rest.length ≤ fuel := by omega
    have hvalue := readElementValue_reads hcp value hfits.1 hv hlen.1
    rw [List.length_cons, readPairs, foundAmong, List.append_assoc]
    apply (hcp.parses hn).bind_readsAs
    apply hvalue.bind
    intro s _
    rw [(hcp name n hn).2]
    exact readPairs_reads isSig elems hfits.2 hrest hlen.2 _

/-- The annotations of an attribute, up to the first signature. -/
theorem readAnnotations_reads : ∀ (annots : List Annotation), (∀ a ∈ annots, a.Fits) →
    ∀ {bs : List UInt8}, EncodesAnnotations index annots bs → ∀ {fuel : ℕ}, bs.length ≤ fuel →
    (readAnnotations cp fuel annots.length).run' bs = firstSignature annots
  | [], _, _, rfl, _, _ => rfl
  | ⟨desc, visible, elems⟩ :: annots, hfits, _,
      ⟨_, rest, ⟨d, body, hd, hbody, rfl⟩, hrest, rfl⟩, fuel, hfuel => by
    simp only [List.length_append, length_be2] at hfuel
    have hfit := hfits _ List.mem_cons_self
    have hlen : body.length ≤ fuel ∧ rest.length ≤ fuel := by omega
    have hpairs := readPairs_reads hcp (isSignature ((readBack desc).getD "")) elems hfit.2 hbody
      hlen.1 none
    have ih := readAnnotations_reads annots (fun a ha => hfits a (List.mem_cons_of_mem _ ha)) hrest
      hlen.2
    change Option.map Prod.fst (readAnnotations cp fuel (annots.length + 1) _) = _
    rw [readAnnotations, List.append_assoc, List.append_assoc, (hcp.parses hd).bind_run,
      (hcp desc d hd).2, (parses_u2 hfit.1).bind_run, hpairs.bind_run, firstSignature,
      Annotation.signature]
    cases hfound : foundAmong (isSignature ((readBack desc).getD "")) elems none with
    | none => rfl
    | some found =>
      cases found with
      | none => exact ih
      | some s => rfl
end

end ScalaRs.Classfile
