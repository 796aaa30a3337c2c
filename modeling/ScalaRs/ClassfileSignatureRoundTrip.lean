import ScalaRs.InternedClassData
import ScalaRs.ConstantPoolRoundTrip
import ScalaRs.ByteCodecRoundTrip

/-! # The signature of a class file, written and read

Everything in front of the class attributes is stepped over. The reader gets to the
annotations of the class and takes the first signature among them. -/
namespace ScalaRs.Classfile
open ModifiedUtf8 ClassfileCursors Pool

/-! ## Stepping over attributes -/

theorem parses_skipAttr (name : ℕ) {body : List UInt8} (h : body.length < 2 ^ 32) :
    Parses skipAttr (be2 name ++ (be4 body.length ++ body)) () := by
  obtain ⟨_, hname⟩ := exists_parses_be2 name
  apply hname.bind
  apply (parses_u4 h).bind
  apply (parses_bytes body).then
  exact Parses.pure ()

/-- A class file reader that consumes exactly these bytes. -/
def Accepts {α : Type} (p : ClassReader α) (bs : List UInt8) (a : α) : Prop :=
  ∀ rest, p (bs ++ rest) = .ok (a, rest)

variable {α β : Type}

theorem Accepts.pure (a : α) : Accepts (Pure.pure a) [] a := fun _ => rfl

theorem Accepts.bind_run {p : ClassReader α} {bs : List UInt8} {a : α} (hp : Accepts p bs a)
    (f : α → ClassReader β) (rest : List UInt8) : (p >>= f) (bs ++ rest) = f a rest := by
  change (p (bs ++ rest)).bind _ = _
  rw [hp]
  rfl

theorem Accepts.bind {p : ClassReader α} {f : α → ClassReader β} {bs cs : List UInt8} {a : α} {b : β}
    (hp : Accepts p bs a) (hf : Accepts (f a) cs b) : Accepts (p >>= f) (bs ++ cs) b := by
  intro rest
  rw [List.append_assoc, hp.bind_run, hf]

theorem accepts_of_parses {p : Cursor α} {bs : List UInt8} {a : α} (h : Parses p bs a)
    (e : ClassfileError) : Accepts (orElseError p e) bs a := by
  intro rest
  rw [orElseError, h]

theorem accepts_be2 (n : ℕ) (e : ClassfileError) :
    ∃ m, Accepts (orElseError Cursor.u2 e) (be2 n) m := by
  obtain ⟨m, hm⟩ := exists_parses_be2 n
  exact ⟨m, accepts_of_parses hm e⟩

theorem parses_times {γ : Type} {p : Cursor Unit} {f : γ → List UInt8} (cs : List γ)
    (h : ∀ c ∈ cs, Parses p (f c) ()) : Parses (times cs.length p) (cs.flatMap f) () := by
  induction cs with
  | nil => exact Parses.pure ()
  | cons c cs ih =>
    rw [List.length_cons, times, List.flatMap_cons]
    exact (h c List.mem_cons_self).bind (ih fun d hd => h d (List.mem_cons_of_mem _ hd))

theorem accepts_times {γ : Type} {p : ClassReader Unit} {f : γ → List UInt8} (cs : List γ)
    (h : ∀ c ∈ cs, Accepts p (f c) ()) : Accepts (times cs.length p) (cs.flatMap f) () := by
  induction cs with
  | nil => exact Accepts.pure ()
  | cons c cs ih =>
    rw [List.length_cons, times, List.flatMap_cons]
    exact (h c List.mem_cons_self).bind (ih fun d hd => h d (List.mem_cons_of_mem _ hd))

def AttrsFit (attrs : List Attr) : Prop := ∀ a ∈ attrs, a.2.length < 2 ^ 32

theorem parses_skipAttrs {attrs : List Attr} (hcount : attrs.length < 65536)
    (hfit : AttrsFit attrs) : Parses skipAttrs (be2 attrs.length ++ writeAttrs attrs) () := by
  apply (parses_u2 hcount).bind
  apply parses_times attrs
  intro ⟨name, body⟩ ha
  have hskip := parses_skipAttr name (hfit _ ha)
  rwa [← List.append_assoc] at hskip

theorem accepts_member (part attrsPart : String) (access name desc : ℕ) {attrs : List Attr}
    (hcount : attrs.length < 65536) (hfit : AttrsFit attrs) :
    Accepts (skipMember part attrsPart)
      (be2 access ++ (be2 name ++ (be2 desc ++ (be2 attrs.length ++ writeAttrs attrs)))) () := by
  obtain ⟨_, haccess⟩ := accepts_be2 access (.Truncated part)
  obtain ⟨_, hname⟩ := accepts_be2 name (.Truncated part)
  obtain ⟨_, hdesc⟩ := accepts_be2 desc (.Truncated part)
  apply haccess.bind
  apply hname.bind
  apply hdesc.bind
  exact accepts_of_parses (parses_skipAttrs hcount hfit) _

/-! ## The attributes that are written -/

@[simp] theorem writeAttrs_append (as bs : List Attr) :
    writeAttrs (as ++ bs) = writeAttrs as ++ writeAttrs bs := List.flatMap_append

@[simp] theorem writeAttrs_nil : writeAttrs [] = [] := rfl

@[simp] theorem writeAttrs_cons (a : Attr) (as : List Attr) :
    writeAttrs (a :: as) = be2 a.1 ++ be4 a.2.length ++ a.2 ++ writeAttrs as := rfl

def indexAttrs (attr index : Option ℕ) : List Attr :=
  match attr, index with
  | some a, some s => [(a, be2 s)]
  | _, _ => []

theorem writeAttrs_indexAttrs (attr index : Option ℕ) :
    writeAttrs (indexAttrs attr index) = indexAttr attr index := by
  cases attr <;> cases index <;> simp [indexAttrs, indexAttr]

theorem length_indexAttrs {attr index : Option ℕ} (h : index.isSome → attr.isSome) :
    (indexAttrs attr index).length = index.isSome.toNat := by
  cases attr <;> cases index <;> first | rfl | cases h rfl

theorem attrsFit_indexAttrs (attr index : Option ℕ) : AttrsFit (indexAttrs attr index) := by
  intro a ha
  cases attr <;> cases index <;> simp [indexAttrs] at ha
  rw [ha]
  simp

theorem AttrsFit.append {as bs : List Attr} (has : AttrsFit as) (hbs : AttrsFit bs) :
    AttrsFit (as ++ bs) := by
  intro a ha
  rcases List.mem_append.mp ha with ha | ha
  · exact has a ha
  · exact hbs a ha

/-- No length in the second half exceeds its field. -/
structure ClassData.Fits (data : ClassData) (pool : Pool) : Prop where
  count : pool.count < 65536
  ifaces : data.ifaces.length < 65536
  fields : data.fields.length < 65536
  methods : data.methods.length < 65536
  fieldAnnots : ∀ f ∈ data.fields, AttrsFit f.annots
  methodAnnots : ∀ m ∈ data.methods, AttrsFit m.annots
  codeBodies : ∀ m ∈ data.methods, ∀ c ∈ m.code, (data.codeBody m.lvt c).length < 2 ^ 32
  classAnnots : AttrsFit data.classAnnots
  bootstraps : (bootstrapBody pool).length < 2 ^ 32
  innerClasses : 2 + data.innerClasses.length * 8 < 2 ^ 32

namespace ClassData

variable {data : ClassData} {index : PoolKey → Option ℕ} {emit : ClassEmit} {s : String}
  {pool : Pool}

def fieldAttrs (data : ClassData) (f : FieldData) : List Attr :=
  indexAttrs data.constAttr f.cst ++ indexAttrs data.sigAttr f.sig ++ f.annots

theorem accepts_field (f : FieldData) (hf : f.Interned data.sigAttr.isSome data.constAttr.isSome)
    (hfit : AttrsFit f.annots) :
    Accepts (skipMember "field" "field attributes") (data.fieldBytes f) () := by
  have hlen : (data.fieldAttrs f).length =
      f.sig.isSome.toNat + f.cst.isSome.toNat + f.annots.length := by
    rw [fieldAttrs, List.length_append, List.length_append, length_indexAttrs hf.cst,
      length_indexAttrs hf.sig]
    omega
  have hbytes : data.fieldBytes f = be2 f.access.toNat ++ (be2 f.name ++ (be2 f.desc ++
      (be2 (data.fieldAttrs f).length ++ writeAttrs (data.fieldAttrs f)))) := by
    rw [hlen, fieldAttrs, writeAttrs_append, writeAttrs_append, writeAttrs_indexAttrs,
      writeAttrs_indexAttrs, fieldBytes]
    simp only [List.append_assoc]
  rw [hbytes]
  apply accepts_member
  · rw [hlen]
    have hsig := Bool.toNat_le f.sig.isSome
    have hcst := Bool.toNat_le f.cst.isSome
    have hannots := hf.annots
    omega
  · exact ((attrsFit_indexAttrs _ _).append (attrsFit_indexAttrs _ _)).append hfit

def codeAttrs (data : ClassData) (m : MethodData) : List Attr :=
  match m.code with
  | some c => [(data.codeAttr, data.codeBody m.lvt c)]
  | none => []

def paramAttrs (data : ClassData) (m : MethodData) : List Attr :=
  match m.paramNames, data.methodParamsAttr with
  | _ :: _, some a => [(a, UInt8.ofNat m.paramNames.length :: m.paramNames.flatMap paramBytes)]
  | _, _ => []

def methodAttrs (data : ClassData) (m : MethodData) : List Attr :=
  data.codeAttrs m ++ m.annots ++ indexAttrs data.sigAttr m.sig ++ data.paramAttrs m

theorem length_flatMap_const {γ : Type} {f : γ → List UInt8} {k : ℕ} (h : ∀ c, (f c).length = k)
    (cs : List γ) : (cs.flatMap f).length = cs.length * k := by
  induction cs with
  | nil => simp
  | cons c cs ih =>
    rw [List.flatMap_cons, List.length_append, h, ih, List.length_cons]
    ring

/-- The parameters of a method are one attribute, if there are any. -/
theorem paramsBytes_eq {m : MethodData} {params : List UInt8}
    (h : data.paramsBytes m = some params) (hfew : m.paramNames.length ≤ 255) :
    params = writeAttrs (data.paramAttrs m) ∧ AttrsFit (data.paramAttrs m) ∧
      (data.paramAttrs m).length = (!m.paramNames.isEmpty).toNat := by
  rw [paramsBytes] at h
  rw [paramAttrs]
  generalize m.paramNames = names at h hfew ⊢
  cases names with
  | nil =>
    obtain rfl := Option.some.inj h
    exact ⟨rfl, fun _ ha => absurd ha List.not_mem_nil, rfl⟩
  | cons p names =>
    cases hattr : data.methodParamsAttr with
    | none =>
      rw [hattr] at h
      cases h
    | some a =>
      rw [hattr] at h
      obtain rfl := Option.some.inj h
      have hlen := length_flatMap_const (f := paramBytes) (k := 4) (fun _ => rfl) (p :: names)
      have hbody : (UInt8.ofNat (p :: names).length :: (p :: names).flatMap paramBytes).length =
          1 + (p :: names).length * 4 := by
        simp only [List.length_cons] at hlen ⊢
        omega
      refine ⟨?_, ?_, rfl⟩
      · rw [writeAttrs_cons, writeAttrs_nil, List.append_nil, hbody]
      · intro attr hmem
        obtain rfl := List.mem_singleton.mp hmem
        rw [hbody]
        omega

theorem accepts_method {m : MethodData} {bs : List UInt8} (h : data.methodBytes m = some bs)
    (hm : m.Interned data.sigAttr.isSome) (hfit : AttrsFit m.annots)
    (hbody : ∀ c ∈ m.code, (data.codeBody m.lvt c).length < 2 ^ 32) :
    Accepts (skipMember "method" "method attributes") bs () := by
  obtain ⟨params, hparams, rfl⟩ := Option.map_eq_some_iff.mp h
  obtain ⟨rfl, hparamsFit, hparamsLen⟩ := paramsBytes_eq hparams hm.paramNames
  have hcode : (data.codeAttrs m).length = m.code.isSome.toNat ∧ AttrsFit (data.codeAttrs m) ∧
      writeAttrs (data.codeAttrs m) = data.codeBytes m := by
    rw [codeAttrs, codeBytes]
    cases hcode : m.code with
    | none => exact ⟨rfl, fun _ ha => absurd ha List.not_mem_nil, rfl⟩
    | some c =>
      refine ⟨rfl, ?_, by simp⟩
      intro attr hmem
      obtain rfl := List.mem_singleton.mp hmem
      exact hbody c hcode
  obtain ⟨hcodeLen, hcodeFit, hcodeBytes⟩ := hcode
  have hlen : (data.methodAttrs m).length = m.code.isSome.toNat + m.annots.length +
      m.sig.isSome.toNat + (!m.paramNames.isEmpty).toNat := by
    rw [methodAttrs, List.length_append, List.length_append, List.length_append, hcodeLen,
      hparamsLen, length_indexAttrs hm.sig]
  have hbytes : writeAttrs (data.methodAttrs m) = writeAttrs (data.codeAttrs m) ++
      (writeAttrs m.annots ++ (indexAttr data.sigAttr m.sig ++ writeAttrs (data.paramAttrs m))) := by
    simp only [methodAttrs, writeAttrs_append, writeAttrs_indexAttrs, List.append_assoc]
  have hcount : (data.methodAttrs m).length < 65536 := by
    rw [hlen]
    have hcode := Bool.toNat_le m.code.isSome
    have hsig := Bool.toNat_le m.sig.isSome
    have hparams := Bool.toNat_le (!m.paramNames.isEmpty)
    have hannots := hm.annots
    omega
  have hattrsFit : AttrsFit (data.methodAttrs m) :=
    ((hcodeFit.append hfit).append (attrsFit_indexAttrs _ _)).append hparamsFit
  have haccept := accepts_member "method" "method attributes" m.access.toNat m.name m.desc
    hcount hattrsFit
  rw [hlen, hbytes, hcodeBytes] at haccept
  simpa only [List.append_assoc] using haccept

/-! ## The class attributes -/

def namedAttrs (attr : Option ℕ) (body : List UInt8) : List Attr :=
  match attr with
  | some a => [(a, body)]
  | none => []

theorem writeAttrs_namedAttrs (attr : Option ℕ) {len : ℕ} {body : List UInt8}
    (h : body.length = len) : writeAttrs (namedAttrs attr body) = namedAttr attr len body := by
  cases attr <;> simp [namedAttrs, namedAttr, h]

theorem length_namedAttrs (attr : Option ℕ) (body : List UInt8) :
    (namedAttrs attr body).length = attr.isSome.toNat := by
  cases attr <;> rfl

/-- Attributes that fit and that the reader does not look into. -/
def Skipped (index : PoolKey → Option ℕ) (attrs : List Attr) : Prop :=
  AttrsFit attrs ∧ ∀ a ∈ attrs, ∃ name, readBack name ≠ some "RuntimeVisibleAnnotations" ∧
    index (.utf8 name) = some a.1

theorem Skipped.append {as bs : List Attr} (has : Skipped index as) (hbs : Skipped index bs) :
    Skipped index (as ++ bs) := by
  refine ⟨has.1.append hbs.1, ?_⟩
  intro a ha
  rcases List.mem_append.mp ha with ha | ha
  · exact has.2 a ha
  · exact hbs.2 a ha

theorem skipped_namedAttrs {attr : Option ℕ} {body : List UInt8} {name : String}
    (hbody : body.length < 2 ^ 32) (hname : NamedAttr index attr name)
    (hother : readBack name ≠ some "RuntimeVisibleAnnotations") :
    Skipped index (namedAttrs attr body) := by
  cases attr with
  | none => exact ⟨fun _ ha => absurd ha List.not_mem_nil, fun _ ha => absurd ha List.not_mem_nil⟩
  | some a =>
    refine ⟨?_, ?_⟩
    · intro attr hmem
      obtain rfl := List.mem_singleton.mp hmem
      exact hbody
    · intro attr hmem
      obtain rfl := List.mem_singleton.mp hmem
      exact ⟨name, hother, hname a rfl⟩

theorem skipped_indexAttrs {attr i : Option ℕ} {name : String} (hname : NamedAttr index attr name)
    (hother : readBack name ≠ some "RuntimeVisibleAnnotations") :
    Skipped index (indexAttrs attr i) := by
  refine ⟨attrsFit_indexAttrs attr i, ?_⟩
  intro a ha
  cases attr <;> cases i <;> simp [indexAttrs] at ha
  rw [ha]
  exact ⟨name, hother, hname _ rfl⟩

def enclosingAttrs (data : ClassData) : List Attr :=
  namedAttrs data.enclosingMethodAttr
    (be2 (data.enclosingMethod.getD (0, 0)).1 ++ be2 (data.enclosingMethod.getD (0, 0)).2)

/-- The attributes in front of the annotations. -/
def frontAttrs (data : ClassData) (pool : Pool) : List Attr :=
  indexAttrs data.sigAttr data.classSigIdx ++
  namedAttrs data.innerClassesAttr
    (be2 data.innerClasses.length ++ data.innerClasses.flatMap innerClassBytes) ++
  namedAttrs data.bootstrapAttr (bootstrapBody pool) ++ data.enclosingAttrs ++
  namedAttrs data.scalaRawAttr [] ++ namedAttrs data.scalaSigAttr [5, 2, 0]

theorem skipped_frontAttrs (h : data.Interned index emit s) (hfits : data.Fits pool) :
    Skipped index (data.frontAttrs pool) := by
  have hinner := length_flatMap_const (f := innerClassBytes) (k := 8) (fun _ => rfl)
    data.innerClasses
  have hinnerFit := hfits.innerClasses
  apply Skipped.append
  · apply Skipped.append
    · apply Skipped.append
      · apply Skipped.append
        · apply Skipped.append
          · exact skipped_indexAttrs h.sigName (by decide +kernel)
          · apply skipped_namedAttrs _ h.innerClassesName (by decide +kernel)
            rw [List.length_append, length_be2, hinner]
            exact hinnerFit
        · exact skipped_namedAttrs hfits.bootstraps h.bootstrapName (by decide +kernel)
      · exact skipped_namedAttrs (by simp) h.enclosingName (by decide +kernel)
    · exact skipped_namedAttrs (by simp) h.rawName (by decide +kernel)
  · exact skipped_namedAttrs (by simp) h.sigMarkerName (by decide +kernel)

theorem writeAttrs_enclosingAttrs
    (h : data.enclosingMethod.isSome = data.enclosingMethodAttr.isSome) :
    writeAttrs data.enclosingAttrs = data.enclosingBytes := by
  rw [enclosingAttrs, enclosingBytes]
  cases hattr : data.enclosingMethodAttr <;> cases hmethod : data.enclosingMethod <;>
    simp_all [namedAttrs]

theorem length_frontAttrs (h : data.classSigIdx.isSome → data.sigAttr.isSome) :
    (data.frontAttrs pool).length = data.classSigIdx.isSome.toNat +
      data.innerClassesAttr.isSome.toNat + data.bootstrapAttr.isSome.toNat +
      data.enclosingMethodAttr.isSome.toNat + data.scalaRawAttr.isSome.toNat +
      data.scalaSigAttr.isSome.toNat := by
  simp only [frontAttrs, enclosingAttrs, List.length_append, length_namedAttrs, length_indexAttrs h]

/-- The count of the class attributes is right. -/
theorem classAttrs_eq (h : data.Interned index emit s) :
    data.classAttrs pool = be2 ((data.frontAttrs pool).length + (data.classAnnots.length + 1)) ++
      (writeAttrs (data.frontAttrs pool) ++
        (writeAttrs data.classAnnots ++ writeAttrs [(data.srcAttr, be2 data.srcName)])) := by
  have hinner : (be2 data.innerClasses.length ++
      data.innerClasses.flatMap innerClassBytes).length = 2 + data.innerClasses.length * 8 := by
    rw [List.length_append, length_be2, length_flatMap_const (k := 8) fun _ => rfl]
  have hcount : 1 + data.classSigIdx.isSome.toNat + data.classAnnots.length +
      data.scalaSigAttr.isSome.toNat + data.scalaRawAttr.isSome.toNat +
      data.innerClassesAttr.isSome.toNat + data.bootstrapAttr.isSome.toNat +
      data.enclosingMethodAttr.isSome.toNat =
      (data.frontAttrs pool).length + (data.classAnnots.length + 1) := by
    rw [length_frontAttrs h.classSig]
    omega
  have hfront : writeAttrs (data.frontAttrs pool) =
      indexAttr data.sigAttr data.classSigIdx ++
      namedAttr data.innerClassesAttr (2 + data.innerClasses.length * 8)
        (be2 data.innerClasses.length ++ data.innerClasses.flatMap innerClassBytes) ++
      namedAttr data.bootstrapAttr (bootstrapBody pool).length (bootstrapBody pool) ++
      data.enclosingBytes ++ namedAttr data.scalaRawAttr 0 [] ++
      namedAttr data.scalaSigAttr 3 [5, 2, 0] := by
    rw [frontAttrs, writeAttrs_append, writeAttrs_append, writeAttrs_append, writeAttrs_append,
      writeAttrs_append, writeAttrs_indexAttrs, writeAttrs_namedAttrs _ hinner,
      writeAttrs_namedAttrs _ rfl, writeAttrs_enclosingAttrs h.enclosing,
      writeAttrs_namedAttrs _ rfl, writeAttrs_namedAttrs _ rfl]
    rfl
  rw [classAttrs, hcount, hfront, writeAttrs_cons, writeAttrs_nil, length_be2]
  simp only [List.append_assoc, List.append_nil]

end ClassData

/-! ## Reading the class attributes -/

variable {cp : Cp} {index : PoolKey → Option ℕ}

/-- Reading one class attribute whose name has this index. -/
theorem classAttributes_run {nameI : ℕ} (hname : Parses Cursor.u2 (be2 nameI) nameI)
    {body : List UInt8} (h : body.length < 2 ^ 32) (n : ℕ) (rest : List UInt8) :
    classAttributes cp (n + 1) (be2 nameI ++ be4 body.length ++ body ++ rest) =
      (if cp.utf8 nameI ≠ some "RuntimeVisibleAnnotations" then classAttributes cp n
      else
        match signatureString cp body with
        | none => throw (.Malformed "RuntimeVisibleAnnotations")
        | some (some s) => pure (some s)
        | some none => classAttributes cp n) rest := by
  rw [classAttributes, List.append_assoc, List.append_assoc,
    (accepts_of_parses hname _).bind_run, (accepts_of_parses (parses_u4 h) _).bind_run]
  exact (accepts_of_parses (parses_bytes body) _).bind_run _ rest

theorem classAttributes_skipped (hcp : cp.Reads index) {attrs : List Attr}
    (h : ClassData.Skipped index attrs) (n : ℕ) (rest : List UInt8) :
    classAttributes cp (attrs.length + n) (writeAttrs attrs ++ rest) =
      classAttributes cp n rest := by
  induction attrs with
  | nil => rw [writeAttrs_nil, List.nil_append, List.length_nil, Nat.zero_add]
  | cons a attrs ih =>
    obtain ⟨hfit, hnames⟩ := h
    obtain ⟨name, hother, hname⟩ := hnames a List.mem_cons_self
    have hutf8 : cp.utf8 a.1 ≠ some "RuntimeVisibleAnnotations" := by
      rw [(hcp name a.1 hname).2]
      exact hother
    rw [writeAttrs_cons, List.append_assoc, List.length_cons, Nat.add_right_comm,
      classAttributes_run (hcp.parses hname) (hfit a List.mem_cons_self), if_pos hutf8]
    exact ih ⟨fun b hb => hfit b (List.mem_cons_of_mem _ hb),
      fun b hb => hnames b (List.mem_cons_of_mem _ hb)⟩

theorem signatureString_eq (hcp : cp.Reads index) {annots : List Annotation} {body : List UInt8}
    (hbody : EncodesAnnotations index annots body) (hfits : ∀ a ∈ annots, a.Fits)
    (hcount : annots.length < 65536) :
    signatureString cp (be2 annots.length ++ body) = firstSignature annots := by
  have hlen : body.length ≤ (be2 annots.length ++ body).length := by simp
  have hread := readAnnotations_reads hcp annots hfits hbody hlen
  rw [← hread, signatureString]
  change Option.map Prod.fst _ = Option.map Prod.fst _
  rw [(parses_u2 hcount).bind_run]

/-! ## The signature annotation -/

theorem readBack_of_basic {s : String} (h : Basic s) : readBack s = some s :=
  modifiedUtf8ToString_modifiedUtf8Bytes h

theorem contentOfItems_strings {chunks : List String} (h : ∀ c ∈ chunks, Basic c) :
    contentOfItems (chunks.map .Str) = some (String.ofList (chunks.flatMap String.toList)) := by
  induction chunks with
  | nil => rfl
  | cons c chunks ih =>
    rw [List.map_cons, contentOfItems, ElementValue.content,
      readBack_of_basic (h c List.mem_cons_self), ih fun d hd => h d (List.mem_cons_of_mem _ hd),
      List.flatMap_cons, String.ofList_append, String.ofList_toList]
    rfl

theorem basic_utf8Chunks {s : String} (h : Basic s) (max : ℕ) : ∀ c ∈ utf8Chunks s max, Basic c := by
  intro c hc ch hch
  apply h
  rw [← flatMap_utf8Chunks s max]
  exact List.mem_flatMap.mpr ⟨c, hc, hch⟩

theorem signature_signatureAnnot {s : String} (h : Basic s) :
    (signatureAnnot s).signature = some (some s) := by
  have hbytes : (readBack "bytes").getD "" = "bytes" := by decide +kernel
  rw [signatureAnnot]
  split
  · have hsig : isSignature ((readBack "Lscala/reflect/ScalaLongSignature;").getD "") = true := by
      decide +kernel
    rw [ Annotation.signature, hsig, foundAmong, ElementValue.content,
      contentOfItems_strings (basic_utf8Chunks h _), flatMap_utf8Chunks, String.ofList_toList,
      hbytes]
    rfl
  · have hsig : isSignature ((readBack "Lscala/reflect/ScalaSignature;").getD "") = true := by
      decide +kernel
    rw [ Annotation.signature, hsig, foundAmong, ElementValue.content, readBack_of_basic h, hbytes]
    rfl

/-- An encoded pickle has seven-bit characters. -/
theorem basic_of_encoded {raw : List UInt8} {s : String}
    (h : Pickling.ByteCodecs.encodeToAnnotationString raw = some s) : Basic s := by
  rw [Pickling.ByteCodecs.encodeToAnnotationString, Pickling.ByteCodecs.encodeBytes_eq] at h
  obtain rfl := Option.some.inj h
  intro c hc
  rw [String.toList_ofList] at hc
  obtain ⟨b, hb, rfl⟩ := List.mem_map.mp hc
  have hlt := b.toNat_lt
  have hvalid : b.toNat.isValidChar := Or.inl (by omega)
  rw [Char.ofNat, dif_pos hvalid]
  exact hlt.trans (by decide)

/-- The first look-alike of a signature in front of the signature, or the signature. -/
theorem firstSignature_append {annots : List Annotation} {a : Annotation} {s : String}
    (ha : a.signature = some (some s)) : firstSignature (annots ++ [a]) =
      (firstSignature annots).map fun found => some (found.getD s) := by
  induction annots with
  | nil =>
    change a.signature.bind _ = _
    rw [ha]
    rfl
  | cons b annots ih =>
    rw [List.cons_append, firstSignature, firstSignature]
    cases b.signature with
    | none => rfl
    | some found =>
      cases found with
      | none => exact ih
      | some t => rfl

/-! ## The class file -/

theorem reads_of_sound {pool : Pool} {es : List Slot} (h : pool.Sound es)
    (hcount : pool.count < 65536) : (cpOf es).Reads pool.index := by
  intro s i hi
  have hlt := h.lt_count hi
  exact ⟨by omega, h.utf8_eq_decoded hi⟩

/-- No count in the annotations of the class exceeds a `u16`. -/
def ClassEmit.AnnotsFit (emit : ClassEmit) (s : String) : Prop :=
  (chosen emit.annots.classAnnots true).length + 1 < 65536 ∧
    (∀ a ∈ chosen emit.annots.classAnnots true, a.Fits) ∧
    (utf8Chunks s MAX_UTF8_CONST).length < 65536

/-- What the reader makes of the annotations of a class. -/
def signatureResult : Option (Option String) → Except ClassfileError (Option String)
  | none => .error (.Malformed "RuntimeVisibleAnnotations")
  | some found => .ok found

theorem mapM_some_mem {γ δ : Type} {f : γ → Option δ} : ∀ {cs : List γ} {ds : List δ},
    cs.mapM f = some ds → ds.length = cs.length ∧ ∀ d ∈ ds, ∃ c ∈ cs, f c = some d
  | [], ds, h => by
    rw [List.mapM_nil] at h
    obtain rfl := Option.some.inj h
    exact ⟨rfl, fun _ hd => absurd hd List.not_mem_nil⟩
  | c :: cs, ds, h => by
    rw [List.mapM_cons] at h
    obtain ⟨first, hfirst, h⟩ := Option.bind_eq_some_iff.mp h
    obtain ⟨rest, hrest, h⟩ := Option.bind_eq_some_iff.mp h
    obtain rfl := Option.some.inj h
    obtain ⟨hlen, hmem⟩ := mapM_some_mem hrest
    refine ⟨by rw [List.length_cons, List.length_cons, hlen], ?_⟩
    intro d hd
    rcases List.mem_cons.mp hd with rfl | hd
    · exact ⟨c, List.mem_cons_self, hfirst⟩
    · obtain ⟨b, hb, hbd⟩ := hmem d hd
      exact ⟨b, List.mem_cons_of_mem _ hb, hbd⟩

theorem accepts_ifaces (e : ClassfileError) (is : List ℕ) : Accepts (times is.length do
    let _ ← orElseError Cursor.u2 e
    pure ()) (is.flatMap be2) () := by
  apply accepts_times
  intro i _
  obtain ⟨_, hi⟩ := accepts_be2 i e
  have h := hi.bind (f := fun _ => (Pure.pure () : ClassReader Unit)) (Accepts.pure ())
  rwa [List.append_nil] at h

/-- The reader gets to the class attributes. -/
theorem readSignature_run {data : ClassData} {emit : ClassEmit} {s : String} {pool : Pool}
    {es : List Slot} (hsound : pool.Sound es) (hdata : data.Interned pool.index emit s)
    (hfits : data.Fits pool) {access : UInt16} {bytes : List UInt8}
    (hwrite : data.write access pool = some bytes) {n : ℕ} {attrs : List UInt8}
    (hattrs : data.classAttrs pool = be2 n ++ attrs) (hn : n < 65536) :
    readSignature bytes = classAttributes (cpOf es) n attrs := by
  obtain ⟨methods, hmethods, hbytes⟩ := Option.bind_eq_some_iff.mp hwrite
  obtain rfl := Option.some.inj hbytes
  obtain ⟨hlen, hmem⟩ := mapM_some_mem hmethods
  have hfieldsRun := accepts_times (f := data.fieldBytes) data.fields fun f hf =>
    data.accepts_field f (hdata.fields f hf) (hfits.fieldAnnots f hf)
  have hmethodsRun := accepts_times (p := skipMember "method" "method attributes") (f := id) methods
    fun bs hbs => by
      obtain ⟨m, hm, hrun⟩ := hmem bs hbs
      exact data.accepts_method hrun (hdata.methods m hm) (hfits.methodAnnots m hm)
        (hfits.codeBodies m hm)
  have hmethodsLen : data.methods.length < 65536 := hfits.methods
  rw [List.flatMap_id] at hmethodsRun
  rw [← hlen] at hmethodsLen ⊢
  obtain ⟨_, hversion₀⟩ := accepts_be2 0 (.Truncated "version")
  obtain ⟨_, hversion⟩ := accepts_be2 52 (.Truncated "version")
  obtain ⟨_, haccess⟩ := accepts_be2 access.toNat (.Truncated "class header")
  obtain ⟨_, hthis⟩ := accepts_be2 data.thisI (.Truncated "class header")
  obtain ⟨_, hsuper⟩ := accepts_be2 data.superI (.Truncated "class header")
  have hmagic : Accepts (orElseError Cursor.u4 (.Truncated "magic")) (be4 0xCAFEBABE) 0xCAFEBABE :=
    accepts_of_parses (parses_u4 (by decide)) _
  simp only [List.append_assoc, hattrs]
  rw [readSignature, hmagic.bind_run, if_neg (by decide), hversion₀.bind_run, hversion.bind_run,
    (accepts_of_parses (hsound.parses hfits.count) _).bind_run, haccess.bind_run, hthis.bind_run,
    hsuper.bind_run, (accepts_of_parses (parses_u2 hfits.ifaces) _).bind_run,
    (accepts_ifaces _ _).bind_run, (accepts_of_parses (parses_u2 hfits.fields) _).bind_run,
    hfieldsRun.bind_run, (accepts_of_parses (parses_u2 hmethodsLen) _).bind_run,
    hmethodsRun.bind_run, (accepts_of_parses (parses_u2 hn) _).bind_run]

theorem fits_signatureAnnot {s : String} (h : (utf8Chunks s MAX_UTF8_CONST).length < 65536) :
    (signatureAnnot s).Fits := by
  have hitems : ∀ chunks : List String, FitItems (chunks.map .Str) := by
    intro chunks
    induction chunks with
    | nil => trivial
    | cons c chunks ih => exact ⟨trivial, ih⟩
  rw [signatureAnnot]
  split
  · refine ⟨by simp, ⟨?_, hitems _⟩, trivial⟩
    rw [List.length_map]
    exact h
  · exact ⟨by simp, trivial, trivial⟩

/-- The signature is what the annotations of the class make of it. -/
theorem readSignature_write {data : ClassData} {emit : ClassEmit} {s : String} {pool : Pool}
    {es : List Slot} (hsound : pool.Sound es) (hdata : data.Interned pool.index emit s)
    (hfits : data.Fits pool) (hannots : emit.AnnotsFit s) (hs : Basic s) {access : UInt16}
    {bytes : List UInt8} (hwrite : data.write access pool = some bytes) :
    readSignature.run' bytes = signatureResult
      ((firstSignature (chosen emit.annots.classAnnots true)).map fun found =>
        some (found.getD s)) := by
  have hcp := reads_of_sound hsound hfits.count
  obtain ⟨name, body, invisible, hattrs, hname, hbody, hinvisible⟩ := hdata.annots
  obtain ⟨hcount, hfitAll, hchunks⟩ := hannots
  generalize chosen emit.annots.classAnnots true = annots at hattrs hbody hcount hfitAll ⊢
  have hbodyFit : (be2 (annots.length + 1) ++ body).length < 2 ^ 32 := by
    apply hfits.classAnnots (name, _)
    rw [hattrs]
    exact List.mem_cons_self
  have htotal : (data.frontAttrs pool).length + (data.classAnnots.length + 1) < 65536 := by
    rw [data.length_frontAttrs hdata.classSig, hattrs, List.length_cons]
    have h₁ := Bool.toNat_le data.classSigIdx.isSome
    have h₂ := Bool.toNat_le data.innerClassesAttr.isSome
    have h₃ := Bool.toNat_le data.bootstrapAttr.isSome
    have h₄ := Bool.toNat_le data.enclosingMethodAttr.isSome
    have h₅ := Bool.toNat_le data.scalaRawAttr.isSome
    have h₆ := Bool.toNat_le data.scalaSigAttr.isSome
    omega
  have hutf8 : (cpOf es).utf8 name = some "RuntimeVisibleAnnotations" := by
    rw [(hcp _ name hname).2]
    decide +kernel
  have hsignature : signatureString (cpOf es) (be2 (annots.length + 1) ++ body) =
      (firstSignature annots).map fun found => some (found.getD s) := by
    rw [← firstSignature_append (signature_signatureAnnot hs),
      ← signatureString_eq hcp hbody _ (by simpa using hcount), List.length_append,
      List.length_singleton]
    intro a ha
    rcases List.mem_append.mp ha with ha | ha
    · exact hfitAll a ha
    · rw [List.mem_singleton.mp ha]
      exact fits_signatureAnnot hchunks
  change Except.map Prod.fst (readSignature bytes) = _
  rw [readSignature_run hsound hdata hfits hwrite (data.classAttrs_eq hdata) htotal,
    classAttributes_skipped hcp (data.skipped_frontAttrs hdata hfits), hattrs, List.length_cons,
    writeAttrs_cons, List.append_assoc _ (writeAttrs invisible),
    classAttributes_run (hcp.parses hname) hbodyFit, if_neg (by simp [hutf8]), hsignature]
  cases firstSignature annots <;> rfl

/-- Reading in order, every string constant is read back until there is an annotation
that looks like a signature, if there is one, and that one holds this pickle. -/
def Unobstructed (raw : List UInt8) : List Annotation → Prop
  | [] => True
  | a :: annots =>
    match a.signature with
    | none => False
    | some (some t) => Pickling.ByteCodecs.decodeAnnotationString t = some raw
    | some none => Unobstructed raw annots

/-- Annotations whose strings are read back and that do not look like a signature. -/
theorem unobstructed_of_legible (raw : List UInt8) {annots : List Annotation}
    (h : ∀ a ∈ annots, a.content.isSome ∧ isSignature ((readBack a.desc).getD "") = false) :
    Unobstructed raw annots := by
  have hfound : ∀ (elems : List (String × ElementValue)) (found : Option String),
      foundAmong false elems found = (contentOfElems elems).map fun _ => found := by
    intro elems found
    induction elems with
    | nil => rfl
    | cons p elems ih =>
      rw [foundAmong, contentOfElems]
      cases p.2.content with
      | none => rfl
      | some s =>
        simp only [Bool.false_eq_true, false_and, if_false]
        change foundAmong false elems found = Option.map _ (Option.bind _ _)
        rw [ih]
        cases contentOfElems elems <;> rfl
  induction annots with
  | nil => trivial
  | cons a annots ih =>
    obtain ⟨hcontent, hother⟩ := h a List.mem_cons_self
    obtain ⟨desc, visible, elems⟩ := a
    obtain ⟨s, hs⟩ : ∃ s, contentOfElems elems = some s := Option.isSome_iff_exists.mp hcontent
    rw [Unobstructed, Annotation.signature, hother, hfound, hs]
    exact ih fun b hb => h b (List.mem_cons_of_mem _ hb)

/-- No count, length or constant exceeds its field. -/
structure ClassEmit.Fits (tools : NameTools) (emit : ClassEmit) (pool : Pool) (s : String) : Prop where
  annots : emit.AnnotsFit s
  data : ∀ data pool', intern tools emit pool = some (.ok data, pool') → data.Fits pool'

theorem scalaSignatureBytesResult_eq {raw : List UInt8} {s : String}
    (hraw : Pickling.ByteCodecs.encodeToAnnotationString raw = some s) {annots : List Annotation}
    {bytes : List UInt8}
    (h : readSignature.run' bytes = signatureResult
      ((firstSignature annots).map fun found => some (found.getD s))) :
    scalaSignatureBytesResult bytes = some (.ok (some raw)) ↔ Unobstructed raw annots := by
  rw [scalaSignatureBytesResult, h]
  clear h
  induction annots with
  | nil =>
    obtain ⟨s', hs', hdecode⟩ := Pickling.ByteCodecs.decodeAnnotationString_encode raw
    obtain rfl : s = s' := Option.some.inj (hraw.symm.trans hs')
    simp [firstSignature, signatureResult, Unobstructed, hdecode]
  | cons a annots ih =>
    rw [firstSignature, Unobstructed]
    cases a.signature with
    | none => simp [signatureResult]
    | some found =>
      cases found with
      | none => exact ih
      | some t => simp [signatureResult]

theorem classfile_signature_correct (tools : NameTools) (emit : ClassEmit) (raw : List UInt8)
    (s : String) (ops : List PoolOp) (results : List ℕ) (pool : Pool) (bytes : List UInt8)
    (hpool : runOps ops Pool.new = some (results, pool)) (hhandles : HandlesFrom [] ops results)
    (hraw : Pickling.ByteCodecs.encodeToAnnotationString raw = some s)
    (hsig : emit.scalaSignature = some s) (hfits : emit.Fits tools pool s)
    (hwrite : emit.writeWithPool tools pool = some (.ok bytes)) :
    scalaSignatureBytesResult bytes = some (.ok (some raw)) ↔
      Unobstructed raw (chosen emit.annots.classAnnots true) := by
  obtain ⟨⟨hvalid, -, -⟩, -⟩ := runOps_spec ops ⟨[], Pool.sound_new⟩
    (fun _ hr => absurd hr List.not_mem_nil) hhandles hpool
  obtain ⟨⟨result, pool'⟩, hintern, hresult⟩ := Option.bind_eq_some_iff.mp hwrite
  cases result with
  | error e => cases hresult
  | ok data =>
    obtain ⟨_, hbytes, hok⟩ := Option.map_eq_some_iff.mp hresult
    obtain rfl := Except.ok.inj hok
    obtain ⟨⟨⟨es, hes⟩, -, -⟩, hfacts⟩ := interns_intern tools emit hsig hvalid hintern
    have hdata := hfacts pool'.index (fun _ _ hi => hi) data rfl
    exact scalaSignatureBytesResult_eq hraw (readSignature_write hes hdata
      (hfits.data data pool' hintern) hfits.annots (basic_of_encoded hraw) hbytes)

instance (data : ClassData) (pool : Pool) : Decidable (data.Fits pool) :=
  decidable_of_iff (pool.count < 65536 ∧ data.ifaces.length < 65536 ∧
      data.fields.length < 65536 ∧ data.methods.length < 65536 ∧
      (∀ f ∈ data.fields, ∀ a ∈ f.annots, a.2.length < 2 ^ 32) ∧
      (∀ m ∈ data.methods, ∀ a ∈ m.annots, a.2.length < 2 ^ 32) ∧
      (∀ m ∈ data.methods, ∀ c ∈ m.code, (data.codeBody m.lvt c).length < 2 ^ 32) ∧
      (∀ a ∈ data.classAnnots, a.2.length < 2 ^ 32) ∧
      (bootstrapBody pool).length < 2 ^ 32 ∧ 2 + data.innerClasses.length * 8 < 2 ^ 32)
    ⟨fun ⟨h₁, h₂, h₃, h₄, h₅, h₆, h₇, h₈, h₉, h₁₀⟩ => ⟨h₁, h₂, h₃, h₄, h₅, h₆, h₇, h₈, h₉, h₁₀⟩,
      fun ⟨h₁, h₂, h₃, h₄, h₅, h₆, h₇, h₈, h₉, h₁₀⟩ => ⟨h₁, h₂, h₃, h₄, h₅, h₆, h₇, h₈, h₉, h₁₀⟩⟩

/-- A class with one method and one annotation, for an empty pickle. -/
def sampleEmit (text : String) : ClassEmit where
  access := 0x21
  thisName := "A"
  superName := "java/lang/Object"
  interfaces := []
  fields := []
  methods := [⟨1, "m", "()V", some ⟨0, 1, [177], [], none⟩, [], [], none, [], [], []⟩]
  source := "A.scala"
  scalaSignature := some ""
  scalaRaw := false
  innerClasses := []
  enclosingMethod := none
  signature := none
  fieldSignatures := []
  fieldConstants := []
  annots := ⟨[⟨"Lp/Doc;", true, [("value", .Array [.Str text, .Int .I 1])]⟩], []⟩

def sampleTools : NameTools := ⟨id, fun _ => [], fun _ => 0⟩

theorem fits_sampleEmit (text : String)
    (h : (match intern sampleTools (sampleEmit text) Pool.new with
      | some (.ok data, pool) => decide (data.Fits pool)
      | _ => true) = true) : (sampleEmit text).Fits sampleTools Pool.new "" := by
  refine ⟨⟨?_, ?_, ?_⟩, ?_⟩
  · simp [sampleEmit, chosen, dedupByDesc]
  · simp [sampleEmit, chosen, dedupByDesc, Annotation.Fits, FitElems, ElementValue.Fits, FitItems]
  · decide +kernel
  · intro data pool hrun
    rw [hrun] at h
    exact of_decide_eq_true h

private theorem eq_ok_of_toOption {γ : Type} {o : Option (Except String γ)} {c : γ}
    (h : o.bind Except.toOption = some c) : o = some (.ok c) := by
  obtain ⟨result, hresult, hok⟩ := Option.bind_eq_some_iff.mp h
  cases result with
  | error e => cases hok
  | ok c => rw [hresult, Option.some.inj hok]

theorem encode_nil : Pickling.ByteCodecs.encodeToAnnotationString [] = some "" := by
  rw [Pickling.ByteCodecs.encodeToAnnotationString, Pickling.ByteCodecs.encodeBytes_eq]
  rfl

theorem classfile_signature_correct_sample :
    ∃ bytes, (sampleEmit "doc").writeWithPool sampleTools Pool.new = some (.ok bytes) ∧
      (scalaSignatureBytesResult bytes = some (.ok (some [])) ↔
        Unobstructed [] (chosen (sampleEmit "doc").annots.classAnnots true)) := by
  have hsome : (((sampleEmit "doc").writeWithPool sampleTools Pool.new).bind
      Except.toOption).isSome = true := by decide +kernel
  obtain ⟨bytes, hbytes⟩ := Option.isSome_iff_exists.mp hsome
  have hwrite := eq_ok_of_toOption hbytes
  exact ⟨bytes, hwrite, classfile_signature_correct sampleTools (sampleEmit "doc") [] "" [] []
    Pool.new bytes rfl trivial encode_nil rfl (fits_sampleEmit "doc" (by decide +kernel)) hwrite⟩

/-- A supplementary character in an annotation of the class hides its signature. -/
theorem supplementary_hides_signature :
    ∃ (emit : ClassEmit) (bytes : List UInt8), emit.scalaSignature = some "" ∧
      Pickling.ByteCodecs.encodeToAnnotationString [] = some "" ∧
      emit.Fits sampleTools Pool.new "" ∧
      emit.writeWithPool sampleTools Pool.new = some (.ok bytes) ∧
      scalaSignatureBytesResult bytes =
        some (.error (.Malformed "RuntimeVisibleAnnotations")) := by
  have hsome : (((sampleEmit "😀").writeWithPool sampleTools Pool.new).bind
      Except.toOption).map (fun bytes => readSignature.run' bytes) =
      some (.error (.Malformed "RuntimeVisibleAnnotations")) := by decide +kernel
  obtain ⟨bytes, hbytes, hread⟩ := Option.map_eq_some_iff.mp hsome
  have hwrite := eq_ok_of_toOption hbytes
  refine ⟨sampleEmit "😀", bytes, rfl, encode_nil, fits_sampleEmit "😀" (by decide +kernel), hwrite, ?_⟩
  rw [scalaSignatureBytesResult, hread]

end ScalaRs.Classfile
