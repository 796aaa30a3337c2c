import ScalaRs.ConstantPoolRuns
import ScalaRs.AnnotationReading
import Mathlib.Data.List.Forall2

/-! # What the first half of the emission leaves in the pool

A program on pools keeps everything known. What it says of an index holds in every
pool that knows all of its final one. -/
namespace ScalaRs.Classfile
open ModifiedUtf8 ClassfileCursors

variable {α β : Type}

def Interns (p : PoolM α) (Q : (PoolKey → Option ℕ) → α → Prop) : Prop :=
  ∀ ⦃pool a pool'⦄, pool.Valid → p pool = some (a, pool') →
    pool.Next pool' ∧ ∀ index, Grows pool'.index index → Q index a

namespace Interns

variable {Q R : (PoolKey → Option ℕ) → α → Prop}

theorem pure {a : α} (h : ∀ index, Q index a) : Interns (Pure.pure a) Q := by
  intro pool b pool' hvalid hrun
  obtain ⟨rfl, rfl⟩ := Prod.mk.inj (Option.some.inj hrun)
  exact ⟨.refl hvalid, fun index _ => h index⟩

theorem bind {p : PoolM α} {f : α → PoolM β} {S : (PoolKey → Option ℕ) → β → Prop}
    (hp : Interns p Q) (hf : ∀ a, Interns (f a) fun index b => Q index a → S index b) :
    Interns (p >>= f) S := by
  intro pool b pool' hvalid hrun
  obtain ⟨a, pool₁, hfirst, hrest⟩ := PoolM.bind_eq_some.mp hrun
  obtain ⟨hnext₁, hQ⟩ := hp hvalid hfirst
  obtain ⟨hnext₂, hS⟩ := hf a hnext₁.valid hrest
  refine ⟨hnext₁.trans hnext₂, ?_⟩
  intro index hgrows
  apply hS index hgrows
  apply hQ index
  intro key i hi
  exact hgrows key i (hnext₂.index key i hi)

theorem imp {p : PoolM α} (hp : Interns p Q) (h : ∀ index a, Q index a → R index a) :
    Interns p R := by
  intro pool a pool' hvalid hrun
  obtain ⟨hnext, hQ⟩ := hp hvalid hrun
  exact ⟨hnext, fun index hgrows => h index a (hQ index hgrows)⟩

end Interns

theorem interns_utf8 (s : String) :
    Interns (Pool.utf8 s) fun index i => index (.utf8 s) = some i := by
  intro pool i pool' hvalid hrun
  obtain ⟨hnext, hi, -⟩ := Pool.utf8_spec hvalid hrun
  exact ⟨hnext, fun index hgrows => hgrows _ _ hi⟩

theorem interns_classRef (s : String) : Interns (Pool.classRef s) fun _ _ => True := by
  intro pool i pool' hvalid hrun
  exact ⟨(Pool.classRef_spec hvalid hrun).1, fun _ _ => trivial⟩

theorem interns_nat (name desc : String) : Interns (Pool.nat name desc) fun _ _ => True := by
  intro pool i pool' hvalid hrun
  exact ⟨(Pool.nat_spec hvalid hrun).1, fun _ _ => trivial⟩

/-- A constant that refers to no other. -/
theorem interns_constant (key : PoolKey) {data : List UInt8}
    (hdata : ∀ index i, key.Data index i data) :
    Interns (Pool.cached key (Pool.add key (entryBytes (key.tag, data))
      (slotsOf (key.tag, data)).length)) fun _ _ => True := by
  intro pool i pool' hvalid hrun
  exact ⟨(hvalid.cached_add (hdata _ _) rfl rfl hrun).1, fun _ _ => trivial⟩

theorem interns_integer (v : UInt32) : Interns (Pool.integer v) fun _ _ => True :=
  interns_constant (.ints v) fun _ _ => rfl

theorem interns_float (bits : UInt32) : Interns (Pool.float bits) fun _ _ => True :=
  interns_constant (.floats bits) fun _ _ => rfl

theorem interns_long (v : UInt64) : Interns (Pool.long v) fun _ _ => True :=
  interns_constant (.longs v) fun _ _ => rfl

theorem interns_double (bits : UInt64) : Interns (Pool.double bits) fun _ _ => True :=
  interns_constant (.doubles bits) fun _ _ => rfl

theorem interns_hasBootstraps : Interns hasBootstraps fun _ _ => True := by
  intro pool b pool' hvalid hrun
  obtain ⟨-, rfl⟩ := Prod.mk.inj (Option.some.inj hrun)
  exact ⟨.refl hvalid, fun _ _ => trivial⟩

theorem interns_utf8If (b : Bool) (s : String) : Interns (Pool.utf8If b s) fun index r =>
    r.isSome = b ∧ ∀ i, r = some i → index (.utf8 s) = some i := by
  cases b with
  | false => exact .pure fun _ => ⟨rfl, fun _ h => nomatch h⟩
  | true =>
    apply (interns_utf8 s).bind
    intro i
    apply Interns.pure
    intro index hi
    refine ⟨rfl, ?_⟩
    intro j hj
    rwa [← Option.some.inj hj]

theorem interns_optional {γ : Type} {intern : γ → PoolM ℕ}
    (h : ∀ c, Interns (intern c) fun _ _ => True) (c : Option γ) :
    Interns (Pool.optional intern c) fun _ r => r.isSome = c.isSome := by
  cases c with
  | none => exact .pure fun _ => rfl
  | some c =>
    apply (h c).bind
    intro i
    exact .pure fun _ _ => rfl

theorem interns_utf8' (s : String) : Interns (Pool.utf8 s) fun _ _ => True :=
  (interns_utf8 s).imp fun _ _ _ => trivial

theorem interns_mapM {γ : Type} {f : γ → PoolM α} {Q : (PoolKey → Option ℕ) → γ → α → Prop}
    (h : ∀ c, Interns (f c) fun index => Q index c) (cs : List γ) :
    Interns (cs.mapM f) fun index as => List.Forall₂ (Q index) cs as := by
  induction cs with
  | nil =>
    rw [List.mapM_nil]
    exact .pure fun _ => .nil
  | cons c cs ih =>
    rw [List.mapM_cons]
    apply (h c).bind
    intro a
    apply ih.bind
    intro as
    exact .pure fun _ has ha => .cons ha has

/-! ## Annotations -/

mutual
theorem interns_annot : ∀ (a : Annotation),
    Interns ( Pool.encodeAnnotation a) fun index bs => a.Encodes index bs
  | ⟨desc, _, elems⟩ => by
    rw [ Pool.encodeAnnotation]
    apply (interns_utf8 desc).bind
    intro d
    apply (interns_encodeElems elems).bind
    intro body
    exact .pure fun _ hbody hd => ⟨d, body, hd, hbody, rfl⟩

theorem interns_encodeElems : ∀ (elems : List (String × ElementValue)),
    Interns (Pool.encodeElems elems) fun index bs => EncodesElems index elems bs
  | [] => by
    rw [Pool.encodeElems]
    exact .pure fun _ => rfl
  | (name, value) :: elems => by
    rw [Pool.encodeElems]
    apply (interns_utf8 name).bind
    intro n
    apply (interns_encodeElementValue value).bind
    intro v
    apply (interns_encodeElems elems).bind
    intro rest
    exact .pure fun _ hrest hv hn => ⟨n, v, rest, hn, hv, hrest, rfl⟩

theorem interns_encodeElementValue : ∀ (v : ElementValue),
    Interns (Pool.encodeElementValue v) fun index bs => v.Encodes index bs
  | .Int tag n => by
    rw [Pool.encodeElementValue]
    apply (interns_integer n).bind
    intro i
    exact .pure fun _ _ => ⟨i, rfl⟩
  | .Long n => by
    rw [Pool.encodeElementValue]
    apply (interns_long n).bind
    intro i
    exact .pure fun _ _ => ⟨i, rfl⟩
  | .Float bits => by
    rw [Pool.encodeElementValue]
    apply (interns_float bits).bind
    intro i
    exact .pure fun _ _ => ⟨i, rfl⟩
  | .Double bits => by
    rw [Pool.encodeElementValue]
    apply (interns_double bits).bind
    intro i
    exact .pure fun _ _ => ⟨i, rfl⟩
  | .Str s => by
    rw [Pool.encodeElementValue]
    apply (interns_utf8 s).bind
    intro i
    exact .pure fun _ hi => ⟨i, hi, rfl⟩
  | .Enum desc name => by
    rw [Pool.encodeElementValue]
    apply (interns_utf8 desc).bind
    intro d
    apply (interns_utf8 name).bind
    intro n
    exact .pure fun _ _ _ => ⟨d, n, rfl⟩
  | .Class desc => by
    rw [Pool.encodeElementValue]
    apply (interns_utf8 desc).bind
    intro i
    exact .pure fun _ _ => ⟨i, rfl⟩
  | .Annot a => by
    rw [Pool.encodeElementValue]
    apply (interns_annot a).bind
    intro body
    exact .pure fun _ hbody => ⟨body, hbody, rfl⟩
  | .Array items => by
    rw [Pool.encodeElementValue]
    apply (interns_encodeItems items).bind
    intro body
    exact .pure fun _ hbody => ⟨body, hbody, rfl⟩

theorem interns_encodeItems : ∀ (items : List ElementValue),
    Interns (Pool.encodeItems items) fun index bs => EncodesItems index items bs
  | [] => by
    rw [Pool.encodeItems]
    exact .pure fun _ => rfl
  | item :: items => by
    rw [Pool.encodeItems]
    apply (interns_encodeElementValue item).bind
    intro v
    apply (interns_encodeItems items).bind
    intro rest
    exact .pure fun _ hrest hv => ⟨v, rest, hv, hrest, rfl⟩
end

theorem interns_encodeAnnotations (annots : List Annotation) :
    Interns (Pool.encodeAnnotations annots) fun index bs => EncodesAnnotations index annots bs := by
  induction annots with
  | nil => exact .pure fun _ => rfl
  | cons a annots ih =>
    rw [Pool.encodeAnnotations]
    apply (interns_annot a).bind
    intro body
    apply ih.bind
    intro rest
    exact .pure fun _ hrest hbody => ⟨body, rest, hbody, hrest, rfl⟩

theorem EncodesAnnotations.append {index : PoolKey → Option ℕ} {annots : List Annotation}
    {bs : List UInt8} (h : EncodesAnnotations index annots bs) {a : Annotation} {body : List UInt8}
    (ha : a.Encodes index body) : EncodesAnnotations index (annots ++ [a]) (bs ++ body) := by
  induction annots generalizing bs with
  | nil =>
    obtain rfl : bs = [] := h
    exact ⟨body, [], ha, rfl, (List.append_nil _).symm⟩
  | cons b annots ih =>
    obtain ⟨first, rest, hfirst, hrest, rfl⟩ := h
    exact ⟨first, rest ++ body, hfirst, ih hrest, List.append_assoc _ _ _⟩

theorem interns_annotationAttr (annots : List Annotation) (extra : Option Pool.Attr) (visible : Bool) :
    Interns (Pool.annotationAttr annots extra visible) fun _ attrs => attrs.length ≤ 1 := by
  rw [Pool.annotationAttr]
  split
  · exact .pure fun _ => Nat.zero_le 1
  · apply (interns_utf8 _).bind
    intro name
    apply (interns_encodeAnnotations _).bind
    intro body
    exact .pure fun _ _ _ => Nat.le_refl 1

/-- The attribute that ends with one more annotation. -/
theorem interns_extendedAttr (annots : List Annotation) (extra : List UInt8) :
    Interns (Pool.annotationAttr annots (some (1, extra)) true) fun index attrs =>
      ∃ name body, attrs = [(name, be2 ((Pool.chosen annots true).length + 1) ++ body ++ extra)] ∧
        index (.utf8 "RuntimeVisibleAnnotations") = some name ∧
        EncodesAnnotations index (Pool.chosen annots true) body := by
  rw [Pool.annotationAttr, if_neg (by simp), if_pos rfl]
  apply (interns_utf8 _).bind
  intro name
  apply (interns_encodeAnnotations _).bind
  intro body
  exact .pure fun _ hbody hname => ⟨name, body, rfl, hname, hbody⟩

theorem interns_annotationAttrs (annots : List Annotation) (extra : Option Pool.Attr) :
    Interns (Pool.annotationAttrs annots extra) fun _ attrs => attrs.length ≤ 2 := by
  apply (interns_annotationAttr annots extra true).bind
  intro visible
  apply (interns_annotationAttr annots none false).bind
  intro invisible
  apply Interns.pure
  intro _ hinvisible hvisible
  rw [List.length_append]
  omega

theorem interns_encodeParams (visible : Bool) (params : List (List Annotation)) :
    Interns (Pool.encodeParams visible params) fun _ _ => True := by
  induction params with
  | nil => exact .pure fun _ => trivial
  | cons p params ih =>
    apply (interns_encodeAnnotations _).bind
    intro body
    apply ih.bind
    intro rest
    exact .pure fun _ _ _ => trivial

theorem interns_paramAnnotationAttr (params : List (List Annotation)) (visible : Bool) :
    Interns (Pool.paramAnnotationAttr params visible) fun _ attrs => attrs.length ≤ 1 := by
  rw [Pool.paramAnnotationAttr]
  split
  · apply (interns_utf8 _).bind
    intro name
    apply (interns_encodeParams visible params).bind
    intro body
    exact .pure fun _ _ _ => Nat.le_refl 1
  · exact .pure fun _ => Nat.zero_le 1

theorem interns_paramAnnotationAttrs (params : List (List Annotation)) :
    Interns (Pool.paramAnnotationAttrs params) fun _ attrs => attrs.length ≤ 2 := by
  apply (interns_paramAnnotationAttr params true).bind
  intro visible
  apply (interns_paramAnnotationAttr params false).bind
  intro invisible
  apply Interns.pure
  intro _ hinvisible hvisible
  rw [List.length_append]
  omega

/-! ## The signature -/

theorem flatten_chunksFrom (max : ℕ) (cs : List Char) : ∀ (cur : List Char) (len : ℕ),
    (chunksFrom max cs cur len).flatten = cur ++ cs := by
  induction cs with
  | nil => simp [chunksFrom]
  | cons c cs ih =>
    intro cur len
    rw [chunksFrom]
    split
    · rw [List.flatten_cons, ih, List.singleton_append]
    · rw [ih, List.append_assoc, List.singleton_append]

theorem chunksFrom_ne_nil (max : ℕ) (cs : List Char) : ∀ (cur : List Char) (len : ℕ),
    chunksFrom max cs cur len ≠ [] := by
  induction cs with
  | nil => simp [chunksFrom]
  | cons c cs ih =>
    intro cur len
    rw [chunksFrom]
    split
    · exact List.cons_ne_nil _ _
    · exact ih _ _

theorem flatMap_utf8Chunks (s : String) (max : ℕ) :
    (utf8Chunks s max).flatMap String.toList = s.toList := by
  have htoList : (fun cs : List Char => (String.ofList cs).toList) = id := by
    funext cs
    exact String.toList_ofList
  rw [utf8Chunks, List.flatMap_map, htoList, List.flatMap_id, flatten_chunksFrom,
    List.nil_append]

/-- A string that fits one constant is one chunk. -/
theorem utf8Chunks_eq_singleton {s : String} {max : ℕ} (h : ¬ (utf8Chunks s max).length > 1) :
    utf8Chunks s max = [s] := by
  have hflat := flatMap_utf8Chunks s max
  have hne : utf8Chunks s max ≠ [] := by
    intro hnil
    exact chunksFrom_ne_nil max s.toList [] 0 (List.map_eq_nil_iff.mp hnil)
  cases hchunks : utf8Chunks s max with
  | nil => exact absurd hchunks hne
  | cons c chunks =>
    cases chunks with
    | nil =>
      rw [hchunks, List.flatMap_singleton] at hflat
      rw [String.toList_inj.mp hflat]
    | cons d chunks =>
      rw [hchunks] at h
      simp at h

/-- The annotation that carries the signature. -/
def signatureAnnot (s : String) : Annotation :=
  let chunks := utf8Chunks s MAX_UTF8_CONST
  if chunks.length > 1 then
    ⟨"Lscala/reflect/ScalaLongSignature;", true, [("bytes", .Array (chunks.map .Str))]⟩
  else ⟨"Lscala/reflect/ScalaSignature;", true, [("bytes", .Str s)]⟩

theorem encodesItems_strings {index : PoolKey → Option ℕ} {chunks : List String} {is : List ℕ}
    (h : List.Forall₂ (fun c i => index (.utf8 c) = some i) chunks is) :
    EncodesItems index (chunks.map .Str) (is.flatMap fun i => 115 :: be2 i) := by
  induction h with
  | nil => rfl
  | cons hi _ ih => exact ⟨_, _, ⟨_, hi, rfl⟩, ih, rfl⟩

theorem interns_internSignature (s : String) : Interns (internSignature (some s)) fun index r =>
    ∃ body, r = some (1, body) ∧ (signatureAnnot s).Encodes index body := by
  rw [internSignature, signatureAnnot]
  dsimp only
  by_cases hlong : (utf8Chunks s MAX_UTF8_CONST).length > 1
  · rw [if_pos hlong]
    simp only [decide_eq_true hlong, if_true]
    apply (interns_utf8 _).bind
    intro ty
    apply (interns_utf8 _).bind
    intro bytesName
    apply (interns_mapM interns_utf8 _).bind
    intro is
    apply Interns.pure
    intro index his hname hty
    refine ⟨_, rfl, ty, _, hty, ⟨bytesName, _, [], hname, ⟨_, encodesItems_strings his, rfl⟩, rfl,
      rfl⟩, ?_⟩
    simp [his.length_eq]
  · rw [if_neg hlong, utf8Chunks_eq_singleton hlong]
    apply (interns_utf8 _).bind
    intro ty
    apply (interns_utf8 _).bind
    intro bytesName
    apply (interns_mapM interns_utf8 _).bind
    intro is
    apply Interns.pure
    intro index his hname hty
    cases his with
    | cons hi hnil =>
      cases hnil
      refine ⟨_, rfl, ty, _, hty, ⟨bytesName, _, [], hname, ⟨_, hi, rfl⟩, rfl, rfl⟩, ?_⟩
      simp

end ScalaRs.Classfile
