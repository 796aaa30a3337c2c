import ScalaRs.ClassInterning

/-! # The data the second half of the emission starts from

Where an attribute is written there is a name for it, and the annotations of the
class end with the signature. -/
namespace ScalaRs.Classfile
open ModifiedUtf8 ClassfileCursors

/-- Every attribute that is counted can be named. -/
structure FieldData.Interned (sigAttr constAttr : Bool) (f : FieldData) : Prop where
  sig : f.sig.isSome → sigAttr
  cst : f.cst.isSome → constAttr
  annots : f.annots.length ≤ 2

structure MethodData.Interned (sigAttr : Bool) (m : MethodData) : Prop where
  sig : m.sig.isSome → sigAttr
  annots : m.annots.length ≤ 4
  paramNames : m.paramNames.length ≤ 255

/-- The name of an attribute, if it is written. -/
def NamedAttr (index : PoolKey → Option ℕ) (attr : Option ℕ) (name : String) : Prop :=
  ∀ i, attr = some i → index (.utf8 name) = some i

/-- The annotations of the class end with the signature `s`. -/
def EndsWithSignature (index : PoolKey → Option ℕ) (emit : ClassEmit) (s : String)
    (attrs : List Pool.Attr) : Prop :=
  ∃ name body invisible,
    attrs = (name, be2 ((Pool.chosen emit.annots.classAnnots true).length + 1) ++ body) ::
      invisible ∧
    index (.utf8 "RuntimeVisibleAnnotations") = some name ∧
    EncodesAnnotations index
      (Pool.chosen emit.annots.classAnnots true ++ [signatureAnnot s]) body ∧
    invisible.length ≤ 1

structure ClassData.Interned (index : PoolKey → Option ℕ) (emit : ClassEmit) (s : String)
    (data : ClassData) : Prop where
  classSig : data.classSigIdx.isSome → data.sigAttr.isSome
  fields : ∀ f ∈ data.fields, f.Interned data.sigAttr.isSome data.constAttr.isSome
  methods : ∀ m ∈ data.methods, m.Interned data.sigAttr.isSome
  enclosing : data.enclosingMethod.isSome = data.enclosingMethodAttr.isSome
  sigName : NamedAttr index data.sigAttr "Signature"
  innerClassesName : NamedAttr index data.innerClassesAttr "InnerClasses"
  bootstrapName : NamedAttr index data.bootstrapAttr "BootstrapMethods"
  enclosingName : NamedAttr index data.enclosingMethodAttr "EnclosingMethod"
  rawName : NamedAttr index data.scalaRawAttr "Scala"
  sigMarkerName : NamedAttr index data.scalaSigAttr "ScalaSig"
  annots : EndsWithSignature index emit s data.classAnnots
  lengths : data.ifaces.length = emit.interfaces.length ∧
    data.fields.length = emit.fields.length ∧ data.methods.length = emit.methods.length ∧
    data.innerClasses.length = emit.innerClasses.length

theorem interns_classAnnots (emit : ClassEmit) (s : String) (extra : Option Pool.Attr) :
    Interns (Pool.annotationAttrs emit.annots.classAnnots extra) fun index attrs =>
      (∃ body, extra = some (1, body) ∧ (signatureAnnot s).Encodes index body) →
        EndsWithSignature index emit s attrs := by
  by_cases hextra : ∃ body, extra = some (1, body)
  · obtain ⟨body, rfl⟩ := hextra
    apply (interns_extendedAttr emit.annots.classAnnots body).bind
    intro visible
    apply (interns_annotationAttr emit.annots.classAnnots none false).bind
    intro invisible
    apply Interns.pure
    intro index hinvisible hvisible hsig
    obtain ⟨name, bs, rfl, hname, hbs⟩ := hvisible
    obtain ⟨_, hextra, hsig⟩ := hsig
    obtain rfl := (Prod.mk.inj (Option.some.inj hextra)).2
    refine ⟨name, bs ++ body, invisible, ?_, hname, hbs.append hsig, hinvisible⟩
    simp
  · apply (interns_annotationAttrs emit.annots.classAnnots extra).imp
    intro index attrs _ ⟨body, hbody, _⟩
    exact absurd ⟨body, hbody⟩ hextra

variable (tools : NameTools)

theorem isEmpty_of_lookup {α β : Type} [BEq α] {a : α} {l : List (α × β)}
    (h : (l.lookup a).isSome) : l.isEmpty = false := by
  cases l with
  | nil => simp at h
  | cons p l => rfl

theorem interns_internField (emit : ClassEmit) (f : Field) :
    Interns (internField tools emit f) fun _ r =>
      r.Interned (!emit.fieldSignatures.isEmpty) (!emit.fieldConstants.isEmpty) := by
  apply (interns_optional interns_utf8' _).bind
  intro sig
  apply (interns_optional interns_long _).bind
  intro cst
  apply (interns_annotationAttrs _ none).bind
  intro annots
  apply (interns_utf8 _).bind
  intro name
  apply (interns_utf8 _).bind
  intro desc
  apply Interns.pure
  intro _ _ _ hannots hcst hsig
  refine ⟨?_, ?_, hannots⟩
  · intro h
    rw [hsig] at h
    rw [isEmpty_of_lookup h]
    rfl
  · intro h
    rw [hcst] at h
    rw [isEmpty_of_lookup h]
    rfl

theorem interns_internInnerClass (e : InnerClassEntry) :
    Interns (internInnerClass tools e) fun _ _ => True := by
  apply (interns_classRef _).bind
  intro inner
  apply (interns_optional interns_classRef _).bind
  intro outer
  apply (interns_optional (fun _ => interns_utf8' _) _).bind
  intro name
  exact .pure fun _ _ _ _ => trivial

theorem interns_internEnclosingMethod (m : Option (String × Option (String × String))) :
    Interns (internEnclosingMethod tools m) fun _ r => r.isSome = m.isSome := by
  cases m with
  | none => exact .pure fun _ => rfl
  | some m =>
    apply (interns_classRef _).bind
    intro c
    apply (interns_optional (fun m => interns_nat _ _) _).bind
    intro nt
    exact .pure fun _ _ _ => rfl

theorem interns_internLocals (params : List (String × Option String)) : ∀ slot,
    Interns (internLocals tools params slot) fun _ _ => True := by
  induction params with
  | nil => exact fun _ => .pure fun _ => trivial
  | cons p params ih =>
    intro slot
    apply (interns_optional (fun _ => interns_utf8' _) _).bind
    intro n
    apply (interns_optional (fun _ => interns_utf8' _) _).bind
    intro d
    apply (ih _).bind
    intro rest
    exact .pure fun _ _ _ _ => trivial

theorem interns_internThis (emit : ClassEmit) (m : Method) :
    Interns (internThis emit m) fun _ _ => True := by
  rw [internThis]
  split
  · apply (interns_utf8 _).bind
    intro n
    apply (interns_utf8 _).bind
    intro d
    exact .pure fun _ _ _ => trivial
  · exact .pure fun _ => trivial

theorem interns_internLvt (emit : ClassEmit) (m : Method) :
    Interns (internLvt tools emit m) fun _ _ => True := by
  rw [internLvt]
  generalize (if m.paramNames = [] then m.localNames else m.paramNames) = names
  split
  · apply (interns_internThis emit m).bind
    intro this
    apply (interns_internLocals tools _ _).bind
    intro rest
    exact .pure fun _ _ _ => trivial
  · exact .pure fun _ => trivial

theorem interns_internParamNames (params : List (Option String × UInt16)) :
    Interns (internParamNames params) fun _ _ => True := by
  induction params with
  | nil => exact .pure fun _ => trivial
  | cons p params ih =>
    apply (interns_optional interns_utf8' _).bind
    intro n
    apply ih.bind
    intro rest
    exact .pure fun _ _ _ => trivial

theorem interns_internMethod (emit : ClassEmit) (m : Method) :
    Interns (internMethod tools emit m) fun _ r =>
      ∀ data, r = .ok data → data.Interned m.signature.isSome := by
  apply (interns_utf8 _).bind
  intro n
  apply (interns_utf8 _).bind
  intro d
  apply (interns_annotationAttrs _ none).bind
  intro annots
  apply (interns_paramAnnotationAttrs _).bind
  intro params
  apply (interns_optional interns_utf8' _).bind
  intro sig
  cases paramsError tools m with
  | some e => exact .pure fun _ _ _ _ _ _ _ h => nomatch h
  | none =>
    apply (interns_internParamNames _).bind
    intro paramNames
    split
    · exact .pure fun _ _ _ _ _ _ _ _ h => nomatch h
    · next hfew =>
      apply (interns_internLvt tools emit m).bind
      intro lvt
      apply Interns.pure
      intro _ _ _ hsig hparams hannots _ _ data hdata
      obtain rfl := Except.ok.inj hdata
      refine ⟨?_, ?_, by simpa using hfew⟩
      · intro h
        rwa [← hsig]
      · dsimp only
        rw [List.length_append]
        omega

theorem interns_internMethods (emit : ClassEmit) (methods : List Method) :
    Interns (internMethods tools emit methods) fun _ r => ∀ datas, r = .ok datas →
      datas.length = methods.length ∧
        ∀ data ∈ datas, data.Interned (methods.any fun m => m.signature.isSome) := by
  induction methods with
  | nil =>
    apply Interns.pure
    intro _ datas hdatas
    obtain rfl := Except.ok.inj hdatas
    exact ⟨rfl, by simp⟩
  | cons m methods ih =>
    apply (interns_internMethod tools emit m).bind
    intro first
    cases first with
    | error e => exact .pure fun _ _ _ h => nomatch h
    | ok data =>
      apply ih.bind
      intro rest
      apply Interns.pure
      intro _ hrest hfirst datas hdatas
      cases rest with
      | error e => cases hdatas
      | ok rest =>
        obtain rfl := Except.ok.inj hdatas
        obtain ⟨hlen, hrest⟩ := hrest rest rfl
        have hdata := hfirst data rfl
        refine ⟨by rw [List.length_cons, List.length_cons, hlen], ?_⟩
        intro d hd
        rcases List.mem_cons.mp hd with rfl | hd
        · refine ⟨?_, hdata.annots, hdata.paramNames⟩
          intro h
          rw [List.any_cons, hdata.sig h, Bool.true_or]
        · have hd := hrest d hd
          refine ⟨?_, hd.annots, hd.paramNames⟩
          intro h
          rw [List.any_cons, hd.sig h, Bool.or_true]

private theorem forall_of_forall₂ {α β : Type} {P : β → Prop} {as : List α} {bs : List β}
    (h : List.Forall₂ (fun _ b => P b) as bs) : ∀ b ∈ bs, P b := by
  induction h with
  | nil => simp
  | cons hb _ ih =>
    intro c hc
    rcases List.mem_cons.mp hc with rfl | hc
    · exact hb
    · exact ih c hc

/-- A signature of the class, a field or a method is counted only if its name is
there. -/
theorem interns_intern (emit : ClassEmit) {s : String} (hs : emit.scalaSignature = some s) :
    Interns (intern tools emit) fun index r => ∀ data, r = .ok data → data.Interned index emit s := by
  apply (interns_classRef _).bind
  intro thisI
  apply (interns_classRef _).bind
  intro superI
  apply (interns_mapM interns_classRef _).bind
  intro ifaces
  apply (interns_utf8If _ _).bind
  intro sigAttr
  apply (interns_utf8If _ _).bind
  intro constAttr
  apply (interns_optional interns_utf8' _).bind
  intro classSigIdx
  apply (interns_mapM (interns_internField tools emit) _).bind
  intro fields
  apply (interns_utf8 _).bind
  intro codeAttr
  apply (interns_utf8 _).bind
  intro stackMapAttr
  apply (interns_utf8If _ _).bind
  intro lvtAttr
  apply (interns_utf8 _).bind
  intro srcAttr
  apply (interns_utf8 _).bind
  intro srcName
  apply (interns_utf8If _ _).bind
  intro scalaRawAttr
  apply (interns_utf8If _ _).bind
  intro scalaSigAttr
  rw [hs]
  apply (interns_internSignature s).bind
  intro scalaSigAnnot
  apply (interns_utf8If _ _).bind
  intro innerClassesAttr
  apply (interns_mapM (interns_internInnerClass tools) _).bind
  intro innerClasses
  apply (interns_utf8If _ _).bind
  intro enclosingMethodAttr
  apply (interns_internEnclosingMethod tools _).bind
  intro enclosingMethod
  apply interns_hasBootstraps.bind
  intro bootstraps
  apply (interns_utf8If _ _).bind
  intro bootstrapAttr
  apply (interns_utf8If _ _).bind
  intro methodParamsAttr
  apply (interns_classAnnots emit s scalaSigAnnot).bind
  intro classAnnots
  apply (interns_internMethods tools emit emit.methods).bind
  intro methods
  apply Interns.pure
  intro index hmethods hannots _ hbootstrap _ hmethod henclosing hinner hinnerName hsig hmarker hraw
    _ _ _ _ _ hfields hclassSig hconst hsigAttr hifaces _ _ data hdata
  cases methods with
  | error e => cases hdata
  | ok methods =>
    obtain rfl := Except.ok.inj hdata
    obtain ⟨hlen, hmethods⟩ := hmethods methods rfl
    refine ⟨?_, ?_, ?_, ?_, hsigAttr.2, hinnerName.2, hbootstrap.2, henclosing.2, hraw.2,
      hmarker.2, hannots hsig, ?_⟩
    · intro h
      rw [hclassSig] at h
      rw [hsigAttr.1, h]
      rfl
    · intro f hf
      have hdata := forall_of_forall₂ hfields f hf
      refine ⟨?_, ?_, hdata.annots⟩
      · intro h
        rw [hsigAttr.1, hdata.sig h, Bool.or_true, Bool.true_or]
      · intro h
        rw [hconst.1, hdata.cst h]
    · intro m hm
      have hdata := hmethods m hm
      refine ⟨?_, hdata.annots, hdata.paramNames⟩
      intro h
      rw [hsigAttr.1, hdata.sig h, Bool.or_true]
    · rw [hmethod, henclosing.1]
    · exact ⟨hifaces.length_eq.symm, hfields.length_eq.symm, hlen, hinner.length_eq.symm⟩

end ScalaRs.Classfile
