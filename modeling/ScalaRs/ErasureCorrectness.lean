import ScalaRs.ErasureSkipping

/-! # What a signature erases to

The scanner finds the erasure with each class name taken byte by byte, so it finds the erasure if
the names of the classes are ASCII. -/
namespace ScalaRs.SignatureErasure
open CodeUnits JvmDescriptors JvmSignatures EnoughFuel Filter

/-! ## Erasures -/

/-- The descriptor of a type variable of the table. -/
def tvarDescriptor (tvars : Tvars) (name : List Char) : List Char :=
  (lookupTvar tvars name).getD []

def className (package : List Name) (part : ClassPart reserved) : List Char :=
  packageText package ++ part.binaryName

section
variable (spell : List Char → List Char) (tvars : Tvars)

mutual

/-- The erasure of a type, with the names of classes spelled in some way. -/
def erasedJava : JavaType reserved → List Char
  | .base t => [t.letter]
  | .ref t => erasedRef t

def erasedRef : RefType reserved → List Char
  | .typeVar name => tvarDescriptor tvars name.text
  | .array elem => '[' :: erasedJava elem
  | .cls package part => 'L' :: spell (className package part) ++ [';']

end

def erasedResult (t : Option (JavaType reserved)) : List Char :=
  (t.map (erasedJava spell tvars)).getD ['V']

def erasedMethod (s : MethodSignature reserved) : List Char :=
  '(' :: s.params.flatMap (erasedJava spell tvars) ++ ')' :: erasedResult spell tvars s.result

end

def erasedSupers (spell : List Char → List Char) (s : ClassSignature reserved) :
    List (List Char) :=
  (s.superclass :: s.interfaces).map fun t => spell (className t.package t.part)

mutual

/-- The type variables outside type arguments. -/
def tvarsOfJava : JavaType reserved → List Name
  | .base _ => []
  | .ref t => tvarsOfRef t

def tvarsOfRef : RefType reserved → List Name
  | .typeVar name => [name]
  | .array elem => tvarsOfJava elem
  | .cls _ _ => []

end

mutual

/-- The names of the classes outside type arguments. -/
def classesOfJava : JavaType reserved → List (List Char)
  | .base _ => []
  | .ref t => classesOfRef t

def classesOfRef : RefType reserved → List (List Char)
  | .typeVar _ => []
  | .array elem => classesOfJava elem
  | .cls package part => [className package part]

end

/-- The types of the parameters, and that of the result if there is one. -/
def erasedTypes (s : MethodSignature reserved) : List (JavaType reserved) :=
  s.params ++ s.result.toList

def InTable (tvars : Tvars) (names : List Name) : Prop :=
  ∀ name ∈ names, name.text ∈ tvars.map Prod.fst

instance (tvars : Tvars) (names : List Name) : Decidable (InTable tvars names) :=
  inferInstanceAs (Decidable (∀ name ∈ names, name.text ∈ tvars.map Prod.fst))

theorem lookupTvar_mem {tvars : Tvars} {name : List Char} (h : name ∈ tvars.map Prod.fst) :
    lookupTvar tvars name = some (tvarDescriptor tvars name) := by
  rw [tvarDescriptor]
  cases hfound : lookupTvar tvars name with
  | some d => rfl
  | none =>
      obtain ⟨p, hp, rfl⟩ := List.mem_map.1 h
      have hnone := Option.map_eq_none_iff.1 hfound
      exact absurd (decide_eq_true rfl) (List.find?_eq_none.1 hnone p hp)

/-! ## Class names -/

/-- The characters at which the loop over the name of a class does something. -/
def nameStops : List Char := [';', '<', '.', '[', '+', '-', '*', '>', '(', ')']

theorem Name.notMem_nameStops (name : Name) : ∀ c ∈ name.text, c ∉ nameStops := by
  intro c hc hstop
  apply name.allowed c hc
  simp only [nameStops, List.mem_cons, List.not_mem_nil, or_false] at hstop
  rcases hstop with rfl | rfl | rfl | rfl | rfl | rfl | rfl | rfl | rfl | rfl <;> simp

theorem packageText_notMem_nameStops (package : List Name) :
    ∀ c ∈ packageText package, c ∉ nameStops := by
  intro c hc
  obtain ⟨name, hname, hc⟩ := List.mem_flatMap.1 hc
  rcases List.mem_append.1 hc with hc | hc
  · exact Name.notMem_nameStops name c hc
  · rw [List.mem_singleton.1 hc]
    decide

variable {tvars : Tvars}

/-- Each byte of a name becomes a character. -/
theorem eraseClass_append {cs rest name : List Char} (hcs : ∀ c ∈ cs, c ∉ nameStops)
    {x : Option (List Char × Bytes)}
    (h : ∀ᶠ n in atTop, eraseClass n (name ++ latin cs) (utf8.text rest) = x) :
    ∀ᶠ n in atTop, eraseClass n name (utf8.text (cs ++ rest)) = x := by
  have hbytes := @notMem_bytes nameStops cs (by simp [nameStops]) hcs
  rw [utf8.text_append]
  rw [latin] at h
  generalize utf8.text cs = bs at hbytes h
  induction bs generalizing name with
  | nil => simpa using h
  | cons u bs ih =>
      have hu := hbytes u List.mem_cons_self
      simp only [nameStops, List.map_cons, List.map_nil, List.mem_cons, List.not_mem_nil, or_false,
        not_or] at hu
      obtain ⟨h₁, h₂, h₃, hrest⟩ := hu
      have hnext := @ih (name ++ [Char.ofNat u.toNat]) (fun v hv => hbytes v
        (List.mem_cons_of_mem _ hv)) (by simpa using h)
      apply eventually_succ
      filter_upwards [hnext] with n hn
      rw [List.cons_append, eraseClass, if_neg h₁, if_neg h₂, if_neg h₃,
        if_neg (by simpa using hrest), hn]

theorem eraseClass_targs (targs : TypeArgs reserved) {rest : List Char}
    {x : Option (List Char × Bytes)} {name : List Char}
    (h : ∀ᶠ n in atTop, eraseClass n name (utf8.text rest) = x) :
    ∀ᶠ n in atTop, eraseClass n name (utf8.text (targs.text ++ rest)) = x := by
  rw [TypeArgs.text_eq]
  split
  · exact h
  · apply eventually_succ
    apply eventually_succ
    filter_upwards [skipArgsLoop_items targs rest, eventually_next h] with n hn hrest
    rw [List.append_assoc, List.singleton_append, List.cons_append, text_ascii (by decide),
      eraseClass, if_neg (by decide), if_pos rfl, skipArgs, List.tail_cons, hn]
    exact hrest

theorem latin_ne_nil {cs : List Char} (h : cs ≠ []) : latin cs ≠ [] := by
  intro hnil
  have hlength := (length_latin cs).1
  rw [hnil] at hlength
  exact h (List.length_eq_zero_iff.1 (Nat.le_zero.1 hlength))

theorem eraseClass_part (part : ClassPart reserved) (rest name : List Char) :
    ∀ᶠ n in atTop, eraseClass n name (utf8.text (part.text ++ ';' :: rest)) =
      some ('L' :: (name ++ latin part.binaryName) ++ [';'], utf8.text rest) := by
  cases part with
  | last ident targs =>
      have hne : name ++ latin ident.text ≠ [] := by
        simp [latin_ne_nil ident.nonempty]
      rw [ClassPart.text, List.append_assoc, ClassPart.binaryName]
      apply eraseClass_append (Name.notMem_nameStops ident)
      apply eraseClass_targs
      apply eventually_succ
      apply Eventually.of_forall
      intro n
      rw [text_ascii (by decide), eraseClass, if_pos rfl, if_neg (by simpa using hne)]
  | outer ident targs inner =>
      have hinner := eraseClass_part inner rest (name ++ latin ident.text ++ ['$'])
      rw [ClassPart.text, List.append_assoc, List.append_assoc, List.cons_append,
        ClassPart.binaryName, latin_append, latin_cons, @latin_ascii ['$'] (by simp [IsAscii])]
      apply eraseClass_append (Name.notMem_nameStops ident)
      apply eraseClass_targs
      apply eventually_succ
      filter_upwards [hinner] with n hn
      rw [text_ascii (by decide), eraseClass, if_neg (by decide), if_neg (by decide), if_pos rfl, hn]
      simp

/-! ## Types -/

mutual

theorem eraseOne_java (t : JavaType reserved) (ht : InTable tvars (tvarsOfJava t))
    (rest : List Char) :
    ∀ᶠ n in atTop, eraseOne tvars n (utf8.text (t.text ++ rest)) =
      some (erasedJava latin tvars t, utf8.text rest) := by
  cases t with
  | base t =>
      apply eventually_succ
      apply Eventually.of_forall
      intro n
      cases t <;> rw [JavaType.text, List.singleton_append, text_ascii (by decide)] <;> rfl
  | ref t => exact eraseOne_ref t ht rest

theorem eraseOne_ref (t : RefType reserved) (ht : InTable tvars (tvarsOfRef t))
    (rest : List Char) :
    ∀ᶠ n in atTop, eraseOne tvars n (utf8.text (t.text ++ rest)) =
      some (erasedRef latin tvars t, utf8.text rest) := by
  apply eventually_succ
  cases t with
  | typeVar name =>
      have hname : ';' ∉ name.text := fun h => name.allowed ';' h (by simp)
      apply Eventually.of_forall
      intro n
      simp only [RefType.text, List.cons_append, List.append_assoc, List.nil_append]
      rw [text_ascii (by decide), eraseOne, if_neg (by decide), if_neg (by decide), if_pos rfl,
        afterSemicolon_text hname, takeWhile_text hname, fromUtf8_text]
      simp only [Option.bind_eq_bind, Option.bind_some]
      rw [lookupTvar_mem (ht name List.mem_cons_self)]
      rfl
  | array elem =>
      filter_upwards [eraseOne_java elem ht rest] with n hn
      rw [RefType.text, List.cons_append, text_ascii (by decide), eraseOne, if_neg (by decide),
        if_pos rfl, hn]
      rfl
  | cls package part =>
      filter_upwards [eraseClass_append (packageText_notMem_nameStops package)
        (eraseClass_part part rest ([] ++ latin (packageText package)))] with n hn
      simp only [RefType.text, List.cons_append, List.append_assoc, List.nil_append] at hn ⊢
      rw [text_ascii (by decide), eraseOne, if_neg (by decide), if_neg (by decide),
        if_neg (by decide), if_pos rfl, hn, erasedRef, className, latin_append]
      simp

end

/-- A type does not start with a character of another section. -/
theorem javaText_cons (t : JavaType reserved) : ∃ c s, t.text = c :: s ∧
    c ∉ ['<', '(', ')', 'V'] := by
  cases t with
  | base t => exact ⟨t.letter, [], rfl, by cases t <;> decide⟩
  | ref t =>
      obtain ⟨c, s, hc, hletter⟩ := refText_cons t
      exact ⟨c, s, hc, by rcases hletter with rfl | rfl | rfl <;> decide⟩

theorem eraseParams_types (ts : List (JavaType reserved))
    (hts : ∀ t ∈ ts, InTable tvars (tvarsOfJava t)) (out rest : List Char) :
    ∀ᶠ n in atTop, eraseParams tvars n out (utf8.text (ts.flatMap JavaType.text ++ ')' :: rest)) =
      some (out ++ ts.flatMap (erasedJava latin tvars) ++ [')'], utf8.text rest) := by
  induction ts generalizing out with
  | nil =>
      apply eventually_succ
      apply Eventually.of_forall
      intro n
      rw [List.flatMap_nil, List.nil_append, text_ascii (by decide), eraseParams, if_pos rfl]
      simp
  | cons t ts ih =>
      have htype := eraseOne_java t (hts t List.mem_cons_self)
        (ts.flatMap JavaType.text ++ ')' :: rest)
      have hnext := ih (fun t ht => hts t (List.mem_cons_of_mem _ ht))
        (out ++ erasedJava latin tvars t)
      apply eventually_succ
      filter_upwards [htype, hnext] with n hn hrest
      obtain ⟨c, s, hc, hother⟩ := javaText_cons t
      have hparen : ')' ≠ c := fun heq => hother (heq ▸ by simp)
      obtain ⟨u, us, heq, hu⟩ := text_cons_eq c (s ++ (ts.flatMap JavaType.text ++ ')' :: rest))
      rw [hc, List.cons_append, heq] at hn
      rw [List.flatMap_cons, List.append_assoc, hc, List.cons_append, heq, eraseParams,
        if_neg (hu ')' (by decide) hparen), hn]
      simp only [Option.bind_eq_bind, Option.bind_some]
      rw [hrest]
      simp

/-! ## Signatures -/

theorem eraseSignature_ref (t : RefType reserved) (ht : InTable tvars (tvarsOfRef t)) :
    ∀ᶠ n in atTop, eraseSignature n (utf8.text t.text) tvars = some (erasedRef latin tvars t) := by
  filter_upwards [eraseOne_ref t ht []] with n hn
  rw [List.append_nil] at hn
  obtain ⟨c, s, hc, hletter⟩ := refText_cons t
  have hother : c ≠ '<' ∧ c ≠ '(' ∧ c ≠ 'V' := by
    rcases hletter with rfl | rfl | rfl <;> decide
  obtain ⟨u, us, heq, hu⟩ := text_cons_eq c s
  rw [hc, heq] at hn ⊢
  have hhead : ∀ d : Char, d.toNat < 128 → d ≠ c → ¬(u :: us).head? = some (byte d) :=
    fun d hd hne h => hu d hd hne (Option.some.inj h)
  rw [eraseSignature, skipFormalSection, if_neg (hhead '<' (by decide) hother.1.symm)]
  simp only [Option.bind_eq_bind, Option.bind_some,
    if_neg (hhead '(' (by decide) hother.2.1.symm)]
  rw [eraseResult, if_neg (hhead 'V' (by decide) hother.2.2.symm), hn]
  rfl

/-- The last part of the descriptor of a method. -/
theorem eraseResult_text (t : Option (JavaType reserved))
    (ht : ∀ u ∈ t, InTable tvars (tvarsOfJava u)) (out : List Char) :
    ∀ᶠ n in atTop, (eraseResult tvars n out (utf8.text ((t.map JavaType.text).getD ['V']))) =
      some (out ++ erasedResult latin tvars t) := by
  cases t with
  | none => exact .of_forall fun n => rfl
  | some t =>
      filter_upwards [eraseOne_java t (ht t rfl) []] with n hn
      obtain ⟨c, s, hc, hother⟩ := javaText_cons t
      have hvoid : 'V' ≠ c := fun heq => hother (heq ▸ by simp)
      obtain ⟨u, us, heq, hu⟩ := text_cons_eq c s
      have hhead : ¬(utf8.text t.text).head? = some (byte 'V') := by
        rw [hc, heq]
        exact fun h => hu 'V' (by decide) hvoid (Option.some.inj h)
      rw [List.append_nil] at hn
      simp only [Option.map_some, Option.getD_some]
      rw [eraseResult, if_neg hhead, hn]
      rfl

theorem eraseSignature_method (s : MethodSignature reserved) (hthrows : s.throwsTypes = [])
    (hbounds : ∀ p ∈ s.typeParams, p.bounds ≠ [])
    (ht : InTable tvars ((erasedTypes s).flatMap tvarsOfJava)) :
    ∀ᶠ n in atTop, eraseSignature n (utf8.text s.text) tvars =
      some (erasedMethod latin tvars s) := by
  have htypes : ∀ t ∈ erasedTypes s, InTable tvars (tvarsOfJava t) := fun t hmem name hname =>
    ht name (List.mem_flatMap.2 ⟨t, hmem, hname⟩)
  have hparams := eraseParams_types s.params
    (fun t hmem => htypes t (List.mem_append_left _ hmem)) ['(']
    ((s.result.map JavaType.text).getD ['V'])
  have hresult := eraseResult_text s.result
    (fun t hmem => htypes t (List.mem_append_right _ (Option.mem_toList.2 hmem)))
    (['('] ++ s.params.flatMap (erasedJava latin tvars) ++ [')'])
  have hformals := @skipFormalSection_params s.typeParams hbounds '(' (by decide)
    (s.params.flatMap JavaType.text ++ ')' :: (s.result.map JavaType.text).getD ['V'])
  filter_upwards [hformals, hparams, hresult] with n hn hparams hresult
  rw [MethodSignature.text, hthrows, List.flatMap_nil, List.append_nil, List.append_assoc,
    List.cons_append, eraseSignature, hn, text_ascii (by decide)]
  simp only [Option.bind_eq_bind, Option.bind_some, List.head?_cons, if_true, List.tail_cons]
  rw [hparams]
  simp only [Option.bind_some]
  rw [hresult]
  simp [erasedMethod]

theorem stripClass_class (name : List Char) : stripClass ('L' :: name ++ [';']) = some name := by
  rw [List.cons_append, stripClass, if_pos ⟨rfl, List.getLast?_concat⟩, List.dropLast_concat]

theorem eraseSupers_types (ts : List (ClassType reserved)) (out : List (List Char)) :
    ∀ᶠ n in atTop, eraseSupers tvars n out (utf8.text (ts.flatMap fun t => t.ref.text)) =
      some (out ++ ts.map fun t => latin (className t.package t.part)) := by
  induction ts generalizing out with
  | nil =>
      apply eventually_succ
      apply Eventually.of_forall
      intro n
      rw [List.map_nil, List.append_nil]
      rfl
  | cons t ts ih =>
      have htype := @eraseOne_ref tvars t.ref (fun name h => absurd h List.not_mem_nil)
        (ts.flatMap fun t => t.ref.text)
      apply eventually_succ
      filter_upwards [htype, ih (out ++ [latin (className t.package t.part)])] with n hn hrest
      rw [List.flatMap_cons]
      simp only [ClassType.ref, RefType.text, List.cons_append] at hn ⊢
      rw [text_ascii (by decide)] at hn ⊢
      rw [eraseSupers, if_pos rfl, hn]
      simp only [Option.bind_eq_bind, Option.bind_some, erasedRef]
      rw [stripClass_class, Option.bind_some]
      simp only [ClassType.ref, RefType.text, List.cons_append] at hrest
      rw [hrest]
      simp

theorem eraseClassSignature_text (s : ClassSignature reserved)
    (hbounds : ∀ p ∈ s.typeParams, p.bounds ≠ []) :
    ∀ᶠ n in atTop, eraseClassSignature n (utf8.text s.text) tvars = some (erasedSupers latin s) := by
  have hsupers := @eraseSupers_types tvars (s.superclass :: s.interfaces) []
  obtain ⟨rest, hrest⟩ : ∃ rest, ((s.superclass :: s.interfaces).flatMap fun t => t.ref.text) =
      'L' :: rest := ⟨_, rfl⟩
  rw [hrest] at hsupers
  filter_upwards [@skipFormalSection_params s.typeParams hbounds 'L' (by decide) rest, hsupers]
    with n hn hsupers
  rw [ClassSignature.text, hrest, eraseClassSignature, hn, Option.bind_eq_bind, Option.bind_some,
    hsupers]
  rfl

/-! ## When this is the erasure -/

theorem latin_eq_iff (cs : List Char) : latin cs = cs ↔ IsAscii cs :=
  ⟨fun h => (length_latin cs).2 (congrArg List.length h), latin_ascii⟩

variable (tvars)

mutual

theorem length_erasedJava (t : JavaType reserved) :
    (erasedJava id tvars t).length ≤ (erasedJava latin tvars t).length ∧
      ((erasedJava latin tvars t).length = (erasedJava id tvars t).length →
        ∀ name ∈ classesOfJava t, IsAscii name) := by
  cases t with
  | base t => exact ⟨Nat.le_refl _, fun _ name h => absurd h List.not_mem_nil⟩
  | ref t => exact length_erasedRef t

theorem length_erasedRef (t : RefType reserved) :
    (erasedRef id tvars t).length ≤ (erasedRef latin tvars t).length ∧
      ((erasedRef latin tvars t).length = (erasedRef id tvars t).length →
        ∀ name ∈ classesOfRef t, IsAscii name) := by
  cases t with
  | typeVar name => exact ⟨Nat.le_refl _, fun _ name h => absurd h List.not_mem_nil⟩
  | array elem =>
      obtain ⟨hle, hascii⟩ := length_erasedJava elem
      simp only [erasedRef, List.length_cons, Nat.add_le_add_iff_right, Nat.add_right_cancel_iff]
      exact ⟨hle, hascii⟩
  | cls package part =>
      obtain ⟨hle, hascii⟩ := length_latin (className package part)
      simp only [erasedRef, id, List.length_append, List.length_cons, Nat.add_le_add_iff_right,
        Nat.add_right_cancel_iff, classesOfRef, List.mem_singleton, forall_eq]
      exact ⟨hle, hascii⟩

end

mutual

theorem erasedJava_ascii (t : JavaType reserved) (h : ∀ name ∈ classesOfJava t, IsAscii name) :
    erasedJava latin tvars t = erasedJava id tvars t := by
  cases t with
  | base t => rfl
  | ref t => exact erasedRef_ascii t h

theorem erasedRef_ascii (t : RefType reserved) (h : ∀ name ∈ classesOfRef t, IsAscii name) :
    erasedRef latin tvars t = erasedRef id tvars t := by
  cases t with
  | typeVar name => rfl
  | array elem => exact congrArg ('[' :: ·) (erasedJava_ascii elem h)
  | cls package part =>
      rw [erasedRef, latin_ascii (h _ List.mem_cons_self)]
      rfl

end

theorem erasedRef_eq_iff (t : RefType reserved) :
    erasedRef latin tvars t = erasedRef id tvars t ↔ ∀ name ∈ classesOfRef t, IsAscii name :=
  ⟨fun h => (length_erasedRef tvars t).2 (congrArg List.length h), erasedRef_ascii tvars t⟩

theorem length_erasedJavas (ts : List (JavaType reserved)) :
    (ts.flatMap (erasedJava id tvars)).length ≤ (ts.flatMap (erasedJava latin tvars)).length ∧
      ((ts.flatMap (erasedJava latin tvars)).length = (ts.flatMap (erasedJava id tvars)).length →
        ∀ name ∈ ts.flatMap classesOfJava, IsAscii name) := by
  induction ts with
  | nil => exact ⟨Nat.le_refl _, fun _ name h => absurd h List.not_mem_nil⟩
  | cons t ts ih =>
      obtain ⟨hle, hascii⟩ := length_erasedJava tvars t
      simp only [List.flatMap_cons, List.length_append, List.mem_append]
      constructor
      · exact Nat.add_le_add hle ih.1
      · intro h name hname
        rcases hname with hname | hname
        · exact hascii (by omega) name hname
        · exact ih.2 (by omega) name hname

theorem length_erasedResult (t : Option (JavaType reserved)) :
    (erasedResult id tvars t).length ≤ (erasedResult latin tvars t).length ∧
      ((erasedResult latin tvars t).length = (erasedResult id tvars t).length →
        ∀ name ∈ t.toList.flatMap classesOfJava, IsAscii name) := by
  cases t with
  | none => exact ⟨Nat.le_refl _, fun _ name h => absurd h List.not_mem_nil⟩
  | some t => simpa [erasedResult] using length_erasedJava tvars t

theorem erasedMethod_eq_iff (s : MethodSignature reserved) :
    erasedMethod latin tvars s = erasedMethod id tvars s ↔
      ∀ name ∈ (erasedTypes s).flatMap classesOfJava, IsAscii name := by
  obtain ⟨hparams, hparamsAscii⟩ := length_erasedJavas tvars s.params
  obtain ⟨hresult, hresultAscii⟩ := length_erasedResult tvars s.result
  constructor
  · intro h name hname
    have hlength := congrArg List.length h
    simp only [erasedMethod, List.length_append, List.length_cons] at hlength
    rw [erasedTypes, List.flatMap_append, List.mem_append] at hname
    rcases hname with hname | hname
    · exact hparamsAscii (by omega) name hname
    · exact hresultAscii (by omega) name hname
  · intro h
    have htypes : ∀ t ∈ erasedTypes s, erasedJava latin tvars t = erasedJava id tvars t :=
      fun t ht => erasedJava_ascii tvars t fun name hname =>
        h name (List.mem_flatMap.2 ⟨t, ht, hname⟩)
    have hparams : s.params.flatMap (erasedJava latin tvars) =
        s.params.flatMap (erasedJava id tvars) :=
      congrArg List.flatten (List.map_congr_left fun t ht =>
        htypes t (List.mem_append_left _ ht))
    have hresult : erasedResult latin tvars s.result = erasedResult id tvars s.result := by
      cases hr : s.result with
      | none => rfl
      | some t => exact htypes t (List.mem_append_right _ (by simp [hr]))
    rw [erasedMethod, hparams, hresult]
    rfl

theorem erasedSupers_eq_iff (s : ClassSignature reserved) :
    erasedSupers latin s = erasedSupers id s ↔
      ∀ t ∈ s.superclass :: s.interfaces, IsAscii (className t.package t.part) := by
  rw [erasedSupers, erasedSupers, List.map_inj_left]
  exact forall₂_congr fun t _ => latin_eq_iff _

/-- Both functions return the erasure if and only if the classes outside type arguments and bounds
have ASCII names. -/
theorem erase_eq_erasure_iff :
    (∀ s : MethodSignature reserved, s.throwsTypes = [] → (∀ p ∈ s.typeParams, p.bounds ≠ []) →
      InTable tvars ((erasedTypes s).flatMap tvarsOfJava) →
      ((∀ᶠ n in atTop, eraseSignature n (utf8.text s.text) tvars =
        some (erasedMethod id tvars s)) ↔
          ∀ name ∈ (erasedTypes s).flatMap classesOfJava, IsAscii name)) ∧
    (∀ t : RefType reserved, InTable tvars (tvarsOfRef t) →
      ((∀ᶠ n in atTop, eraseSignature n (utf8.text t.text) tvars = some (erasedRef id tvars t)) ↔
        ∀ name ∈ classesOfRef t, IsAscii name)) ∧
    ∀ s : ClassSignature reserved, (∀ p ∈ s.typeParams, p.bounds ≠ []) →
      ((∀ᶠ n in atTop, eraseClassSignature n (utf8.text s.text) tvars =
        some (erasedSupers id s)) ↔
          ∀ t ∈ s.superclass :: s.interfaces, IsAscii (className t.package t.part)) := by
  refine ⟨fun s hthrows hbounds ht => ?_, fun t ht => ?_, fun s hbounds => ?_⟩
  · rw [eventually_eq_iff (eraseSignature_method s hthrows hbounds ht), Option.some.injEq]
    exact erasedMethod_eq_iff tvars s
  · rw [eventually_eq_iff (eraseSignature_ref t ht), Option.some.injEq]
    exact erasedRef_eq_iff tvars t
  · rw [eventually_eq_iff (eraseClassSignature_text s hbounds), Option.some.injEq]
    exact erasedSupers_eq_iff s

/-- `A` -/
def nameA : Name where
  text := ['A']
  nonempty := by decide
  allowed := by simp

/-- `LA<TA;>;` -/
def boxOfA : RefType reserved := .cls [] (.last nameA (.arg .exact (.typeVar nameA) .nil))

/-- `<A::TA;>(TA;[I)LA<TA;>;`, `TA;` and `LA;LA;` -/
theorem erase_eq_erasure_iff_A :
    (∀ᶠ n in atTop, eraseSignature n (utf8.text
        ("<A::TA;>(TA;[I)LA<TA;>;".toList)) [(['A'], "Ljava/lang/Object;".toList)] =
      some "(Ljava/lang/Object;[I)LA;".toList) ∧
    (∀ᶠ n in atTop, eraseSignature n (utf8.text "TA;".toList)
        [(['A'], "Ljava/lang/Object;".toList)] = some "Ljava/lang/Object;".toList) ∧
    ∀ᶠ n in atTop, eraseClassSignature n (utf8.text "LA;LA;".toList)
        [(['A'], "Ljava/lang/Object;".toList)] = some [['A'], ['A']] := by
  obtain ⟨hmethod, hfield, hclass⟩ :=
    erase_eq_erasure_iff [(['A'], "Ljava/lang/Object;".toList)]
  refine ⟨?_, ?_, ?_⟩
  · exact (hmethod ⟨[⟨nameA, none, [.typeVar nameA]⟩],
      [.ref (.typeVar nameA), .ref (.array (.base .I))], some (.ref boxOfA), []⟩ rfl
      (by simp [TypeParam.bounds]) (by decide)).2 (by simp [erasedTypes, classesOfJava, classesOfRef,
      className, packageText, ClassPart.binaryName, boxOfA, nameA, IsAscii])
  · exact (hfield (.typeVar nameA) (by decide)).2 (by simp [classesOfRef])
  · exact (hclass ⟨[], ⟨[], .last nameA .nil⟩, [⟨[], .last nameA .nil⟩]⟩ (by simp)).2 (by simp [className,
      packageText, ClassPart.binaryName, nameA, IsAscii])

/-- `é` -/
def acuteName : Name where
  text := ['é']
  nonempty := by decide
  allowed := by simp

/-- `Lé;` is not what it erases to. -/
theorem erase_ne_erasure_acute :
    ¬∀ t : RefType reserved, InTable [] (tvarsOfRef t) →
      ∀ᶠ n in atTop, eraseSignature n (utf8.text t.text) [] = some (erasedRef id [] t) := by
  intro h
  have hin : InTable [] (tvarsOfRef (.cls [] (.last acuteName .nil))) := by decide
  have heq := (eventually_eq_iff (eraseSignature_ref _ hin) _).1 (h _ hin)
  have hascii := (erasedRef_eq_iff [] _).1 (Option.some.inj heq) ['é'] List.mem_cons_self
  exact absurd hascii (by simp [IsAscii])

end ScalaRs.SignatureErasure
