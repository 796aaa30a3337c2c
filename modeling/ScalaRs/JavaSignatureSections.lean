import ScalaRs.JavaSignatureReading

/-! # What is read of a whole Java signature

The type parameters with their bounds, and what comes after them in the signatures of classes,
methods and fields. -/
namespace ScalaRs.JavaSignatures
open CodeUnits JvmDescriptors JvmSignatures EnoughFuel Filter

/-! ## Bounds and type parameters -/

/-- The next type parameter begins like a type. -/
def beginsLikeType : List (TypeParam reserved) → Bool
  | [] => false
  | p :: _ => p.name.text.head? == some 'L' || p.name.text.head? == some 'T'

def readTparams : List (TypeParam reserved) → Option (List JParam)
  | [] => some []
  | p :: ps =>
      if IsWord p.name.text ∧ ¬(p.bounds = [] ∧ beginsLikeType ps = true) then do
        let bounds ← p.bounds.mapM readRef
        let rest ← readTparams ps
        some (⟨p.name.text, bounds⟩ :: rest)
      else none

theorem ident_before {cs : List Char} {d : Char} (hd : isWordChar d = false) (rest : List Char) :
    ident (utf8.text (cs ++ d :: rest)) = none ∨ ∃ part c s, (c ∈ cs ∨ c = d) ∧
      ident (utf8.text (cs ++ d :: rest)) = some (part, utf8.text (c :: s)) := by
  have hdrop : ∃ c s, (cs ++ d :: rest).dropWhile isWordChar = c :: s ∧ (c ∈ cs ∨ c = d) := by
    rw [List.dropWhile_append]
    cases hcs : cs.dropWhile isWordChar with
    | nil => exact ⟨d, rest, by simp [hd], .inr rfl⟩
    | cons c s => exact ⟨c, s ++ d :: rest, by simp,
        .inl ((List.dropWhile_suffix _).subset (hcs ▸ List.mem_cons_self))⟩
  obtain ⟨c, s, heq, hmem⟩ := hdrop
  rw [ident_text, heq]
  split
  · exact .inl rfl
  · exact .inr ⟨_, c, s, hmem, rfl⟩

/-- The name of a type parameter is no type: a type would have its semicolon before the colon. -/
theorem parseRef_name {name : Name} (hname : name.text.head? = some 'L' ∨ name.text.head? = some 'T')
    (rest : List Char) (n : ℕ) : parseRef n (utf8.text (name.text ++ ':' :: rest)) = none := by
  cases n with
  | zero => rfl
  | succ n =>
      obtain ⟨c, cs, hcs⟩ := List.exists_cons_of_ne_nil name.nonempty
      have hother (d : Char) (hd : d ∈ cs ∨ d = ':') : d ≠ ';' ∧ d ≠ '/' ∧ d ≠ '.' ∧ d ≠ '<' := by
        rcases hd with hd | rfl
        · have hallowed := name.allowed d (by rw [hcs]; exact List.mem_cons_of_mem _ hd)
          simp only [reserved, List.mem_cons, List.not_mem_nil, or_false, not_or] at hallowed
          exact ⟨hallowed.2.1, hallowed.2.2.2.1, hallowed.1, hallowed.2.2.2.2.1⟩
        · decide
      have hident := @ident_before cs ':' (by decide) rest
      rw [hcs, List.head?_cons, Option.some.injEq, Option.some.injEq] at hname
      rw [hcs, List.cons_append]
      rcases hname with rfl | rfl
      · rw [text_ascii (by decide), parseRef, if_neg (by decide), if_neg (by decide), if_pos rfl,
          ← text_ascii (by decide)]
        cases n with
        | zero => rfl
        | succ n =>
            rw [parseClass, eat_same (by decide)]
            cases n with
            | zero => rfl
            | succ n =>
                simp only [Option.bind_eq_bind, Option.bind_some]
                rw [parseSegments]
                rcases hident with hnone | ⟨part, d, s, hd, hsome⟩
                · rw [hnone]
                  rfl
                · obtain ⟨u, us, heq, hu⟩ := text_cons_eq d s
                  obtain ⟨h₁, h₂, h₃, h₄⟩ := hother d hd
                  simp only [hsome, heq, Option.bind_eq_bind, Option.bind_some]
                  rw [if_neg (hu '/' (by decide) h₂.symm), if_neg (hu '.' (by decide) h₃.symm),
                    if_neg (hu '<' (by decide) h₄.symm), if_neg (hu ';' (by decide) h₁.symm)]
      · rw [text_ascii (by decide), parseRef, if_pos rfl]
        rcases hident with hnone | ⟨part, d, s, hd, hsome⟩
        · rw [hnone]
          rfl
        · rw [hsome]
          simp only [Option.bind_eq_bind, Option.bind_some]
          rw [eat_other (by decide) (hother d hd).1.symm]
          rfl

theorem parseBounds_text (ts : List (RefType reserved)) (acc : List JType) {rest : List Char}
    (hrest : eat ':' (utf8.text rest) = none) :
    ∀ᶠ n in atTop, parseBounds n acc (utf8.text ((ts.flatMap fun t => ':' :: t.text) ++ rest)) =
      (ts.mapM readRef).map fun xs => (acc ++ xs, utf8.text rest) := by
  induction ts generalizing acc with
  | nil =>
      apply eventually_succ
      apply Eventually.of_forall
      intro n
      rw [List.flatMap_nil, List.nil_append, parseBounds, hrest]
      simp
  | cons t ts ih =>
      apply eventually_succ
      have ht := parseRef_text t ((ts.flatMap fun t => ':' :: t.text) ++ rest)
      rw [List.flatMap_cons, List.append_assoc, List.cons_append, List.mapM_cons]
      cases hread : readRef t with
      | none =>
          filter_upwards [ht] with n hn
          rw [parseBounds, eat_same (by decide)]
          dsimp only
          rw [hn, hread]
          rfl
      | some x =>
          filter_upwards [ht, ih (acc ++ [x])] with n hn hrest
          rw [parseBounds, eat_same (by decide)]
          dsimp only
          rw [hn, hread]
          simp only [Option.map_some, Option.bind_eq_bind, Option.bind_some, hrest]
          cases ts.mapM readRef <;> simp

theorem eat_name {c : Char} (hc : c ∈ reserved) (name : Name) (rest : List Char) :
    eat c (utf8.text (name.text ++ rest)) = none := by
  obtain ⟨d, ds, hds⟩ := List.exists_cons_of_ne_nil name.nonempty
  have hd := name.allowed d (by rw [hds]; exact List.mem_cons_self)
  rw [hds]
  exact eat_other (isWordChar_reserved hc).1 (fun heq => hd (by rwa [← heq])) _

theorem parseFirstBound_ref (t : RefType reserved) (rest : List Char) :
    ∀ᶠ n in atTop, parseFirstBound n (utf8.text (t.text ++ rest)) =
      (readRef t).map fun x => ([x], utf8.text rest) := by
  have hhead : (utf8.text (t.text ++ rest)).head? = some (JvmDescriptors.byte 'L') ∨
      (utf8.text (t.text ++ rest)).head? = some (JvmDescriptors.byte 'T') ∨
      (utf8.text (t.text ++ rest)).head? = some (JvmDescriptors.byte '[') := by
    obtain ⟨c, s, hc, hletter⟩ := refText_cons t
    rw [hc, List.cons_append]
    rcases hletter with rfl | rfl | rfl <;> rw [text_ascii (by decide)] <;> simp
  filter_upwards [parseRef_text t rest] with n hn
  rw [parseFirstBound, if_pos hhead, hn]
  cases readRef t <;> rfl

theorem parseFirstBound_other {c : Char} (hc : c ≠ 'L' ∧ c ≠ 'T' ∧ c ≠ '[') (s : List Char)
    (n : ℕ) : parseFirstBound n (utf8.text (c :: s)) = some ([], utf8.text (c :: s)) := by
  rw [parseFirstBound, if_neg]
  rw [head_text (by decide), head_text (by decide), head_text (by decide)]
  simp [hc]

theorem parseFirstBound_name {name : Name}
    (hname : name.text.head? = some 'L' ∨ name.text.head? = some 'T') (rest : List Char) (n : ℕ) :
    parseFirstBound n (utf8.text (name.text ++ ':' :: rest)) = none := by
  have hhead : ∀ c, name.text.head? = some c → (name.text ++ ':' :: rest).head? = some c := by
    intro c hc
    rw [List.head?_append, hc]
    rfl
  rw [parseFirstBound, if_pos, parseRef_name hname]
  · rfl
  · rw [head_text (by decide), head_text (by decide)]
    rcases hname with h | h
    · exact .inl (hhead _ h)
    · exact .inr (.inl (hhead _ h))

/-- What comes after the bounds of a type parameter. -/
def afterBounds (ps : List (TypeParam reserved)) (rest : List Char) : List Char :=
  ps.flatMap TypeParam.text ++ '>' :: rest

theorem afterBounds_cons (p : TypeParam reserved) (ps : List (TypeParam reserved))
    (rest : List Char) : afterBounds (p :: ps) rest = p.name.text ++ ':' ::
      (p.classBound.toList.flatMap RefType.text ++
        ((p.interfaceBounds.flatMap fun t => ':' :: t.text) ++ afterBounds ps rest)) := by
  simp [afterBounds, TypeParam.text]

theorem eat_afterBounds (ps : List (TypeParam reserved)) (rest : List Char) :
    eat ':' (utf8.text (afterBounds ps rest)) = none := by
  cases ps with
  | nil => exact eat_other (by decide) (by decide) rest
  | cons p ps =>
      rw [afterBounds_cons]
      exact eat_name (by decide) p.name _

/-- Without a bound, what comes next must not be taken for one. -/
theorem parseFirstBound_none (ps : List (TypeParam reserved)) (rest : List Char) (n : ℕ) :
    parseFirstBound n (utf8.text (afterBounds ps rest)) =
      if beginsLikeType ps then none else some ([], utf8.text (afterBounds ps rest)) := by
  cases ps with
  | nil => exact parseFirstBound_other (by decide) rest n
  | cons p ps =>
      rw [afterBounds_cons]
      by_cases hname : p.name.text.head? = some 'L' ∨ p.name.text.head? = some 'T'
      · rw [parseFirstBound_name hname, if_pos (by simpa [beginsLikeType] using hname)]
      · rw [if_neg (by simpa [beginsLikeType] using hname)]
        obtain ⟨c, cs, hcs⟩ := List.exists_cons_of_ne_nil p.name.nonempty
        have hallowed := p.name.allowed c (by rw [hcs]; exact List.mem_cons_self)
        rw [hcs, List.head?_cons, Option.some.injEq, Option.some.injEq, not_or] at hname
        simp only [reserved, List.mem_cons, List.not_mem_nil, or_false, not_or] at hallowed
        rw [hcs]
        exact parseFirstBound_other ⟨hname.1, hname.2, hallowed.2.2.1⟩ _ n

/-- All bounds of a type parameter. -/
theorem parseAllBounds_text (p : TypeParam reserved) (ps : List (TypeParam reserved))
    (rest : List Char) : ∀ᶠ n in atTop, ((parseFirstBound n (utf8.text
      (p.classBound.toList.flatMap RefType.text ++
        ((p.interfaceBounds.flatMap fun t => ':' :: t.text) ++ afterBounds ps rest)))).bind
          fun q => parseBounds n q.1 q.2) =
      if p.bounds = [] ∧ beginsLikeType ps = true then none
      else (p.bounds.mapM readRef).map fun xs => (xs, utf8.text (afterBounds ps rest)) := by
  have hbounds (acc : List JType) := parseBounds_text p.interfaceBounds acc
    (eat_afterBounds ps rest)
  cases hclass : p.classBound with
  | some t =>
      have hne : ¬(p.bounds = [] ∧ beginsLikeType ps = true) := by
        simp [TypeParam.bounds, hclass]
      rw [if_neg hne, TypeParam.bounds, hclass]
      simp only [Option.toList_some, List.flatMap_cons, List.flatMap_nil, List.append_nil,
        List.singleton_append, List.mapM_cons]
      have ht := parseFirstBound_ref t
        ((p.interfaceBounds.flatMap fun t => ':' :: t.text) ++ afterBounds ps rest)
      cases hread : readRef t with
      | none =>
          filter_upwards [ht] with n hn
          rw [hn, hread]
          rfl
      | some x =>
          filter_upwards [ht, hbounds [x]] with n hn hrest
          rw [hn, hread]
          simp only [Option.map_some, Option.bind_some, hrest, Option.bind_eq_bind]
          cases p.interfaceBounds.mapM readRef <;> simp
  | none =>
      simp only [TypeParam.bounds, hclass, Option.toList_none, List.flatMap_nil, List.nil_append]
      filter_upwards [hbounds []] with n hn
      cases hinterfaces : p.interfaceBounds with
      | nil =>
          rw [List.flatMap_nil, List.nil_append, parseFirstBound_none]
          rw [hinterfaces, List.flatMap_nil, List.nil_append] at hn
          cases beginsLikeType ps with
          | true => simp
          | false =>
              simp only [Bool.false_eq_true, if_false, Option.bind_some, hn, and_false]
              simp
      | cons t ts =>
          rw [hinterfaces] at hn
          rw [List.flatMap_cons, List.append_assoc, List.cons_append,
            parseFirstBound_other (by decide)]
          rw [List.flatMap_cons, List.append_assoc, List.cons_append] at hn
          rw [Option.bind_some, hn, if_neg (by simp)]
          simp

theorem parseTparamsLoop_text (ps : List (TypeParam reserved)) (acc : List JParam)
    (rest : List Char) :
    ∀ᶠ n in atTop, parseTparamsLoop n acc (utf8.text (afterBounds ps rest)) =
      (readTparams ps).map fun xs => (acc ++ xs, utf8.text rest) := by
  induction ps generalizing acc with
  | nil =>
      apply eventually_succ
      apply Eventually.of_forall
      intro n
      rw [afterBounds, List.flatMap_nil, List.nil_append, parseTparamsLoop, eat_same (by decide)]
      simp [readTparams]
  | cons p ps ih =>
      apply eventually_succ
      have hstep (n : ℕ) : parseTparamsLoop (n + 1) acc (utf8.text (afterBounds (p :: ps) rest)) =
          if IsWord p.name.text then
            ((parseFirstBound n (utf8.text (p.classBound.toList.flatMap RefType.text ++
              ((p.interfaceBounds.flatMap fun t => ':' :: t.text) ++ afterBounds ps rest)))).bind
                fun q => parseBounds n q.1 q.2).bind
                  fun q => parseTparamsLoop n (acc ++ [⟨p.name.text, q.1⟩]) q.2
          else none := by
        rw [afterBounds_cons, parseTparamsLoop, eat_name (by decide)]
        dsimp only
        have hident := @ident_eat (List JParam × Bytes) p.name ':' (by decide)
          (p.classBound.toList.flatMap RefType.text ++
            ((p.interfaceBounds.flatMap fun t => ':' :: t.text) ++ afterBounds ps rest))
          fun name s => ((parseFirstBound n s).bind fun q => parseBounds n q.1 q.2).bind
            fun q => parseTparamsLoop n (acc ++ [JParam.mk name q.1]) q.2
        rw [← hident]
        simp only [Option.bind_eq_bind, Option.bind_assoc]
      have hbounds := parseAllBounds_text p ps rest
      by_cases hgood : IsWord p.name.text ∧ ¬(p.bounds = [] ∧ beginsLikeType ps = true)
      · rw [readTparams, if_pos hgood]
        cases hread : p.bounds.mapM readRef with
        | none =>
            filter_upwards [hbounds] with n hn
            rw [hstep, if_pos hgood.1, hn, if_neg hgood.2, hread]
            rfl
        | some bounds =>
            filter_upwards [hbounds, ih (acc ++ [⟨p.name.text, bounds⟩])] with n hn hrest
            rw [hstep, if_pos hgood.1, hn, if_neg hgood.2, hread]
            simp only [Option.map_some, Option.bind_some, hrest, Option.bind_eq_bind]
            cases readTparams ps <;> simp
      · rw [readTparams, if_neg hgood]
        filter_upwards [hbounds] with n hn
        rw [hstep]
        split
        · rename_i hword
          rw [hn, if_pos (not_not.1 fun h => hgood ⟨hword, h⟩)]
          rfl
        · rfl

/-! ## Whole signatures -/

theorem parseTparams_text (ps : List (TypeParam reserved)) {c : Char} (hc : c ≠ '<')
    (rest : List Char) :
    ∀ᶠ n in atTop, parseTparams n (utf8.text (typeParamsText ps ++ c :: rest)) =
      (readTparams ps).map fun xs => (xs, utf8.text (c :: rest)) := by
  cases ps with
  | nil =>
      apply Eventually.of_forall
      intro n
      rw [typeParamsText, List.nil_append, parseTparams, eat_other (by decide) hc.symm]
      rfl
  | cons p ps =>
      filter_upwards [parseTparamsLoop_text (p :: ps) [] (c :: rest)] with n hn
      rw [afterBounds] at hn
      rw [typeParamsText, List.cons_append, List.cons_append, List.append_assoc,
        List.singleton_append, parseTparams, eat_same (by decide)]
      exact hn

theorem parseClass_text (t : ClassType reserved) (rest : List Char) :
    ∀ᶠ n in atTop, parseClass n (utf8.text (t.ref.text ++ rest)) =
      (readRef t.ref).map fun x => (x, utf8.text rest) := by
  filter_upwards [eventually_next (parseRef_text t.ref rest)] with n hn
  simp only [ClassType.ref, RefType.text, List.cons_append] at hn ⊢
  rw [text_ascii (by decide)] at hn ⊢
  exact hn

theorem parseSupers_text (ts : List (ClassType reserved)) (acc : List JType) :
    ∀ᶠ n in atTop, parseSupers n acc (utf8.text (ts.flatMap fun t => t.ref.text)) =
      (ts.mapM fun t => readRef t.ref).map (acc ++ ·) := by
  induction ts generalizing acc with
  | nil =>
      apply eventually_succ
      apply Eventually.of_forall
      intro n
      simp [parseSupers]
  | cons t ts ih =>
      apply eventually_succ
      have hne : utf8.text (t.ref.text ++ ts.flatMap fun t => t.ref.text) ≠ [] := by
        simp only [ClassType.ref, RefType.text, List.cons_append]
        rw [text_ascii (by decide)]
        exact List.cons_ne_nil _ _
      rw [List.flatMap_cons, List.mapM_cons]
      have ht := parseClass_text t (ts.flatMap fun t => t.ref.text)
      cases hread : readRef t.ref with
      | none =>
          filter_upwards [ht] with n hn
          rw [parseSupers, if_neg hne, hn, hread]
          rfl
      | some x =>
          filter_upwards [ht, ih (acc ++ [x])] with n hn hrest
          rw [parseSupers, if_neg hne, hn, hread]
          simp only [Option.map_some, Option.bind_eq_bind, Option.bind_some, hrest]
          cases ts.mapM fun t => readRef t.ref <;> simp

theorem javaText_eat (t : JavaType reserved) (rest : List Char) :
    eat ')' (utf8.text (t.text ++ rest)) = none := by
  cases t with
  | base t =>
      cases t <;> rw [JavaType.text, List.singleton_append] <;>
        exact eat_other (by decide) (by decide) rest
  | ref t =>
      obtain ⟨c, s, hc, hletter⟩ := refText_cons t
      rw [JavaType.text, hc, List.cons_append]
      rcases hletter with rfl | rfl | rfl <;> exact eat_other (by decide) (by decide) _

theorem parseParams_text (ts : List (JavaType reserved)) (acc : List JType) (rest : List Char) :
    ∀ᶠ n in atTop, parseParams n acc (utf8.text (ts.flatMap JavaType.text ++ ')' :: rest)) =
      (ts.mapM readJava).map fun xs => (acc ++ xs, utf8.text rest) := by
  induction ts generalizing acc with
  | nil =>
      apply eventually_succ
      apply Eventually.of_forall
      intro n
      rw [List.flatMap_nil, List.nil_append, parseParams, eat_same (by decide)]
      simp
  | cons t ts ih =>
      apply eventually_succ
      rw [List.flatMap_cons, List.append_assoc, List.mapM_cons]
      have ht := parseJavaType_text t (ts.flatMap JavaType.text ++ ')' :: rest)
      cases hread : readJava t with
      | none =>
          filter_upwards [ht] with n hn
          rw [parseParams, javaText_eat]
          dsimp only
          rw [hn, hread]
          rfl
      | some x =>
          filter_upwards [ht, ih (acc ++ [x])] with n hn hrest
          rw [parseParams, javaText_eat]
          dsimp only
          rw [hn, hread]
          simp only [Option.map_some, Option.bind_eq_bind, Option.bind_some, hrest]
          cases ts.mapM readJava <;> simp

def readClassSig (s : ClassSignature reserved) : Option ClassSig := do
  let tparams ← readTparams s.typeParams
  let supers ← (s.superclass :: s.interfaces).mapM fun t => readRef t.ref
  some ⟨tparams, supers⟩

def readResult : Option (JavaType reserved) → Option JType
  | some t => readJava t
  | none => some .void

def readMethodSig (s : MethodSignature reserved) : Option MethodSig := do
  let tparams ← readTparams s.typeParams
  let params ← s.params.mapM readJava
  let ret ← readResult s.result
  some ⟨tparams, params, ret⟩

theorem parseFieldSig_text (t : RefType reserved) :
    ∀ᶠ n in atTop, parseFieldSig n (utf8.text t.text) = readRef t := by
  filter_upwards [parseJavaType_text (.ref t) []] with n hn
  rw [List.append_nil, JavaType.text, readJava] at hn
  rw [parseFieldSig, hn]
  cases readRef t <;> rfl

theorem parseClassSig_text (s : ClassSignature reserved) :
    ∀ᶠ n in atTop, parseClassSig n (utf8.text s.text) = readClassSig s := by
  have hsupers := parseSupers_text (s.superclass :: s.interfaces) []
  have htext : ∃ rest, ((s.superclass :: s.interfaces).flatMap fun t => t.ref.text) = 'L' :: rest := by
    rw [List.flatMap_cons, ClassType.ref, RefType.text]
    exact ⟨_, rfl⟩
  obtain ⟨rest, hrest⟩ := htext
  rw [hrest] at hsupers
  filter_upwards [@parseTparams_text s.typeParams 'L' (by decide) rest, hsupers] with n hn hs
  rw [ClassSignature.text, hrest, parseClassSig, hn, readClassSig]
  cases readTparams s.typeParams with
  | none => rfl
  | some tparams =>
      simp only [Option.map_some, Option.bind_eq_bind, Option.bind_some, hs]
      cases List.mapM (fun t : ClassType reserved => readRef t.ref) (s.superclass :: s.interfaces) <;>
        rfl

theorem parseResult_text (result : Option (JavaType reserved)) (rest : List Char) :
    ∀ᶠ n in atTop, parseJavaType n (utf8.text ((result.map JavaType.text).getD ['V'] ++ rest)) =
      (readResult result).map fun x => (x, utf8.text rest) := by
  cases result with
  | none =>
      apply eventually_succ
      apply Eventually.of_forall
      intro n
      rw [Option.map_none, Option.getD_none, List.singleton_append, text_ascii (by decide)]
      rfl
  | some t => exact parseJavaType_text t rest

theorem parseMethodSig_text (s : MethodSignature reserved) :
    ∀ᶠ n in atTop, parseMethodSig n (utf8.text s.text) = readMethodSig s := by
  have hresult := parseResult_text s.result (s.throwsTypes.flatMap ThrowsType.text)
  have hparams := parseParams_text s.params []
    ((s.result.map JavaType.text).getD ['V'] ++ s.throwsTypes.flatMap ThrowsType.text)
  have htparams := @parseTparams_text s.typeParams '(' (by decide) (s.params.flatMap JavaType.text ++
    ')' :: ((s.result.map JavaType.text).getD ['V'] ++ s.throwsTypes.flatMap ThrowsType.text))
  filter_upwards [htparams, hparams, hresult] with n hn hp hr
  rw [MethodSignature.text, parseMethodSig, List.append_assoc, List.cons_append, hn, readMethodSig]
  cases readTparams s.typeParams with
  | none => rfl
  | some tparams =>
      simp only [Option.map_some, Option.bind_eq_bind, Option.bind_some]
      rw [eat_same (by decide), Option.bind_some, hp]
      cases s.params.mapM readJava with
      | none => rfl
      | some params =>
          simp only [Option.map_some, Option.bind_some, List.nil_append, hr]
          cases readResult s.result <;> rfl

end ScalaRs.JavaSignatures
