import ScalaRs.EnoughFuel
import ScalaRs.SignatureReadings

/-! # When building signatures ends

Building the signatures of a pickle ends if and only if no reading comes back to where it
was, as far as the full names of macro annotations are found. -/
namespace ScalaRs.Signatures
open Pickling StoppingActions BranchingGraphs

variable {p : Pickle} {I : Builder → Prop} {E : Prop} (ha : Answers p I E)
include ha

/-! ## Actions that always end -/

theorem stops_symFullName (id : Idx) : Stops I E True (symFullName p id) := (ha.names id).stops

theorem stops_pushUnresolved (message : String) : Stops I E True (pushUnresolved message) :=
  Stops.modify fun b hb => ha.unresolved b _ hb

theorem stops_symRefName (sym : Idx) : Stops I E True (symRefName p sym) := by
  unfold symRefName
  split
  · exact Stops.pure _
  · split
    · exact Stops.pure _
    · apply (stops_symFullName ha sym).true_bind
      intro name
      split
      · exact Stops.pure _
      · exact (stops_pushUnresolved ha _).true_bind fun _ => Stops.pure _

theorem stops_deprecation (id : Idx) : Stops I E True (deprecation p id) := by
  apply Stops.true_bind
  · apply Stops.findM
    intro a
    exact (stops_symFullName ha _).true_bind fun name => Stops.pure _
  · exact fun annot => Stops.pure _

theorem stops_parameterPath (pre : Idx) : Stops I E True (parameterPath p pre) := by
  unfold parameterPath
  split
  · split
    · exact stops_symFullName ha _
    · exact Stops.pure _
  · exact Stops.pure _

theorem stops_constantTpe (id c : Idx) : Stops I E True (constantTpe p id c) := by
  unfold constantTpe
  split
  · split
    · exact Stops.pure _
    · exact (stops_pushUnresolved ha _).true_bind fun _ => Stops.pure _
  · exact Stops.pure _
  · exact (stops_pushUnresolved ha _).true_bind fun _ => Stops.pure _

theorem stops_child (c : Idx) : Stops I E True (child p c) := by
  unfold child
  split
  · exact Stops.pure _
  · exact (stops_symFullName ha c).true_bind fun name => Stops.pure _

/-! ## Macro bindings -/

/-- The annotation itself names the class, or what it stands for does. -/
theorem recalls_named {id : Idx} {annot : AnnotInfo} {below : Option AnnotInfo}
    {m : BuilderM (Option AnnotInfo)} (hbelow : Recalls I E below none m)
    (hsome : below = none ∨ below = some annot) :
    Recalls I E (if nameOf p id = some MACRO_IMPL_ANNOT then some annot else below) none (do
      let name ← symFullName p id
      if name = some MACRO_IMPL_ANNOT then pure (some annot) else m) := by
  apply (ha.names id).bind
  · by_cases hname : nameOf p id = some MACRO_IMPL_ANNOT
    · simp only [hname, ↓reduceIte]
      exact Recalls.pure _
    · simp only [hname, ↓reduceIte]
      exact hbelow
  · simp only [reduceCtorEq, ↓reduceIte]
    apply hbelow.other
    by_cases hname : nameOf p id = some MACRO_IMPL_ANNOT
    · simp only [hname, ↓reduceIte]
      exact hsome.symm.imp_left Eq.symm
    · simp only [hname, ↓reduceIte]
      exact .inl trivial

theorem recalls_macroImplAnnot (id : Idx) :
    Recalls I E (macroAnnot p id) none (macroImplAnnot p id) := by
  cases hfirst : p.entries.findSome? (annotOf id) with
  | none =>
      simp only [macroAnnot, macroImplAnnot, hfirst]
      exact Recalls.pure none
  | some annot =>
      simp only [macroAnnot, macroImplAnnot, hfirst]
      apply recalls_named ha
      -- the annotation type may be a reference to the class
      · generalize p.entry annot.tpe = entry
        cases entry with
        | none => exact Recalls.pure none
        | some entry =>
            cases entry with
            | TypeRefTpe pre sym args =>
                apply (ha.names sym).bind
                · exact Recalls.pure _
                · exact Recalls.other (E := True) (Recalls.pure none) (.inr rfl)
            | _ => exact Recalls.pure none
      · split
        · split
          · exact .inr rfl
          · exact .inl rfl
        · exact .inl rfl

variable {Q : Node → Prop} {n : ℕ} (hpeel : ∀ id, (∃ tree, peel p n id = some tree) ↔ Q (.peel id))

omit ha in
theorem peel_succ {m : ℕ} {id : Idx} {tree : Option Tree} (h : peel p m id = some tree) :
    peel p (m + 1) id = some tree := by
  induction m generalizing id with
  | zero => cases h
  | succ m ih =>
      rw [peel] at h ⊢
      split at h
      · exact ih h
      · exact h

omit ha in
theorem peel_mono {m k : ℕ} (hmk : m ≤ k) {id : Idx} {tree : Option Tree}
    (h : peel p m id = some tree) : peel p k id = some tree := by
  induction hmk with
  | refl => exact h
  | step _ ih => exact peel_succ ih

omit ha in
theorem isBinding_iff {first : Idx} {tree : Option Tree} (h : peel p n first = some tree) :
    IsBinding p first ↔ ∃ mi, payload p tree = some mi := by
  constructor
  · intro hb
    obtain ⟨m, tree', mi, hpeel, hmi⟩ := hb
    have heq := (peel_mono (le_max_left m n) hpeel).symm.trans (peel_mono (le_max_right m n) h)
    cases heq
    exact ⟨mi, hmi⟩
  · intro hmi
    obtain ⟨mi, hmi⟩ := hmi
    exact ⟨n, tree, mi, h, hmi⟩

theorem recalls_macroImplTargTrees {id first : Idx} {rest : List Idx} {annot : AnnotInfo}
    (hannot : macroAnnot p id = some annot) (hargs : annot.args = first :: rest) :
    Recalls I E (targTrees p first) [] (macroImplTargTrees p id) := by
  apply (recalls_macroImplAnnot ha id).bind
  · simp only [hannot, hargs]
    exact Recalls.pure _
  · exact Recalls.other (E := True) (Recalls.pure []) (.inr rfl)

variable {ty0 : Idx → BuilderM SigType} (hty : ∀ id, Stops I E (Q (.ty id)) (ty0 id))
include hty

theorem stops_targs {first : Idx} {id : Idx} {rest : List Idx} {annot : AnnotInfo}
    (hannot : macroAnnot p id = some annot) (hargs : annot.args = first :: rest) (mi : MacroImpl) :
    Stops I E (∀ b ∈ targNodes p first, Q b) (do
      let trees ← macroImplTargTrees p id
      let targs ← trees.mapM fun t =>
        match treeTpeAt p t with
        | some tpe => ty0 tpe
        | none => pure SigType.None
      pure (some { mi with targs := targs })) := by
  have htarg : ∀ t, Stops I E (∀ b ∈ (treeTpeAt p t).toList.map Node.ty, Q b)
      (match treeTpeAt p t with
        | some tpe => ty0 tpe
        | none => pure SigType.None) := by
    intro t
    cases treeTpeAt p t with
    | none => exact (Stops.pure _).of_iff (by simp)
    | some tpe => exact (hty tpe).of_iff (by simp)
  have hall : ∀ trees : List Idx, Stops I E
      (∀ t ∈ trees, ∀ b ∈ (treeTpeAt p t).toList.map Node.ty, Q b) (do
      let targs ← trees.mapM fun t =>
        match treeTpeAt p t with
        | some tpe => ty0 tpe
        | none => pure SigType.None
      pure (some { mi with targs := targs })) := by
    intro trees
    exact (Stops.mapM trees fun t _ => htarg t).bind_true fun targs => Stops.pure _
  apply (recalls_macroImplTargTrees ha hannot hargs).bind_stops
  · apply (hall (targTrees p first)).of_iff
    simp only [targNodes, List.mem_flatMap]
    grind
  · exact (hall []).of_iff (by simp)

include hpeel

theorem stops_macroImplOf (id : Idx) :
    Stops I E (∀ b ∈ macroNodes p id, Q b) (macroImplOf p ty0 n id) := by
  unfold macroImplOf macroImplPayload
  rw [bind_assoc]
  apply (recalls_macroImplAnnot ha id).bind_stops
  · cases hannot : macroAnnot p id with
    | none =>
        simp only [macroNodes, hannot, pure_bind]
        exact (Stops.pure _).of_iff (by simp)
    | some annot =>
        cases hargs : annot.args with
        | nil =>
            simp only [macroNodes, hannot, hargs, pure_bind]
            exact (Stops.pure _).of_iff (by simp)
        | cons first rest =>
            simp only [macroNodes, hannot, hargs, List.forall_mem_cons, ← hpeel]
            cases htree : peel p n first with
            | none =>
                exact Stops.failure_bind.of_iff (by simp)
            | some tree =>
                simp only [pure_bind]
                cases hmi : payload p tree with
                | none =>
                    have hbinding : ¬ IsBinding p first := by simp [isBinding_iff htree, hmi]
                    exact (Stops.pure _).of_iff (by simp [hbinding])
                | some mi =>
                    have hbinding : IsBinding p first := by simp [isBinding_iff htree, hmi]
                    exact (stops_targs ha hty hannot hargs mi).of_iff (by simp [hbinding])
  · simp only [pure_bind]
    exact Stops.pure _

/-! ## Members and types -/

omit ha hpeel in
theorem stops_tparam (id : Idx) : Stops I E (∀ b ∈ infoNodes p id, Q b) (tparam p ty0 id) := by
  unfold tparam
  cases hinfo : symInfo p id with
  | none => exact ((Stops.pure _).bind_true fun t => Stops.pure _).of_iff (by simp [infoNodes, hinfo])
  | some i => exact ((hty i.info).bind_true fun t => Stops.pure _).of_iff (by simp [infoNodes, hinfo])

omit ha hpeel in
theorem stops_param (id : Idx) : Stops I E (∀ b ∈ infoNodes p id, Q b) (param p ty0 id) := by
  unfold param
  cases hinfo : symInfo p id with
  | none => exact (Stops.pure _).of_iff (by simp [infoNodes, hinfo])
  | some i => exact ((hty i.info).bind_true fun t => Stops.pure _).of_iff (by simp [infoNodes, hinfo])

theorem stops_member (id : Idx) :
    Stops I E (∀ b ∈ memberNodes p id, Q b) (member p ty0 n id) := by
  unfold member memberNodes
  cases hhead : memberHead p id with
  | none => exact (Stops.pure _).of_iff (by simp)
  | some head =>
      obtain ⟨info, kind, name⟩ := head
      have hreference : Stops I E
          (∀ b ∈ (referencePrefix p 64 info.info).toList.map Node.ty, Q b)
          (readReference p ty0 info) := by
        unfold readReference
        cases referencePrefix p 64 info.info with
        | none => exact (Stops.pure _).of_iff (by simp)
        | some pre => exact ((hty pre).bind_true fun t => Stops.pure _).of_iff (by simp)
      have hmacro : Stops I E
          (∀ b ∈ if has info pflags.MACRO then macroNodes p id else [], Q b)
          (readMacroImpl p ty0 n id info) := by
        unfold readMacroImpl
        cases has info pflags.MACRO with
        | false => exact (Stops.pure _).of_iff (by simp)
        | true => exact stops_macroImplOf ha hpeel hty id
      have hnodes : ∀ (l : List Node) (a : Node) (l' : List Node),
          ((∀ b ∈ l, Q b) ∧ Q a ∧ ∀ b ∈ l', Q b) ↔ ∀ b ∈ l ++ a :: l', Q b := by
        simp only [List.forall_mem_append, List.forall_mem_cons, implies_true]
      apply Stops.of_iff _ (hnodes _ _ _)
      exact hreference.bind fun reference => (hty info.info).bind fun t =>
        hmacro.bind_true fun macroImpl => (stops_deprecation ha id).true_bind fun deprecated =>
          Stops.pure _

theorem stops_membersOf (owner : Idx) :
    Stops I E (∀ b ∈ membersNodes p owner, Q b) (membersOf p ty0 n owner) := by
  apply ((Stops.mapM (owned p owner) fun id _ => stops_member ha hpeel hty id).bind_true
    fun members => Stops.pure _).of_iff
  exact List.forall_mem_flatMap.symm

omit ha hpeel hty in
/-- What the parameters of a type are declared with, and then its result. -/
theorem stops_binder {α : Type} {f : Idx → BuilderM α} {k : List α → SigType → SigType}
    (hf : ∀ id, Stops I E (∀ b ∈ infoNodes p id, Q b) (f id)) (ids : List Idx)
    {m : BuilderM SigType} {nodes : List Node} (hm : Stops I E (∀ b ∈ nodes, Q b) m) :
    Stops I E (∀ b ∈ ids.flatMap (infoNodes p) ++ nodes, Q b) (do
      let xs ← ids.mapM f
      let result ← m
      pure (k xs result)) := by
  apply ((Stops.mapM ids fun id _ => hf id).bind fun xs => hm.bind_true fun result =>
    Stops.pure _).of_iff
  simp only [List.forall_mem_append, List.forall_mem_flatMap]

theorem stops_tyAt (debug : Entry → String) (d : ℕ) (id : Idx) :
    Stops I E (∀ b ∈ tyNodes p d id, Q b) (tyAt p debug ty0 n d id) := by
  induction d generalizing id with
  | zero => exact (Stops.pure _).of_iff (by simp [tyNodes])
  | succ d ih =>
      have hlist : ∀ ids : List Idx, Stops I E (∀ b ∈ ids.flatMap (tyNodes p d), Q b)
          (ids.mapM (tyAt p debug ty0 n d)) := by
        intro ids
        exact (Stops.mapM ids fun id _ => ih id).of_iff List.forall_mem_flatMap.symm
      have htwo : ∀ (x y : Idx) (k : SigType → SigType → SigType),
          Stops I E (∀ b ∈ tyNodes p d x ++ tyNodes p d y, Q b) (do
            let t ← tyAt p debug ty0 n d x
            let u ← tyAt p debug ty0 n d y
            pure (k t u)) := by
        intro x y k
        apply ((ih x).bind fun t => (ih y).bind_true fun u => Stops.pure _).of_iff
        exact List.forall_mem_append.symm
      have hleaf : ∀ m : BuilderM SigType, Stops I E True m → Stops I E (∀ b ∈ ([] : List Node), Q b) m :=
        fun m hm => hm.of_iff (by simp)
      rw [tyAt, tyNodes]
      cases p.entry id with
      | none => exact hleaf _ (Stops.pure _)
      | some e =>
          cases e with
          | NoTpe | NoPrefixTpe => exact hleaf _ (Stops.pure _)
          | ThisTpe s =>
              exact hleaf _ ((stops_symRefName ha s).true_bind fun cls => Stops.pure _)
          | SingleTpe pre sym =>
              exact (ih pre).bind_true fun t =>
                (stops_symRefName ha sym).true_bind fun name => Stops.pure _
          | SuperTpe thisTpe superTpe => exact htwo thisTpe superTpe _
          | ConstantTpe c => exact hleaf _ (stops_constantTpe ha id c)
          | TypeRefTpe pre sym args =>
              apply Stops.of_iff _ List.forall_mem_append.symm
              apply (stops_symRefName ha sym).true_bind
              intro name
              apply (ih pre).bind
              intro preTy
              apply (stops_parameterPath ha pre).true_bind
              intro path
              exact (hlist args).bind_true fun args => Stops.pure _
          | TypeBoundsTpe lo hi => exact htwo lo hi _
          | RefinedTpe sym parents =>
              apply Stops.of_iff _ List.forall_mem_append.symm
              exact (stops_membersOf ha hpeel hty sym).bind fun decls =>
                (hlist parents).bind_true fun parents => Stops.pure _
          | ClassInfoTpe _ parents => exact (hlist parents).bind_true fun parents => Stops.pure _
          | MethodTpe result params =>
              exact stops_binder (stops_param hty) params (ih result)
          | ImplicitMethodTpe result params =>
              exact stops_binder (stops_param hty) params (ih result)
          | PolyTpe result tparams => exact stops_binder (stops_tparam hty) tparams (ih result)
          | ExistentialTpe result quantified =>
              exact stops_binder (stops_tparam hty) quantified (ih result)
          | AnnotatedTpe tpe annots => exact (ih tpe).bind_true fun t => Stops.pure _
          | _ => exact hleaf _ ((stops_pushUnresolved ha _).true_bind fun _ => Stops.pure _)

/-! ## Classes -/

variable (debug : Entry → String)

omit ha hpeel hty in
theorem peel_iff_within (n : ℕ) (id : Idx) :
    (∃ tree, peel p n id = some tree) ↔ Within (next p) n (.peel id) := by
  induction n generalizing id with
  | zero => simp [peel, Within]
  | succ n ih =>
      rw [peel, Within, next]
      cases treeAt p id with
      | none => simp
      | some tree =>
          cases tree with
          | TypeApply function args => simpa using ih function
          | _ => simp

omit hpeel hty in
theorem stops_ty (n : ℕ) (id : Idx) : Stops I E (Within (next p) n (.ty id)) (ty p debug n id) := by
  induction n generalizing id with
  | zero => exact Stops.failure
  | succ n ih => exact stops_tyAt ha (peel_iff_within n) ih debug 65 id

omit hpeel hty in
theorem stops_classInfo (n : ℕ) (info : Idx) :
    Stops I E (Within (next p) n (.classInfo info)) (classInfo p debug n info) := by
  induction n generalizing info with
  | zero => exact Stops.failure
  | succ n ih =>
      rw [classInfo, Within, next]
      cases p.entry info with
      | none => exact (Stops.pure _).of_iff (by simp)
      | some e =>
          cases e with
          | PolyTpe result tparams =>
              apply ((Stops.mapM tparams fun id _ => stops_tparam (stops_ty ha debug n) id).bind
                fun tps => (ih result).bind_true fun below => Stops.pure (tps, below.2)).of_iff
              simp only [List.forall_mem_append, List.forall_mem_flatMap,
                List.forall_mem_singleton]
          | ClassInfoTpe sym parents =>
              apply ((Stops.mapM parents fun id _ => stops_ty ha debug n id).bind_true
                fun parents => Stops.pure ([], parents)).of_iff
              simp only [List.forall_mem_map]
          | _ => exact (Stops.pure _).of_iff (by simp)

omit hpeel hty in
theorem stops_classSig (n : ℕ) (cls : Idx × SymInfo) :
    Stops I E (∀ b ∈ Node.classInfo cls.2.info :: membersNodes p cls.1, Within (next p) n b)
      (classSig p debug n cls) := by
  apply Stops.of_iff _ List.forall_mem_cons.symm
  apply (Stops.modify fun b hb => ha.unresolved b _ hb).true_bind
  intro _
  apply (stops_classInfo ha debug n cls.2.info).bind
  intro info
  apply (stops_membersOf ha (peel_iff_within n) (stops_ty ha debug n) cls.1).bind_true
  intro members
  apply (stops_deprecation ha cls.1).true_bind
  intro deprecated
  apply Stops.true_bind
  · exact (Stops.mapM (childrenOf p cls.1) fun c _ => stops_child ha c).of_iff (by simp)
  intro kids
  apply (stops_symFullName ha cls.1).true_bind
  intro name
  exact Stops.get.true_bind fun b => Stops.pure _

omit hpeel hty in
theorem stops_classes (n : ℕ) : Stops I E (∀ b ∈ starts p, Within (next p) n b)
    ((classes p).mapM (classSig p debug n)) := by
  apply (Stops.mapM (classes p) fun cls _ => stops_classSig ha debug n cls).of_iff
  exact List.forall_mem_flatMap.symm

omit hpeel hty in
theorem classSigs_isSome (hinit : I ⟨p.fullNames, []⟩) {n : ℕ}
    (h : ∀ b ∈ starts p, Within (next p) n b) : ∃ sigs, classSigs p debug n = some sigs := by
  obtain ⟨r, hr⟩ := (stops_classes ha debug n).stops h _ hinit
  exact ⟨r.1, Option.map_eq_some_iff.mpr ⟨r, hr, rfl⟩⟩

omit hpeel hty in
theorem within_of_classSigs (he : E) (hinit : I ⟨p.fullNames, []⟩) {n : ℕ} {sigs : List ClassSig}
    (h : classSigs p debug n = some sigs) : ∀ b ∈ starts p, Within (next p) n b := by
  obtain ⟨r, hr, -⟩ := Option.map_eq_some_iff.mp h
  exact (stops_classes ha debug n).needs he _ r hinit hr

end ScalaRs.Signatures
