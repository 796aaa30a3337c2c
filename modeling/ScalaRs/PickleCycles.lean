import ScalaRs.SignatureTermination

/-! # Pickles whose signatures can be built

Building the signatures of a pickle has a result with enough fuel if and only if no reading
comes back to where it was. -/
namespace ScalaRs.Signatures
open Pickling CheckedReaders StoppingActions BranchingGraphs Filter

variable {p : Pickle} {debug : Entry → String}

/-! ## More fuel -/

section MoreFuel

variable {ty0 ty1 : Idx → BuilderM SigType} {n m : ℕ} (hty : ∀ id, moreFuel.Rel (ty0 id) (ty1 id))
  (hnm : n ≤ m)
include hty

theorem more_tparam (id : Idx) : moreFuel.Rel (tparam p ty0 id) (tparam p ty1 id) := by
  unfold tparam
  cases symInfo p id with
  | none => exact moreFuel_self _
  | some i => exact moreFuel.bind (hty i.info) fun bounds => moreFuel_self _

theorem more_param (id : Idx) : moreFuel.Rel (param p ty0 id) (param p ty1 id) := by
  unfold param
  cases symInfo p id with
  | none => exact moreFuel_self _
  | some i => exact moreFuel.bind (hty i.info) fun t => moreFuel_self _

include hnm

omit hty in
theorem more_macroImplPayload (id : Idx) :
    moreFuel.Rel (macroImplPayload p n id) (macroImplPayload p m id) := by
  apply moreFuel.bind (moreFuel_self _)
  intro annot
  cases annot with
  | none => exact moreFuel_self _
  | some annot =>
      dsimp only
      cases annot.args with
      | nil => exact moreFuel_self _
      | cons first rest =>
          dsimp only
          cases htree : peel p n first with
          | none =>
              intro s r hrun
              cases hrun
          | some tree =>
              rw [peel_mono hnm htree]
              exact moreFuel_self _

theorem more_macroImplOf (id : Idx) :
    moreFuel.Rel (macroImplOf p ty0 n id) (macroImplOf p ty1 m id) := by
  apply moreFuel.bind (more_macroImplPayload hnm id)
  intro mi
  cases mi with
  | none => exact moreFuel_self _
  | some mi =>
      apply moreFuel.bind (moreFuel_self _)
      intro trees
      apply moreFuel.bind
      · apply moreFuel.mapM
        intro t
        cases treeTpeAt p t with
        | none => exact moreFuel_self _
        | some tpe => exact hty tpe
      · exact fun targs => moreFuel_self _

theorem more_member (id : Idx) : moreFuel.Rel (member p ty0 n id) (member p ty1 m id) := by
  unfold member
  cases memberHead p id with
  | none => exact moreFuel_self _
  | some head =>
      obtain ⟨info, kind, name⟩ := head
      apply moreFuel.bind
      · unfold readReference
        cases referencePrefix p 64 info.info with
        | none => exact moreFuel_self _
        | some pre => exact moreFuel.bind (hty pre) fun t => moreFuel_self _
      intro reference
      apply moreFuel.bind (hty info.info)
      intro t
      apply moreFuel.bind
      · unfold readMacroImpl
        split
        · exact more_macroImplOf hty hnm id
        · exact moreFuel_self _
      · exact fun macroImpl => moreFuel_self _

theorem more_membersOf (owner : Idx) :
    moreFuel.Rel (membersOf p ty0 n owner) (membersOf p ty1 m owner) := by
  apply moreFuel.bind (moreFuel.mapM (more_member hty hnm) (owned p owner))
  exact fun members => moreFuel_self _

theorem more_tyAt (d : ℕ) (id : Idx) :
    moreFuel.Rel (tyAt p debug ty0 n d id) (tyAt p debug ty1 m d id) := by
  induction d generalizing id with
  | zero => exact moreFuel_self _
  | succ d ih =>
      have hlist : ∀ ids : List Idx, moreFuel.Rel (ids.mapM (tyAt p debug ty0 n d))
          (ids.mapM (tyAt p debug ty1 m d)) := fun ids => moreFuel.mapM ih ids
      rw [tyAt, tyAt]
      cases p.entry id with
      | none => exact moreFuel_self _
      | some e =>
          cases e with
          | SingleTpe pre sym => exact moreFuel.bind (ih pre) fun t => moreFuel_self _
          | SuperTpe thisTpe superTpe =>
              exact moreFuel.bind (ih thisTpe) fun t =>
                moreFuel.bind (ih superTpe) fun u => moreFuel_self _
          | TypeRefTpe pre sym args =>
              apply moreFuel.bind (moreFuel_self _)
              intro name
              apply moreFuel.bind (ih pre)
              intro preTy
              apply moreFuel.bind (moreFuel_self _)
              intro path
              exact moreFuel.bind (hlist args) fun args => moreFuel_self _
          | TypeBoundsTpe lo hi =>
              exact moreFuel.bind (ih lo) fun t => moreFuel.bind (ih hi) fun u => moreFuel_self _
          | RefinedTpe sym parents =>
              exact moreFuel.bind (more_membersOf hty hnm sym) fun decls =>
                moreFuel.bind (hlist parents) fun parents => moreFuel_self _
          | ClassInfoTpe sym parents =>
              exact moreFuel.bind (hlist parents) fun parents => moreFuel_self _
          | MethodTpe result params =>
              exact moreFuel.bind (moreFuel.mapM (more_param hty) params) fun params =>
                moreFuel.bind (ih result) fun result => moreFuel_self _
          | ImplicitMethodTpe result params =>
              exact moreFuel.bind (moreFuel.mapM (more_param hty) params) fun params =>
                moreFuel.bind (ih result) fun result => moreFuel_self _
          | PolyTpe result tparams =>
              exact moreFuel.bind (moreFuel.mapM (more_tparam hty) tparams) fun tparams =>
                moreFuel.bind (ih result) fun result => moreFuel_self _
          | ExistentialTpe result quantified =>
              exact moreFuel.bind (moreFuel.mapM (more_tparam hty) quantified) fun quantified =>
                moreFuel.bind (ih result) fun result => moreFuel_self _
          | AnnotatedTpe tpe annots => exact moreFuel.bind (ih tpe) fun t => moreFuel_self _
          | _ => exact moreFuel_self _

end MoreFuel

theorem more_ty (n : ℕ) (id : Idx) : moreFuel.Rel (ty p debug n id) (ty p debug (n + 1) id) := by
  induction n generalizing id with
  | zero => exact fun s r hrun => nomatch hrun
  | succ n ih => exact more_tyAt ih n.le_succ 65 id

theorem more_classInfo (n : ℕ) (info : Idx) :
    moreFuel.Rel (classInfo p debug n info) (classInfo p debug (n + 1) info) := by
  induction n generalizing info with
  | zero => exact fun s r hrun => nomatch hrun
  | succ n ih =>
      rw [classInfo, classInfo]
      cases p.entry info with
      | none => exact moreFuel_self _
      | some e =>
          cases e with
          | PolyTpe result tparams =>
              exact moreFuel.bind (moreFuel.mapM (more_tparam (more_ty n)) tparams) fun tps =>
                moreFuel.bind (ih result) fun below => moreFuel_self _
          | ClassInfoTpe sym parents =>
              exact moreFuel.bind (moreFuel.mapM (more_ty n) parents) fun parents =>
                moreFuel_self _
          | _ => exact moreFuel_self _

theorem more_classSig (n : ℕ) (cls : Idx × SymInfo) :
    moreFuel.Rel (classSig p debug n cls) (classSig p debug (n + 1) cls) := by
  apply moreFuel.bind (moreFuel_self _)
  intro _
  apply moreFuel.bind (more_classInfo n cls.2.info)
  intro info
  apply moreFuel.bind (more_membersOf (more_ty n) n.le_succ cls.1)
  exact fun members => moreFuel_self _

/-- More fuel changes no result. -/
theorem classSigs_succ {n : ℕ} {sigs : List ClassSig} (h : classSigs p debug n = some sigs) :
    classSigs p debug (n + 1) = some sigs := by
  obtain ⟨r, hr, hsigs⟩ := Option.map_eq_some_iff.mp h
  have hmore := moreFuel.mapM (more_classSig n) (classes p) ⟨p.fullNames, []⟩ r hr
  exact Option.map_eq_some_iff.mpr ⟨r, hmore, hsigs⟩

theorem eventually_classSigs {n : ℕ} {sigs : List ClassSig} (h : classSigs p debug n = some sigs) :
    ∀ᶠ m in atTop, classSigs p debug m = some sigs := by
  apply eventually_atTop.mpr
  refine ⟨n, fun m hm => ?_⟩
  induction hm with
  | refl => exact h
  | step _ ih => exact classSigs_succ ih

/-! ## Readings that never come back -/

/-- The nodes of the entries of the table. -/
def entryNodes (p : Pickle) : List Node :=
  ((List.range p.entries.length).map UInt32.ofNat).flatMap fun id =>
    [.ty id, .peel id, .classInfo id]

theorem mem_entryNodes {id : Idx} (h : p.entry id ≠ none) :
    Node.ty id ∈ entryNodes p ∧ Node.peel id ∈ entryNodes p ∧ Node.classInfo id ∈ entryNodes p := by
  have hlt : id.toNat < p.entries.length := by
    by_contra hge
    exact h (List.getElem?_eq_none (not_lt.mp hge))
  have hid : id ∈ (List.range p.entries.length).map UInt32.ofNat :=
    List.mem_map.mpr ⟨id.toNat, List.mem_range.mpr hlt, UInt32.ofNat_toNat⟩
  simp only [entryNodes, List.mem_flatMap]
  exact ⟨⟨id, hid, by simp⟩, ⟨id, hid, by simp⟩, ⟨id, hid, by simp⟩⟩

/-- Only readings of entries go on to others. -/
theorem inner_entryNodes : Inner (next p) (entryNodes p) := by
  intro a ha
  cases a with
  | ty id =>
      apply (mem_entryNodes _).1
      intro hnone
      exact ha (by simp [next, tyNodes, hnone])
  | peel id =>
      apply (mem_entryNodes _).2.1
      intro hnone
      exact ha (by simp [next, treeAt, hnone])
  | classInfo id =>
      apply (mem_entryNodes _).2.2
      intro hnone
      exact ha (by simp [next, hnone])

/-- No reading that the classes of the pickle start leads back to itself. -/
def NeverBack (p : Pickle) : Prop := ∀ a ∈ starts p, Acyclic (next p) a

theorem neverBack_iff : NeverBack p ↔ ∃ n, ∀ a ∈ starts p, Within (next p) n a := by
  constructor
  · intro h
    apply exists_within_forall
    intro a ha
    exact (exists_within_iff inner_entryNodes).mpr (h a ha)
  · intro h a ha
    obtain ⟨n, hn⟩ := h
    exact (hn a ha).acyclic

/-- A class `A` with neither parents nor members. -/
def plainClass : Pickle :=
  ⟨5, 2, [.TypeName "A", .ClassSym ⟨0, 2, 0, none, 3⟩ none, .NoneSym, .ClassInfoTpe 1 []],
    [2, 6, 3, 19], [none, none, none, none]⟩

theorem readPickle_plainClass : @readPickle debugBuild
    ⟨[5, 2, 4, 2, 1, 65, 6, 4, 0, 2, 0, 3, 3, 0, 19, 1, 1], by decide⟩ = .ok plainClass := by
  have hread : (match @readPickle debugBuild
      ⟨[5, 2, 4, 2, 1, 65, 6, 4, 0, 2, 0, 3, 3, 0, 19, 1, 1], by decide⟩ with
      | .ok p => decide (p = plainClass)
      | .error _ => false) = true := by
    decide +kernel
  split at hread
  · rename_i hp
    rw [hp, of_decide_eq_true hread]
  · cases hread

/-- A class `A` whose type is a polymorphic type with itself as the result. -/
def cyclicClass : Pickle :=
  ⟨5, 2, [.TypeName "A", .ClassSym ⟨0, 2, 0, none, 3⟩ none, .NoneSym, .PolyTpe 3 []],
    [2, 6, 3, 21], [none, none, none, none]⟩

theorem readPickle_cyclicClass : @readPickle debugBuild
    ⟨[5, 2, 4, 2, 1, 65, 6, 4, 0, 2, 0, 3, 3, 0, 21, 1, 3], by decide⟩ = .ok cyclicClass := by
  have hread : (match @readPickle debugBuild
      ⟨[5, 2, 4, 2, 1, 65, 6, 4, 0, 2, 0, 3, 3, 0, 21, 1, 3], by decide⟩ with
      | .ok p => decide (p = cyclicClass)
      | .error _ => false) = true := by
    decide +kernel
  split at hread
  · rename_i hp
    rw [hp, of_decide_eq_true hread]
  · cases hread

/-- Its only symbol is owned by no symbol. -/
theorem shortOwners_cyclicClass : ShortOwners cyclicClass := by
  have howner : ∀ i owner, cyclicClass.symOwner i = some owner →
      cyclicClass.symName owner = none := by
    intro i owner h
    unfold Pickle.symOwner Pickle.entry at h
    match hi : i.toNat with
    | 0 | 2 | 3 | n + 4 =>
        rw [hi] at h
        cases h
    | 1 =>
        rw [hi] at h
        cases h
        rfl
  intro i s k h
  cases h with
  | root _ _ => exact Nat.le_of_ble_eq_true rfl
  | top _ _ _ => exact Nat.le_of_ble_eq_true rfl
  | owned _ _ ho habove =>
      have hnone := howner i _ ho
      cases habove <;> simp_all

end ScalaRs.Signatures
