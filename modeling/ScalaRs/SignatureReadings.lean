import ScalaRs.BranchingGraphs
import ScalaRs.SignatureBuilder
import ScalaRs.StoppingActions

/-! # What building a signature reads anew

Each reading that starts from depth zero, each type application peeled off and each step
along the result of a class's type is a node; the next ones are those it goes on to. -/
namespace ScalaRs.Signatures
open Pickling StoppingActions

inductive Node
  | ty (id : Idx)
  | peel (id : Idx)
  | classInfo (id : Idx)

variable (p : Pickle)

open Classical in
/-- The full name along the owners of a symbol, however many they are. -/
noncomputable def nameOf (id : Idx) : Option String :=
  if h : ∃ s k, FullName p id s k then some h.choose else none

open Classical in
/-- The `@macroImpl` annotation of a symbol, by full names. -/
noncomputable def macroAnnot (id : Idx) : Option AnnotInfo :=
  match p.entries.findSome? (annotOf id) with
  | none => none
  | some annot =>
    if nameOf p annot.tpe = some MACRO_IMPL_ANNOT then some annot
    else
      match p.entry annot.tpe with
      | some (.TypeRefTpe _ sym _) =>
        if nameOf p sym = some MACRO_IMPL_ANNOT then some annot else none
      | _ => none

/-- Below its type applications the tree is a payload that can be read. -/
def IsBinding (id : Idx) : Prop :=
  ∃ n tree mi, peel p n id = some tree ∧ payload p tree = some mi

def targNodes (id : Idx) : List Node :=
  (targTrees p id).flatMap fun t => (treeTpeAt p t).toList.map .ty

open Classical in
noncomputable def macroNodes (id : Idx) : List Node :=
  match macroAnnot p id with
  | none => []
  | some annot =>
    match annot.args with
    | [] => []
    | first :: _ => .peel first :: if IsBinding p first then targNodes p first else []

def infoNodes (id : Idx) : List Node := (symInfo p id).toList.map fun i => .ty i.info

noncomputable def memberNodes (id : Idx) : List Node :=
  match memberHead p id with
  | none => []
  | some (info, _, _) =>
    (referencePrefix p 64 info.info).toList.map .ty ++
      .ty info.info :: if has info pflags.MACRO then macroNodes p id else []

noncomputable def membersNodes (owner : Idx) : List Node := (owned p owner).flatMap (memberNodes p)

/-- What reading a type with this many layers left goes on to. -/
noncomputable def tyNodes : ℕ → Idx → List Node
  | 0, _ => []
  | d + 1, id =>
    match p.entry id with
    | some (.SingleTpe pre _) => tyNodes d pre
    | some (.SuperTpe thisTpe superTpe) => tyNodes d thisTpe ++ tyNodes d superTpe
    | some (.TypeRefTpe pre _ args) => tyNodes d pre ++ args.flatMap (tyNodes d)
    | some (.TypeBoundsTpe lo hi) => tyNodes d lo ++ tyNodes d hi
    | some (.RefinedTpe sym parents) => membersNodes p sym ++ parents.flatMap (tyNodes d)
    | some (.ClassInfoTpe _ parents) => parents.flatMap (tyNodes d)
    | some (.MethodTpe result params) => params.flatMap (infoNodes p) ++ tyNodes d result
    | some (.ImplicitMethodTpe result params) => params.flatMap (infoNodes p) ++ tyNodes d result
    | some (.PolyTpe result tparams) => tparams.flatMap (infoNodes p) ++ tyNodes d result
    | some (.ExistentialTpe result quantified) =>
      quantified.flatMap (infoNodes p) ++ tyNodes d result
    | some (.AnnotatedTpe tpe _) => tyNodes d tpe
    | _ => []

noncomputable def next : Node → List Node
  | .ty id => tyNodes p 65 id
  | .peel id =>
    match treeAt p id with
    | some (.TypeApply function _) => [.peel function]
    | _ => []
  | .classInfo info =>
    match p.entry info with
    | some (.PolyTpe result tparams) => tparams.flatMap (infoNodes p) ++ [.classInfo result]
    | some (.ClassInfoTpe _ parents) => parents.map .ty
    | _ => []

/-- What the signatures of all classes start from. -/
noncomputable def starts : List Node :=
  (classes p).flatMap fun cls => .classInfo cls.2.info :: membersNodes p cls.1

/-! ## Full names -/

variable {p}

theorem isName_nameOf (id : Idx) : IsName p id (nameOf p id) := by
  intro s
  rw [nameOf]
  split
  · rename_i h
    obtain ⟨k, hk⟩ := h.choose_spec
    constructor
    · intro hs
      exact ⟨k, Option.some.inj hs ▸ hk⟩
    · intro hs
      obtain ⟨l, hl⟩ := hs
      rw [(hk.unique hl).1]
  · rename_i h
    constructor
    · exact nofun
    · exact fun hs => absurd ⟨s, hs⟩ h

/-- The invariant of the slots decides what is answered for full names. -/
structure Answers (p : Pickle) (I : Builder → Prop) (E : Prop) : Prop where
  names : ∀ id, Recalls I E (nameOf p id) none (symFullName p id)
  unresolved : ∀ b u, I b → I { b with unresolved := u }

/-- A name that is known is the one along the owners. -/
def Knows (p : Pickle) (id : Idx) (name : Option String) : Prop :=
  ∀ s, name = some s → ∃ k, FullName p id s k

/-- Every name in a slot is the one along the owners. -/
structure Sound (p q : Pickle) : Prop where
  entries : q.entries = p.entries
  names : ∀ (i : Idx) (name : Option String),
    q.fullNames[i.toNat]? = some (some name) → Knows p i name

theorem Sound.getOrInit {q : Pickle} (h : Sound p q) {i : Idx} {name : Option String}
    (hn : Knows p i name) :
    Knows p i (q.getOrInit i name).1 ∧ Sound p (q.getOrInit i name).2 := by
  unfold Pickle.getOrInit
  split
  · exact ⟨h.names i _ ‹_›, h⟩
  · refine ⟨hn, h.entries, ?_⟩
    intro j w hj
    by_cases hij : i = j
    · subst hij
      rw [List.getElem?_set_self'] at hj
      cases hq : q.fullNames[i.toNat]? with
      | none => simp [hq] at hj
      | some v =>
        obtain rfl : name = w := by simpa [hq] using hj
        exact hn
    · have hne : i.toNat ≠ j.toNat := fun he => hij (UInt32.toNat_inj.mp he)
      rw [List.getElem?_set_ne hne] at hj
      exact h.names j w hj

theorem knows_none {id : Idx} : Knows p id none := fun _ h => nomatch h

theorem knows_some {id : Idx} {s : String} {k : ℕ} (h : FullName p id s k) : Knows p id (some s) := by
  intro t ht
  cases ht
  exact ⟨k, h⟩

/-- Whatever depth is left, an answer is the name along the owners. -/
theorem sound_fullNameAt {q : Pickle} (hq : Sound p q) (fuel : ℕ) (i : Idx) :
    Knows p i (q.fullNameAt fuel i).1 ∧ Sound p (q.fullNameAt fuel i).2 := by
  have hentry : ∀ i, q.entry i = p.entry i := by simp [Pickle.entry, hq.entries]
  have hname : ∀ i, q.symName i = p.symName i := by simp [Pickle.symName, Pickle.name, hentry]
  have howner : ∀ i, q.symOwner i = p.symOwner i := by simp [Pickle.symOwner, hentry]
  induction fuel generalizing i with
  | zero =>
    unfold Pickle.fullNameAt
    split
    · exact ⟨knows_none, hq⟩
    · exact ⟨hq.names i _ ‹_›, hq⟩
    · exact ⟨knows_none, hq⟩
  | succ fuel ih =>
    unfold Pickle.fullNameAt
    split
    · exact ⟨knows_none, hq⟩
    · exact ⟨hq.names i _ ‹_›, hq⟩
    rw [hname, howner]
    cases hn : p.symName i with
    | none => exact hq.getOrInit knows_none
    | some n =>
      cases hr : Pickle.isRootName n with
      | true =>
        simp only [hr, ↓reduceIte]
        exact hq.getOrInit (knows_some (.root hn hr))
      | false =>
        simp only [hr, Bool.false_eq_true, ↓reduceIte]
        cases ho : p.symOwner i with
        | none => exact hq.getOrInit (knows_some (.top hn hr ho))
        | some owner =>
          obtain ⟨habove, hsound⟩ := ih owner
          apply hsound.getOrInit
          intro s hs
          obtain ⟨above, ha, rfl⟩ := Option.map_eq_some_iff.mp hs
          obtain ⟨k, hk⟩ := habove above ha
          exact ⟨k + 1, .owned hn hr ho hk⟩

/-- The pickle with the slots of the builder. -/
def withSlots (p : Pickle) (b : Builder) : Pickle := { p with fullNames := b.fullNames }

theorem symFullName_eq (id : Idx) (b : Builder) : symFullName p id b =
    some (((withSlots p b).symFullName id).1,
      { b with fullNames := ((withSlots p b).symFullName id).2.fullNames }) := rfl

/-- An answer is the name along the owners, or nothing. -/
theorem answers_sound (p : Pickle) : Answers p (fun b => Sound p (withSlots p b)) False where
  names := by
    intro id b hb
    obtain ⟨hknows, hsound⟩ := sound_fullNameAt hb Pickle.MAX_DEPTH id
    refine ⟨_, symFullName_eq id b, ⟨rfl, hsound.names⟩, ?_⟩
    cases hanswer : ((withSlots p b).symFullName id).1 with
    | none => exact .inr ⟨not_false, rfl⟩
    | some s =>
      obtain ⟨k, hk⟩ := hknows s hanswer
      exact .inl ((isName_nameOf id s).mpr ⟨k, hk⟩).symm
  unresolved := fun _ _ hb => hb

/-- With short owner chains an answer is the name along the owners. -/
theorem answers_kept {p : Pickle} (hshort : ShortOwners p) :
    Answers p (fun b => Kept p (withSlots p b)) True where
  names := by
    intro id b hb
    obtain ⟨hname, hkept⟩ := fullNameAt_spec hb (hshort id)
    refine ⟨_, symFullName_eq id b, ⟨rfl, hkept.length, hkept.names⟩, ?_⟩
    exact .inl (hname.unique (isName_nameOf id))
  unresolved := fun _ _ hb => hb

end ScalaRs.Signatures
