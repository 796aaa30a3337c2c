import ScalaRs.SignatureCache
import ScalaRs.MonadicRelations

/-! # Queries on one signature cache

A module's entry in the cache has the key of the class whose name ends in an
additional dollar sign. Unless both are asked for, a query has the answer of a
computation that caches nothing and scans the members of every class. -/
namespace ScalaRs.Signatures
open MonadicRelations Pickling

/-- What a candidate file holds. -/
inductive FileContents
  | Missing
  | NoSignature
  | BadPickle (e : ReadError)
  | Sigs (sigs : List ClassSig)

variable (src : ClassSource)

def contents (c : String) : FileContents :=
  match src.classBytes c with
  | none => .Missing
  | some bytes =>
    match src.scalaSignatureBytes bytes with
    | none => .NoSignature
    | some raw =>
      match src.classSigs raw with
      | .ok sigs => .Sigs sigs
      | .error e => .BadPickle e

def answerFrom (key : ClassKey) : List String → LoadError → Except LoadError ClassSig
  | [], last => .error last
  | c :: candidates, last =>
    match contents src c with
    | .Missing => answerFrom key candidates last
    | .NoSignature => answerFrom key candidates (.NoSignature key.1)
    | .BadPickle e => answerFrom key candidates (.BadPickle key.1 e)
    | .Sigs sigs =>
      match sigs.find? (·.key = key) with
      | some sig => .ok sig
      | none => answerFrom key candidates (.NoSuchClass key.1)

/-- The signature of a class, as the source alone determines it. -/
def answer (fullName : String) (module : Bool) : Except LoadError ClassSig :=
  answerFrom src (fullName, module) (pickleFilesFor fullName module) (.NotFound fullName)

/-- A value, with the classes asked for on the way to it. -/
structure Asking (α : Type) where
  value : α
  asked : List ClassKey

instance : Monad Asking where
  pure a := ⟨a, []⟩
  bind x f := ⟨(f x.value).value, x.asked ++ (f x.value).asked⟩

def ask (fullName : String) (module : Bool) : Asking (Except LoadError ClassSig) :=
  ⟨answer src fullName module, [(fullName, module)]⟩

@[simp] theorem Asking.value_bind {α β : Type} (x : Asking α) (f : α → Asking β) :
    (x >>= f).value = (f x.value).value := rfl

@[simp] theorem Asking.asked_bind {α β : Type} (x : Asking α) (f : α → Asking β) :
    (x >>= f).asked = x.asked ++ (f x.value).asked := rfl

@[simp] theorem Asking.value_pure {α : Type} (a : α) : (pure a : Asking α).value = a := rfl

@[simp] theorem Asking.asked_pure {α : Type} (a : α) : (pure a : Asking α).asked = [] := rfl

def linearizationOf (fullName : String) (module : Bool) :
    Asking (List LinStep × List LoadError) := do
  let result ← linWalk src (ask src) fullName module
  pure (result.1, result.2.errs)

/-- What one step of the linearization adds to the hits, by a linear scan. -/
def scanHits (name : String) (found : List MemberHit) (step : LinStep) :
    Asking (List MemberHit) := do
  let sig ← ask src step.className step.module
  match sig with
  | .error _ => pure found
  | .ok sig => pure (found ++ hitsAt src step sig.members (scanPositions src sig.members name))

def lookupOf (fullName : String) (module : Bool) (name : String) :
    Asking (List MemberHit × List LoadError) := do
  let lin ← linearizationOf src fullName module
  let found ← lin.1.foldlM (scanHits src name) []
  pure (found, lin.2)

inductive Query
  | classSig (fullName : String) (module : Bool)
  | linearization (fullName : String) (module : Bool)
  | lookup (fullName : String) (module : Bool) (name : String)

inductive Answer
  | sig (result : Except LoadError ClassSig)
  | steps (lin : List LinStep) (errs : List LoadError)
  | hits (found : List MemberHit) (errs : List LoadError)

def Query.run : Query → StateM SigCache Answer
  | .classSig fullName module => do
    let result ← SigCache.sigOf src fullName module
    pure (.sig result)
  | .linearization fullName module => do
    let lin ← SigCache.linearization src fullName module
    pure (.steps lin.1 lin.2)
  | .lookup fullName module name => do
    let hits ← SigCache.lookup src fullName module name
    pure (.hits hits.1 hits.2)

/-- The answer without caches, and the classes it asks for. -/
def Query.uncached : Query → Asking Answer
  | .classSig fullName module => do
    let result ← ask src fullName module
    pure (.sig result)
  | .linearization fullName module => do
    let lin ← linearizationOf src fullName module
    pure (.steps lin.1 lin.2)
  | .lookup fullName module name => do
    let hits ← lookupOf src fullName module name
    pure (.hits hits.1 hits.2)

/-- The answers of a sequence of queries, and the cache after them. -/
def runQueries : SigCache → List Query → List Answer × SigCache
  | c, [] => ([], c)
  | c, query :: queries =>
    let (result, c) := query.run src c
    let (results, c) := runQueries c queries
    (result :: results, c)

def Asked (queries : List Query) (q : ClassKey) : Prop :=
  ∃ query ∈ queries, q ∈ (query.uncached src).asked

/-- No name is asked for as a module while the name with a dollar sign added is
asked for as a class. -/
def NoClash (queries : List Query) : Prop :=
  ∀ name, Asked src queries (name, true) → ¬ Asked src queries (name ++ "$", false)

theorem cacheKey_injOn {A : ClassKey → Prop} (hA : ∀ name, A (name, true) → ¬ A (name ++ "$", false))
    {q r : ClassKey} (hq : A q) (hr : A r)
    (h : SigCache.cacheKey q.1 q.2 = SigCache.cacheKey r.1 r.2) : q = r := by
  obtain ⟨n, m⟩ := q
  obtain ⟨n', m'⟩ := r
  cases m <;> cases m' <;> simp only [SigCache.cacheKey, if_true, Bool.false_eq_true, if_false] at h
  · rw [h]
  · rw [h] at hq
    exact absurd hq (hA n' hr)
  · rw [← h] at hr
    exact absurd hr (hA n hq)
  · rw [String.append_left_inj] at h
    rw [h]

/-! ## What the cache holds -/

def Rc.Live (heap : List ClassSig) (r : Rc) : Prop := heap[r.ptr]? = some r.val

theorem Rc.Live.mono {heap heap' : List ClassSig} {r : Rc} (h : r.Live heap)
    (hheap : heap <+: heap') : r.Live heap' := by
  obtain ⟨rest, rfl⟩ := hheap
  obtain ⟨hlt, -⟩ := List.getElem?_eq_some_iff.mp h
  rw [Rc.Live, List.getElem?_append_left hlt]
  exact h

structure PickleSigs.Sound (heap : List ClassSig) (pickle : PickleSigs) (sigs : List ClassSig) :
    Prop where
  vals : pickle.sigs.map Rc.val = sigs
  index : pickle.index = firstPositions (sigs.map ClassSig.key)
  live : ∀ r ∈ pickle.sigs, r.Live heap

/-- An entry of the files agrees with the source. -/
def FileSigs.Sound (heap : List ClassSig) : FileSigs → FileContents → Prop
  | .Sigs pickle, .Sigs sigs => pickle.Sound heap sigs
  | .NoSignature, .NoSignature => True
  | _, _ => False

def Opened.Sound (heap : List ClassSig) : Opened → FileContents → Prop
  | .Sigs pickle, .Sigs sigs => pickle.Sound heap sigs
  | .NoSignature, .NoSignature => True
  | .Missing, .Missing => True
  | .BadPickle e, .BadPickle e' => e = e'
  | _, _ => False

def Files.Sound (files : Files) : Prop :=
  ∀ c f, files.sigs c = some f → f.Sound files.heap (contents src c)

/-- A result is the answer, and the signature in it is allocated. -/
def SoundResult (heap : List ClassSig) (got : Except LoadError Rc)
    (expected : Except LoadError ClassSig) : Prop :=
  got.map Rc.val = expected ∧ ∀ r, got = .ok r → r.Live heap

theorem SoundResult.mono {heap heap' : List ClassSig} {got : Except LoadError Rc}
    {expected : Except LoadError ClassSig} (h : SoundResult heap got expected)
    (hheap : heap <+: heap') : SoundResult heap' got expected :=
  ⟨h.1, fun r hr => (h.2 r hr).mono hheap⟩

theorem PickleSigs.Sound.mono {heap heap' : List ClassSig} {pickle : PickleSigs}
    {sigs : List ClassSig} (h : pickle.Sound heap sigs) (hheap : heap <+: heap') :
    pickle.Sound heap' sigs :=
  ⟨h.vals, h.index, fun r hr => (h.live r hr).mono hheap⟩

theorem FileSigs.Sound.mono {heap heap' : List ClassSig} {f : FileSigs} {x : FileContents}
    (h : f.Sound heap x) (hheap : heap <+: heap') : f.Sound heap' x := by
  cases f <;> cases x <;> try exact h
  exact PickleSigs.Sound.mono h hheap

theorem PickleSigs.sound_new (heap sigs : List ClassSig) :
    (PickleSigs.new heap sigs).Sound (heap ++ sigs) sigs where
  vals := by
    simp only [PickleSigs.new, allocate, List.map_map]
    exact List.zipIdx_map_fst 0 sigs
  index := rfl
  live := by
    intro r hr
    obtain ⟨⟨sig, i⟩, hmem, rfl⟩ := List.mem_map.mp hr
    have hget := List.mem_zipIdx_iff_getElem?.mp hmem
    rw [Rc.Live, List.getElem?_append_right (by simp), Nat.add_sub_cancel_left]
    exact hget

theorem PickleSigs.find_eq (pickle : PickleSigs) (key : ClassKey) :
    pickle.find key = (pickle.index key).bind (pickle.sigs[·]?) := by
  unfold PickleSigs.find
  split
  · next at_ h => simp [h, pickle.inRange h]
  · next h => simp [h]

/-- The recorded positions find the first signature of a class. -/
theorem PickleSigs.Sound.find {heap : List ClassSig} {pickle : PickleSigs} {sigs : List ClassSig}
    (h : pickle.Sound heap sigs) (key : ClassKey) :
    (pickle.find key).map Rc.val = sigs.find? (·.key = key) ∧
      ∀ r, pickle.find key = some r → r.Live heap := by
  rw [PickleSigs.find_eq, h.index, firstPositions_eq, List.idxOf?, List.findIdx?_map]
  constructor
  · rw [← h.vals, List.find?_eq_bind_findIdx?_getElem?, List.findIdx?_map, List.findIdx?_map,
      Option.map_bind]
    have hkey : ((fun k => k == key) ∘ ClassSig.key) ∘ Rc.val =
        (fun sig => decide (sig.key = key)) ∘ Rc.val := by
      funext r
      rw [Bool.eq_iff_iff]
      simp
    rw [hkey]
    congr 1
    funext i
    simp
  · intro r hr
    obtain ⟨i, -, hi⟩ := Option.bind_eq_some_iff.mp hr
    exact h.live r (List.mem_of_getElem? hi)

section Load

variable {src} {files : Files}

theorem Files.Sound.insert (h : files.Sound src) {c : String} {f : FileSigs}
    (hf : f.Sound files.heap (contents src c)) : (files.insert c f).Sound src := by
  intro d g hg
  simp only [Files.insert] at hg
  by_cases hd : d = c
  · subst hd
    rw [Function.update_self] at hg
    rw [← Option.some.inj hg]
    exact hf
  · rw [Function.update_of_ne hd] at hg
    exact h d g hg

/-- Opening a file finds what the source has there, and remembers it rightly. -/
theorem openFile_sound (h : files.Sound src) {c : String} {opened : Opened} {files' : Files}
    (hopen : openFile src c files = (opened, files')) :
    files'.Sound src ∧ files.heap <+: files'.heap ∧
      opened.Sound files'.heap (contents src c) := by
  unfold openFile at hopen
  split at hopen
  · next pickle hc =>
    obtain ⟨rfl, rfl⟩ := Prod.mk.inj hopen
    have hf := h c _ hc
    generalize contents src c = x at hf
    cases x <;> exact ⟨h, List.prefix_refl _, hf⟩
  · next hc =>
    obtain ⟨rfl, rfl⟩ := Prod.mk.inj hopen
    have hf := h c _ hc
    generalize contents src c = x at hf
    cases x <;> exact ⟨h, List.prefix_refl _, hf⟩
  · split at hopen
    · next hbytes =>
      obtain ⟨rfl, rfl⟩ := Prod.mk.inj hopen
      have hx : contents src c = .Missing := by simp [contents, hbytes]
      rw [hx]
      exact ⟨h, List.prefix_refl _, trivial⟩
    · next bytes hbytes =>
      split at hopen
      · next hraw =>
        obtain ⟨rfl, rfl⟩ := Prod.mk.inj hopen
        have hx : contents src c = .NoSignature := by simp [contents, hbytes, hraw]
        have hf : FileSigs.NoSignature.Sound files.heap (contents src c) := by
          rw [hx]
          trivial
        rw [hx]
        exact ⟨h.insert hf, List.prefix_refl _, trivial⟩
      · next raw hraw =>
        split at hopen
        · next sigs hsigs =>
          obtain ⟨rfl, rfl⟩ := Prod.mk.inj hopen
          have hx : contents src c = .Sigs sigs := by simp [contents, hbytes, hraw, hsigs]
          have hheap : files.heap <+: files.heap ++ sigs := List.prefix_append _ _
          have hpickle := PickleSigs.sound_new files.heap sigs
          have hf : (FileSigs.Sigs (.new files.heap sigs)).Sound (files.heap ++ sigs)
              (contents src c) := by
            rw [hx]
            exact hpickle
          have hgrown : Files.Sound src { files with heap := files.heap ++ sigs } :=
            fun d f hd => (h d f hd).mono hheap
          rw [hx]
          exact ⟨hgrown.insert hf, hheap, hpickle⟩
        · next e hsigs =>
          obtain ⟨rfl, rfl⟩ := Prod.mk.inj hopen
          have hx : contents src c = .BadPickle e := by simp [contents, hbytes, hraw, hsigs]
          rw [hx]
          exact ⟨h, List.prefix_refl _, rfl⟩

theorem loadFrom_sound (key : ClassKey) (candidates : List String) (last : LoadError)
    (h : files.Sound src) {got : Except LoadError Rc} {files' : Files}
    (hload : loadFrom src key candidates last files = (got, files')) :
    files'.Sound src ∧ files.heap <+: files'.heap ∧
      SoundResult files'.heap got (answerFrom src key candidates last) := by
  induction candidates generalizing last files with
  | nil =>
    obtain ⟨rfl, rfl⟩ := Prod.mk.inj hload
    exact ⟨h, List.prefix_refl _, rfl, fun r hr => nomatch hr⟩
  | cons c candidates ih =>
    rcases hopen : openFile src c files with ⟨opened, files₁⟩
    obtain ⟨hfiles, hheap, hopened⟩ := openFile_sound h hopen
    rw [loadFrom, hopen] at hload
    -- the rest of the candidates are tried from files that have grown
    have hrest : ∀ last, loadFrom src key candidates last files₁ = (got, files') →
        files'.Sound src ∧ files.heap <+: files'.heap ∧
          SoundResult files'.heap got (answerFrom src key candidates last) := by
      intro last hload
      obtain ⟨hfiles', hheap', hgot⟩ := ih last hfiles hload
      exact ⟨hfiles', hheap.trans hheap', hgot⟩
    rw [answerFrom]
    generalize contents src c = x at hopened
    cases opened <;> cases x <;> try exact hopened.elim
    · exact hrest _ hload
    · exact hrest _ hload
    · rw [← show _ = _ from hopened]
      exact hrest _ hload
    · next pickle sigs =>
      have hpickle : pickle.Sound files₁.heap sigs := hopened
      obtain ⟨hfind, hlive⟩ := hpickle.find key
      simp only [] at hload ⊢
      rw [← hfind]
      cases hr : pickle.find key with
      | none =>
        rw [hr] at hload
        exact hrest _ hload
      | some r =>
        rw [hr] at hload
        obtain ⟨rfl, rfl⟩ := Prod.mk.inj hload
        refine ⟨hfiles, hheap, rfl, ?_⟩
        intro r' hr'
        rw [← Except.ok.inj hr']
        exact hlive r hr

end Load

/-! ## The index of a class's members -/

private theorem foldl_push (members : List Member) (k : ℕ) (index : MemberIndex) (name : String) :
    ((members.zipIdx k).foldl MemberIndex.push index name).getD [] =
      (index name).getD [] ++
        ((members.zipIdx k).filter fun (m, _) => m.name = name).map Prod.snd := by
  induction members generalizing k index with
  | nil => simp
  | cons m members ih =>
    rw [List.zipIdx_cons, List.foldl_cons, ih, MemberIndex.push, List.filter_cons]
    by_cases h : m.name = name
    · subst h
      simp
    · rw [Function.update_of_ne (Ne.symm h)]
      simp [h]

theorem memberIndex_getD (members : List Member) (name : String) :
    (memberIndex members name).getD [] =
      (members.zipIdx.filter fun (m, _) => m.name = name).map Prod.snd := by
  rw [memberIndex, foldl_push]
  simp

private theorem pairwise_positions (members : List Member) (p : Member × ℕ → Bool) :
    ((members.zipIdx.filter p).map Prod.snd).Pairwise (· ≤ ·) := by
  apply List.Pairwise.sublist (List.filter_sublist.map _)
  rw [List.zipIdx_map_snd]
  exact List.pairwise_le_range'

private theorem filter_append_filter_perm {α : Type*} (p q : α → Bool) (l : List α)
    (h : ∀ a, q a = true → p a = false) :
    (l.filter p ++ l.filter q).Perm (l.filter fun a => p a || q a) := by
  have hp : (l.filter fun a => p a || q a).filter p = l.filter p := by
    rw [List.filter_filter]
    apply List.filter_congr
    intro a _
    cases p a <;> simp
  have hq : ((l.filter fun a => p a || q a).filter fun a => !p a) = l.filter q := by
    rw [List.filter_filter]
    apply List.filter_congr
    intro a _
    cases hqa : q a with
    | false => cases p a <;> rfl
    | true => rw [h a hqa]; rfl
  have hperm := List.filter_append_perm p (l.filter fun a => p a || q a)
  rwa [hp, hq] at hperm

/-- The index and the linear scan find the same declarations in the same order. -/
theorem indexedPositions_memberIndex (members : List Member) (name : String) :
    indexedPositions src (memberIndex members) name = scanPositions src members name := by
  unfold indexedPositions scanPositions
  simp only [memberIndex_getD]
  by_cases h : src.encodeMethodName name = name
  · simp [h]
  · rw [if_pos h]
    apply List.Perm.eq_of_pairwise' _ (pairwise_positions members _)
    · apply (List.mergeSort_perm _ _).trans
      rw [← List.map_append]
      apply List.Perm.map
      have hexcl : ∀ a : Member × ℕ, decide (a.1.name = src.encodeMethodName name) = true →
          decide (a.1.name = name) = false := by
        intro a ha
        rw [of_decide_eq_true ha]
        exact decide_eq_false h
      have hperm := filter_append_filter_perm _ _ members.zipIdx hexcl
      simpa only [Bool.decide_or] using hperm
    · exact List.pairwise_mergeSort' (· ≤ ·) _

/-! ## Queries -/

variable (A : ClassKey → Prop)

/-- What a cache holds when only classes of `A` have been asked for. -/
structure SigCache.Sound (c : SigCache) : Prop where
  files : c.files.Sound src
  cache : ∀ key got, c.cache key = some got →
    ∃ q, A q ∧ SigCache.cacheKey q.1 q.2 = key ∧
      SoundResult c.files.heap got (answer src q.1 q.2)
  linearizations : ∀ q v, c.linearizations q = some v →
    v = (linearizationOf src q.1 q.2).value
  memberIndexes : ∀ ptr index, c.memberIndexes ptr = some index →
    ∃ sig, c.files.heap[ptr]? = some sig ∧ index = memberIndex sig.members

theorem SigCache.sound_new : SigCache.new.Sound src A where
  files := fun _ _ h => nomatch h
  cache := fun _ _ h => nomatch h
  linearizations := fun _ _ h => nomatch h
  memberIndexes := fun _ _ h => nomatch h

theorem SigCache.run_bind {α β : Type} (x : StateM SigCache α) (f : α → StateM SigCache β)
    (c : SigCache) : (x >>= f) c = f (x c).1 (x c).2 := rfl

/-- A computation on a cache that holds the answers of classes of `A` has the
value of the one without a cache, as long as that asks for classes of `A` only. -/
def uncachedRel : MonadRel (StateM SigCache) Asking where
  Rel x y := ∀ c : SigCache, c.Sound src A → (∀ q ∈ y.asked, A q) →
    (x c).1 = y.value ∧ (x c).2.Sound src A
  pure a := fun c hc _ => ⟨rfl, hc⟩
  bind := by
    intro α β x y f g hxy hfg c hc hasked
    rw [Asking.asked_bind] at hasked
    obtain ⟨hvalue, hc'⟩ := hxy c hc fun q hq => hasked q (List.mem_append_left _ hq)
    have hnext := hfg y.value (x c).2 hc' fun q hq => hasked q (List.mem_append_right _ hq)
    rw [SigCache.run_bind, hvalue, Asking.value_bind]
    exact hnext

variable {src} {A}

/-- Asking the cache for a class gives the answer, and an allocated signature. -/
theorem SigCache.Sound.classSig {c : SigCache} (hc : c.Sound src A)
    (hA : ∀ name, A (name, true) → ¬ A (name ++ "$", false)) {fullName : String} {module : Bool}
    (hq : A (fullName, module)) :
    (SigCache.classSig src fullName module c).2.Sound src A ∧
      SoundResult (SigCache.classSig src fullName module c).2.files.heap
        (SigCache.classSig src fullName module c).1 (answer src fullName module) := by
  unfold SigCache.classSig
  cases hit : c.cache (SigCache.cacheKey fullName module) with
  | some got =>
    obtain ⟨q, hAq, hkey, hgot⟩ := hc.cache _ got hit
    rw [cacheKey_injOn hA hAq hq hkey] at hgot
    simp only [hit]
    exact ⟨hc, hgot⟩
  | none =>
    rcases hload : load src fullName module c.files with ⟨got, files⟩
    obtain ⟨hfiles, hheap, hgot⟩ := loadFrom_sound _ _ _ hc.files hload
    simp only [hit, hload]
    refine ⟨⟨hfiles, ?_, hc.linearizations, ?_⟩, hgot⟩
    · intro key r hr
      by_cases hkey : key = SigCache.cacheKey fullName module
      · subst hkey
        simp only [Function.update_self, Option.some.injEq] at hr
        subst hr
        exact ⟨(fullName, module), hq, rfl, hgot⟩
      · simp only [Function.update_of_ne hkey] at hr
        obtain ⟨q, hAq, hqkey, hresult⟩ := hc.cache key r hr
        exact ⟨q, hAq, hqkey, hresult.mono hheap⟩
    · intro ptr index hindex
      obtain ⟨sig, hsig, heq⟩ := hc.memberIndexes ptr index hindex
      obtain ⟨hlt, -⟩ := List.getElem?_eq_some_iff.mp hsig
      obtain ⟨rest, hrest⟩ := hheap
      refine ⟨sig, ?_, heq⟩
      simp only [← hrest]
      rw [List.getElem?_append_left hlt]
      exact hsig

theorem sigOf_rel (hA : ∀ name, A (name, true) → ¬ A (name ++ "$", false)) (fullName : String)
    (module : Bool) :
    (uncachedRel src A).Rel (SigCache.sigOf src fullName module) (ask src fullName module) := by
  intro c hc hasked
  have hq : A (fullName, module) := hasked _ (List.mem_singleton.mpr rfl)
  obtain ⟨hsound, hvalue, -⟩ := hc.classSig hA hq
  exact ⟨hvalue, hsound⟩

section Walk

variable {m n : Type → Type} [Monad m] [Monad n] (T : MonadRel m n)
  {classSig : String → Bool → m (Except LoadError ClassSig)}
  {classSig' : String → Bool → n (Except LoadError ClassSig)}

theorem addParent_rel (hask : ∀ name, T.Rel (classSig name false) (classSig' name false))
    {visit : String → Subst → LinWalk → m (List LinStep × LinWalk)}
    {visit' : String → Subst → LinWalk → n (List LinStep × LinWalk)}
    (hvisit : ∀ sym next walk, T.Rel (visit sym next walk) (visit' sym next walk)) (subst : Subst)
    (acc : List LinStep × LinWalk) (p : SigType) :
    T.Rel (addParent src classSig visit subst acc p)
      (addParent src classSig' visit' subst acc p) := by
  cases p <;> try exact T.pure _
  next sym args =>
    rw [addParent, addParent]
    by_cases h : isDotted (parentName sym) = true
    · simp only [h, if_true]
      apply T.bind (hask _)
      intro psig
      apply T.bind (hvisit _ _ _)
      intro plin
      exact T.pure _
    · simp only [h]
      exact T.pure _

/-- Walks over related ways of asking for classes are related. Only the class the
walk starts from can be a module. -/
theorem linOf_rel (hask : ∀ name, T.Rel (classSig name false) (classSig' name false))
    (room : ℕ) (className : String) (module : Bool)
    (hroot : T.Rel (classSig className module) (classSig' className module)) (subst : Subst)
    (walk : LinWalk) :
    T.Rel (linOf src classSig room className module subst walk)
      (linOf src classSig' room className module subst walk) := by
  induction room generalizing className module subst walk with
  | zero => exact T.pure _
  | succ room ih =>
    rw [linOf, linOf]
    by_cases h : walk.budget = 0
    · simp only [h, if_true]
      exact T.pure _
    · simp only [h, if_false]
      apply T.bind hroot
      intro sig
      cases sig with
      | error e => exact T.pure _
      | ok sig =>
        apply T.bind
        · apply T.foldlM
          intro acc p
          exact addParent_rel T hask (fun sym next walk => ih sym false (hask sym) next walk) _ _ _
        · intro acc
          exact T.pure _

end Walk

theorem SigCache.linearization_hit {c : SigCache} {fullName : String} {module : Bool}
    {v : List LinStep × List LoadError} (hit : c.linearizations (fullName, module) = some v) :
    SigCache.linearization src fullName module c = (v, c) := by
  rw [SigCache.linearization, hit]

theorem SigCache.linearization_miss {c : SigCache} {fullName : String} {module : Bool}
    (hit : c.linearizations (fullName, module) = none)
    {result : List LinStep × LinWalk} {c' : SigCache}
    (hwalk : linWalk src (SigCache.sigOf src) fullName module c = (result, c')) :
    SigCache.linearization src fullName module c =
      ((result.1, result.2.errs), { c' with
        linearizations := Function.update c'.linearizations (fullName, module)
          (some (result.1, result.2.errs)) }) := by
  rw [SigCache.linearization, hit, hwalk]

theorem linearization_rel (hA : ∀ name, A (name, true) → ¬ A (name ++ "$", false))
    (fullName : String) (module : Bool) :
    (uncachedRel src A).Rel (SigCache.linearization src fullName module)
      (linearizationOf src fullName module) := by
  intro c hc hasked
  cases hit : c.linearizations (fullName, module) with
  | some v =>
    rw [SigCache.linearization_hit hit]
    have hv := hc.linearizations (fullName, module) v hit
    exact ⟨hv, hc⟩
  | none =>
    have hrel : (uncachedRel src A).Rel (linWalk src (SigCache.sigOf src) fullName module)
        (linWalk src (ask src) fullName module) :=
      linOf_rel _ (fun name => sigOf_rel hA name false) _ _ _ (sigOf_rel hA fullName module) _ _
    rw [linearizationOf, Asking.asked_bind, Asking.asked_pure, List.append_nil] at hasked
    obtain ⟨hvalue, hsound⟩ := hrel c hc hasked
    rcases hwalk : linWalk src (SigCache.sigOf src) fullName module c with ⟨result, c'⟩
    rw [hwalk] at hvalue hsound
    have hgot : (result.1, result.2.errs) = (linearizationOf src fullName module).value := by
      rw [linearizationOf, Asking.value_bind, Asking.value_pure, ← hvalue]
    rw [SigCache.linearization_miss hit hwalk]
    refine ⟨hgot, hsound.files, hsound.cache, ?_, hsound.memberIndexes⟩
    intro q v hv
    by_cases hq : q = (fullName, module)
    · subst hq
      simp only [Function.update_self, Option.some.injEq] at hv
      rw [← hv]
      exact hgot
    · simp only [Function.update_of_ne hq] at hv
      exact hsound.linearizations q v hv

/-- The positions found in an allocated class are those of a linear scan. -/
theorem SigCache.Sound.memberPositions {c : SigCache} (hc : c.Sound src A) {sig : Rc}
    (hlive : sig.Live c.files.heap) (name : String) :
    (SigCache.memberPositions src sig name c).1 = scanPositions src sig.val.members name ∧
      (SigCache.memberPositions src sig name c).2.Sound src A := by
  unfold SigCache.memberPositions
  by_cases hsize : sig.val.members.length < 128
  · rw [if_pos hsize]
    exact ⟨rfl, hc⟩
  · rw [if_neg hsize]
    -- whatever index has this address was built from this signature
    have hindex : (c.memberIndexes sig.ptr).getD (memberIndex sig.val.members) =
        memberIndex sig.val.members := by
      cases h : c.memberIndexes sig.ptr with
      | none => rfl
      | some index =>
        obtain ⟨val, hval, rfl⟩ := hc.memberIndexes _ index h
        rw [hlive] at hval
        rw [Option.some.inj hval]
        rfl
    simp only [hindex]
    refine ⟨indexedPositions_memberIndex src _ _, hc.files, hc.cache, hc.linearizations, ?_⟩
    intro ptr index hptr
    by_cases h : ptr = sig.ptr
    · subst h
      simp only [Function.update_self, Option.some.injEq] at hptr
      exact ⟨sig.val, hlive, hptr.symm⟩
    · simp only [Function.update_of_ne h] at hptr
      exact hc.memberIndexes ptr index hptr

theorem addHits_rel (hA : ∀ name, A (name, true) → ¬ A (name ++ "$", false)) (name : String)
    (found : List MemberHit) (step : LinStep) :
    (uncachedRel src A).Rel (SigCache.addHits src name found step)
      (scanHits src name found step) := by
  intro c hc hasked
  have hq : A (step.className, step.module) := by
    apply hasked
    rw [scanHits, Asking.asked_bind]
    exact List.mem_append_left _ (List.mem_singleton.mpr rfl)
  obtain ⟨hsound, hvalue, hlive⟩ := hc.classSig hA hq
  have hask : (ask src step.className step.module).value =
      (SigCache.classSig src step.className step.module c).1.map Rc.val := hvalue.symm
  rcases hgot : SigCache.classSig src step.className step.module c with ⟨got, c'⟩
  rw [hgot] at hsound hlive hask
  rw [scanHits, Asking.value_bind, hask, SigCache.addHits, SigCache.run_bind, hgot]
  cases got with
  | error e => exact ⟨rfl, hsound⟩
  | ok sig =>
    obtain ⟨hpositions, hsound'⟩ := hsound.memberPositions (hlive sig rfl) name
    simp only [Except.map]
    rw [SigCache.run_bind, ← hpositions]
    exact ⟨rfl, hsound'⟩

theorem lookup_rel (hA : ∀ name, A (name, true) → ¬ A (name ++ "$", false)) (fullName : String)
    (module : Bool) (name : String) :
    (uncachedRel src A).Rel (SigCache.lookup src fullName module name)
      (lookupOf src fullName module name) := by
  apply MonadRel.bind _ (linearization_rel hA fullName module)
  intro lin
  apply MonadRel.bind _ (MonadRel.foldlM _ (addHits_rel hA name) [] lin.1)
  intro found
  exact MonadRel.pure _ _

theorem run_rel (hA : ∀ name, A (name, true) → ¬ A (name ++ "$", false)) (query : Query) :
    (uncachedRel src A).Rel (query.run src) (query.uncached src) := by
  cases query with
  | classSig fullName module =>
    apply MonadRel.bind _ (sigOf_rel hA fullName module)
    intro result
    exact MonadRel.pure _ _
  | linearization fullName module =>
    apply MonadRel.bind _ (linearization_rel hA fullName module)
    intro lin
    exact MonadRel.pure _ _
  | lookup fullName module name =>
    apply MonadRel.bind _ (lookup_rel hA fullName module name)
    intro hits
    exact MonadRel.pure _ _

theorem runQueries_uncached (hA : ∀ name, A (name, true) → ¬ A (name ++ "$", false))
    {queries : List Query} (hasked : ∀ q, Asked src queries q → A q) {c : SigCache}
    (hc : c.Sound src A) :
    (runQueries src c queries).1 = queries.map fun query => (query.uncached src).value := by
  induction queries generalizing c with
  | nil => rfl
  | cons query queries ih =>
    have hquery : ∀ q ∈ (query.uncached src).asked, A q :=
      fun q hq => hasked q ⟨query, List.mem_cons_self, hq⟩
    have hrest : ∀ q, Asked src queries q → A q := by
      intro q ⟨later, hlater, hq⟩
      exact hasked q ⟨later, List.mem_cons_of_mem _ hlater, hq⟩
    obtain ⟨hvalue, hsound⟩ := run_rel hA query c hc hquery
    have hresults := ih hrest hsound
    rw [runQueries, List.map_cons, ← hvalue, ← hresults]
    rfl

/-- Whatever was asked of the cache before, a query has the answer of a fresh
cache, and that is the answer of linear scans. -/
theorem queries_independent (queries : List Query) (h : NoClash src queries) :
    (runQueries src SigCache.new queries).1 =
        queries.map (fun query => (query.run src SigCache.new).1) ∧
      (runQueries src SigCache.new queries).1 =
        queries.map (fun query => (query.uncached src).value) := by
  have hall := runQueries_uncached h (fun _ hq => hq) (SigCache.sound_new src _)
  refine ⟨?_, hall⟩
  rw [hall]
  apply List.map_congr_left
  intro query hmem
  have hquery : ∀ q ∈ (query.uncached src).asked, Asked src queries q :=
    fun q hq => ⟨query, hmem, hq⟩
  obtain ⟨hvalue, -⟩ := run_rel h query SigCache.new (SigCache.sound_new src _) hquery
  exact hvalue.symm

def declared (fullName : String) (tparams : List String) (parents : List SigType)
    (members : List Member) : ClassSig where
  fullName := fullName
  isModule := false
  declaringOwnerIsModule := false
  flags := 0
  tparams := tparams.map fun name => ⟨name, .None, 0⟩
  parents := parents
  members := members
  unresolved := []
  deprecated := none
  children := []

def valOf (name : String) (ty : SigType) : Member where
  name := name
  kind := .Val
  flags := 0
  ty := ty
  aliasPrefix := none
  resultPrefix := none
  macroImpl := none
  privateWithin := none
  hasPrivateWithin := false
  deprecated := none

/-- Substitution in a type parameter, and in the arguments of a class type. -/
def substArgs (t : SigType) (map : Subst) : SigType :=
  let name : SigType → SigType
    | .Ref sym [] => (map sym).getD (.Ref sym [])
    | t => t
  match t with
  | .Ref sym [] => name (.Ref sym [])
  | .Ref sym args => .Ref sym (args.map name)
  | t => t

/-- `class D[T] extends B[T] with C[List[T]]`, where both parents extend `A`. -/
def diamond : List ClassSig :=
  [declared "a.D" ["T"]
      [.Ref "a.B" [.Ref "T" []], .Ref "a.C" [.Ref "scala.List" [.Ref "T" []]]] [],
    declared "a.B" ["X"] [.Ref "a.A" [.Ref "X" []]] [],
    declared "a.C" ["Y"] [.Ref "a.A" [.Ref "Y" []]] [],
    declared "a.A" ["Z"] [] [valOf "head" (.Ref "Z" [])]]

/-- Every class file's pickle holds these signatures. -/
def sourceOf (sigs : List ClassSig) : ClassSource where
  classBytes := fun _ => some []
  scalaSignatureBytes := some
  classSigs := fun _ => .ok sigs
  applySubst := substArgs
  encodeMethodName name := name

theorem queries_independent_diamond :
    let queries : List Query := [.lookup "a.D" false "head", .classSig "a.A" true,
      .linearization "a.D" false]
    (runQueries (sourceOf diamond) SigCache.new queries).1 =
        queries.map (fun query => (query.run (sourceOf diamond) SigCache.new).1) ∧
      (runQueries (sourceOf diamond) SigCache.new queries).1 =
        queries.map (fun query => (query.uncached (sourceOf diamond)).value) := by
  apply queries_independent
  have hasked : ∀ q, Asked (sourceOf diamond) [.lookup "a.D" false "head", .classSig "a.A" true,
      .linearization "a.D" false] q →
        q ∈ [("a.D", false), ("a.B", false), ("a.C", false), ("a.A", false), ("a.A", true)] := by
    have hall : ∀ query ∈ [Query.lookup "a.D" false "head", .classSig "a.A" true,
        .linearization "a.D" false], ∀ q ∈ (query.uncached (sourceOf diamond)).asked,
          q ∈ [("a.D", false), ("a.B", false), ("a.C", false), ("a.A", false), ("a.A", true)] := by
      decide
    intro q ⟨query, hquery, hq⟩
    exact hall query hquery q hq
  intro name hmodule hclass
  have hname : name = "a.A" := by simpa using hasked _ hmodule
  subst hname
  have habsent : ("a.A" ++ "$", false) ∉
      [("a.D", false), ("a.B", false), ("a.C", false), ("a.A", false), ("a.A", true)] := by decide
  exact habsent (hasked _ hclass)

/-- No file has any bytes. -/
def emptySource : ClassSource := { sourceOf [] with classBytes := fun _ => none }

def Answer.loadError : Answer → Option LoadError
  | .sig (.error e) => some e
  | _ => none

/-- After the module `a.C`, the class `a.C$` is reported missing under the
module's name. -/
theorem class_query_after_module :
    ¬ (runQueries emptySource SigCache.new [.classSig "a.C" true, .classSig "a.C$" false]).1 =
        [Query.classSig "a.C" true, Query.classSig "a.C$" false].map
          (fun query => (query.run emptySource SigCache.new).1) := by
  intro h
  have herrors := congrArg (List.map Answer.loadError) h
  revert herrors
  decide

end ScalaRs.Signatures
