import ScalaRs.PickleReads

/-! # Reading back references, symbols and annotations

Where a body has an optional field or two kinds of arguments, the tags of the
entries that are referred to decide how it is read. -/
namespace ScalaRs.Pickling
open CheckedReaders CheckedReaders.CheckedM

/-! ## What an entry refers to -/

def SymInfo.refs (i : SymInfo) : List Idx := [i.name, i.owner] ++ i.privateWithin.toList ++ [i.info]

def AnnotInfo.refs (a : AnnotInfo) : List Idx :=
  a.tpe :: a.args ++ a.assocs.flatMap fun (name, arg) => [name, arg]

def Tree.refs : Tree → List Idx
  | Empty | TypeTree => []
  | PackageDef i j k l xs | ClassDef i j k l xs | TypeDef i j k l xs => [i, j, k, l] ++ xs
  | ModuleDef i j k l => [i, j, k, l]
  | ValDef i j k l m => [i, j, k, l, m]
  | DefDef sym mods name tparams vparamss tpt rhs =>
    [sym, mods, name] ++ tparams ++ vparamss.flatten ++ [tpt, rhs]
  | LabelDef i j k xs => [i, j, k] ++ xs
  | Import sym expr selectors => [sym, expr] ++ selectors.flatMap fun s => [s.fromRef, s.toRef]
  | Template sym parents self body => sym :: parents ++ self :: body
  | Alternative xs => xs
  | Block i xs | UnApply i xs | TypeApply i xs | Apply i xs | ArrayValue i xs | Match i xs
  | AppliedTypeTree i xs | ExistentialTypeTree i xs => i :: xs
  | Function i j xs | Try i j xs | ApplyDynamic i j xs => [i, j] ++ xs
  | CaseDef i j k | Bind i j k | If i j k | Super i j k | Select i j k => [i, j, k]
  | DocDef i j | Assign i j | Return i j | Typed i j | This i j | Ident i j | Annotated i j
  | SelectFromTypeTree i j | TypeBoundsTree i j => [i, j]
  | Star i | Throw i | New i | Literal i | SingletonTypeTree i | CompoundTypeTree i => [i]

def Entry.refs : Entry → List Idx
  | TermName _ | TypeName _ | NoneSym | NoTpe | NoPrefixTpe | DeBruijnIndexTpe .. => []
  | TypeSym info | AliasSym info => info.refs
  | ClassSym info i | ModuleSym info i | ValSym info i => info.refs ++ i.toList
  | ExtRef name owner | ExtModClassRef name owner => name :: owner.toList
  | ThisTpe i | ConstantTpe i => [i]
  | SingleTpe i j | SuperTpe i j | TypeBoundsTpe i j => [i, j]
  | TypeRefTpe i j xs => [i, j] ++ xs
  | RefinedTpe i xs | ClassInfoTpe i xs | MethodTpe i xs | ImplicitMethodTpe i xs | PolyTpe i xs
  | ExistentialTpe i xs | AnnotatedTpe i xs | Children i xs => i :: xs
  | Literal (.Str i) | Literal (.Class i) | Literal (.Enum i) | Literal (.Symbol i) => [i]
  | Literal _ => []
  | SymAnnot sym annot => sym :: annot.refs
  | AnnotInfo annot => annot.refs
  | AnnotArgArray args => args
  | Tree tpe tree => tpe.toList ++ tree.refs
  | Modifiers _ privateWithin => [privateWithin]

/-! ## When a body can be read back -/

section
variable (tags : List UInt8)

/-- What follows the flags is a symbol exactly where it is `privateWithin`. -/
def SymInfo.WellFormed (i : SymInfo) : Prop :=
  (∀ p ∈ i.privateWithin, isSymRef tags p) ∧ isSymRef tags i.info = false

/-- Names start the named arguments, and only these. -/
def AnnotInfo.WellFormed (a : AnnotInfo) : Prop :=
  (∀ i ∈ a.args, isNameEntry tags i = false) ∧ ∀ x ∈ a.assocs, isNameEntry tags x.1

/-- An entry of a table with these tags: characters have sixteen bits, and the
empty tree alone has no type. -/
def Entry.WellFormed : Entry → Prop
  | TypeSym info | AliasSym info | ClassSym info _ | ModuleSym info _ | ValSym info _ =>
    info.WellFormed tags
  | SymAnnot _ annot | AnnotInfo annot => annot.WellFormed tags
  | Literal (.Char c) => c.toNat ≤ 0xffff
  | Tree tpe tree => tpe = none ↔ tree = .Empty
  | _ => True

end

/-! ## References -/

variable [Build] {α : Type} {n : ℕ}

theorem reads_readRef {i : Idx} (h : i.toNat < n) : Reads (readRef n) (refBytes i) i := by
  have hcheck : checkRef i n = (pure () : Read Unit) := by
    rw [checkRef, if_neg (by omega)]
  intro r rest hr
  rw [readRef, bind_of_ok (reads_nat i r rest hr), hcheck]
  rfl

omit [Build] in
theorem refBytes_ne_nil (i : Idx) : refBytes i ≠ [] := by
  rw [refBytes, writeNatTo, writeLongNatTo_nil]
  simp

omit [Build] in
theorem refsBytes_cons (i : Idx) (is : List Idx) : refsBytes (i :: is) = refBytes i ++ refsBytes is :=
  rfl

omit [Build] in
theorem refsBytes_nil : refsBytes [] = [] := rfl

omit [Build] in
theorem refsBytes_append (is js : List Idx) : refsBytes (is ++ js) = refsBytes is ++ refsBytes js :=
  List.flatMap_append

/-- A reference in range is read, and the reader goes on with it. -/
theorem Reads.ref {i : Idx} {f : Idx → Read α} {enc : List UInt8} {a : α} (h : i.toNat < n)
    (hf : Reads (f i) enc a) : Reads (readRef n >>= f) (refBytes i ++ enc) a :=
  (reads_readRef h).bind hf

theorem ReadsTo.ref {i : Idx} {f : ℕ → Idx → Read α} {enc : List UInt8} {a : α} (h : i.toNat < n)
    (hf : ReadsTo (fun fin => f fin i) enc a) :
    ReadsTo (fun fin => readRef n >>= f fin) (refBytes i ++ enc) a :=
  ReadsTo.bind (reads_readRef h) hf

theorem Reads.lastRef {i : Idx} {f : Idx → α} (h : i.toNat < n) :
    Reads (readRef n >>= fun i => Pure.pure (f i)) (refBytes i) (f i) := (reads_readRef h).map f

/-! ## Lists -/

variable {β ι : Type} {enc : ι → List UInt8} {step : β → ι → β}

omit [Build] in
/-- A loop over the indices, around a body that reads one item. -/
theorem reads_forRange {body : ℕ → β → Read β} (items : List ι) : ∀ (k : ℕ) (acc : β),
    (∀ x ∈ items, ∀ k acc, Reads (body k acc) (enc x) (step acc x)) →
    Reads (forRange body k items.length acc) (items.flatMap enc) (items.foldl step acc) := by
  induction items with
  | nil => exact fun _ acc _ => Reads.pure acc
  | cons x items ih =>
    intro k acc hbody
    apply Reads.bind (hbody x List.mem_cons_self k acc)
    exact ih (k + 1) (step acc x) fun y hy => hbody y (List.mem_cons_of_mem x hy)

omit [Build] in
theorem reads_whileFuel {body : β → Read β} {fin : ℕ} (items : List ι) : ∀ (fuel : ℕ) (acc : β),
    (∀ x ∈ items, enc x ≠ []) → (∀ x ∈ items, ∀ acc, Reads (body acc) (enc x) (step acc x)) →
    (items.flatMap enc).length ≤ fuel → ∀ r rest, r.rest = items.flatMap enc ++ rest →
    fin = r.pos + (items.flatMap enc).length →
      whileFuel (fun r => r.pos < fin) body fuel acc r =
        .ok (items.foldl step acc, r.skip (items.flatMap enc).length) := by
  induction items with
  | nil =>
    intro fuel acc _ _ _ r rest _ hfin
    cases fuel with
    | zero => rfl
    | succ fuel =>
      rw [whileFuel_succ, if_neg (by simpa using Nat.le_of_eq hfin)]
      rfl
  | cons x items ih =>
    intro fuel acc hne hbody hfuel r rest hr hfin
    have hx := List.length_pos_iff.mpr (hne x List.mem_cons_self)
    rw [List.flatMap_cons, List.length_append] at hfuel hfin
    rw [List.flatMap_cons, List.append_assoc] at hr
    obtain ⟨fuel, rfl⟩ := Nat.exists_eq_succ_of_ne_zero (show fuel ≠ 0 by omega)
    rw [whileFuel_succ, if_pos (decide_eq_true (by omega)),
      bind_of_ok (hbody x List.mem_cons_self acc r _ hr),
      ih fuel (step acc x) (fun y hy => hne y (List.mem_cons_of_mem x hy))
        (fun y hy => hbody y (List.mem_cons_of_mem x hy)) (by omega) _ rest (Reader.rest_skip hr)
        (by simp only [Reader.skip]; omega),
      Reader.skip_skip, List.flatMap_cons, List.length_append]
    rfl

omit [Build] in
/-- A loop up to the end, around a body that reads one item. -/
theorem readsTo_readUntil {body : β → Read β} (items : List ι) (acc : β)
    (hne : ∀ x ∈ items, enc x ≠ []) (hbody : ∀ x ∈ items, ∀ acc, Reads (body acc) (enc x) (step acc x)) :
    ReadsTo (fun fin => readUntil fin body acc) (items.flatMap enc) (items.foldl step acc) := by
  intro r rest hr
  change whileDo _ _ body acc r = _
  rw [whileDo, get_bind_apply]
  exact reads_whileFuel items _ acc hne hbody (by omega) r rest hr rfl

omit [Build] in
theorem foldl_concat (f : ι → α) (items : List ι) : ∀ out : List α,
    items.foldl (fun out x => out ++ [f x]) out = out ++ items.map f := by
  induction items with
  | nil => simp
  | cons x items ih => simp [ih]

omit [Build] in
theorem foldl_push (items : List ι) : items.foldl (fun out x => out ++ [x]) [] = items := by
  simpa using foldl_concat id items []

theorem reads_pushRef {i : Idx} (h : i.toNat < n) (out : List Idx) :
    Reads (do return out ++ [← readRef n]) (refBytes i) (out ++ [i]) :=
  Reads.lastRef (f := fun i => out ++ [i]) h

theorem readsTo_readRefsUntil {is : List Idx} (h : ∀ i ∈ is, i.toNat < n) :
    ReadsTo (fun fin => readRefsUntil fin n) (refsBytes is) is := by
  have hpush : ∀ i ∈ is, ∀ out : List Idx, Reads (do return out ++ [← readRef n]) (refBytes i)
      (out ++ [i]) := fun i hi => reads_pushRef (h i hi)
  have hloop := readsTo_readUntil is [] (fun i _ => refBytes_ne_nil i) hpush
  rw [foldl_push] at hloop
  exact hloop

theorem reads_readRefs {is : List Idx} (h : ∀ i ∈ is, i.toNat < n) :
    Reads (readRefs is.length n) (refsBytes is) is := by
  have hpush : ∀ i ∈ is, ∀ (_ : ℕ) (out : List Idx), Reads (do return out ++ [← readRef n])
      (refBytes i) (out ++ [i]) := fun i hi _ => reads_pushRef (h i hi)
  have hloop := reads_forRange is 0 [] hpush
  rw [foldl_push] at hloop
  exact hloop

/-- The references end the body. -/
theorem ReadsTo.lastRefs {is : List Idx} {f : List Idx → α} (h : ∀ i ∈ is, i.toNat < n) :
    ReadsTo (fun fin => readRefsUntil fin n >>= fun is => pure (f is)) (refsBytes is) (f is) :=
  (readsTo_readRefsUntil h).map f

theorem readsTo_readOptRef {i : Option Idx} (h : ∀ j ∈ i, j.toNat < n) :
    ReadsTo (fun fin => readOptRef fin n) (optRefBytes i) i := by
  intro r rest hr
  change readOptRef _ n r = _
  cases i with
  | none =>
    rw [readOptRef, get_bind_apply, if_neg (by simp [optRefBytes, refsBytes])]
    rfl
  | some i =>
    have hbytes : optRefBytes (some i) = refBytes i := List.append_nil _
    have hpos := List.length_pos_iff.mpr (refBytes_ne_nil i)
    rw [hbytes] at hr ⊢
    rw [readOptRef, get_bind_apply, if_pos (by omega)]
    exact (reads_readRef (h i rfl)).map some r rest hr

theorem ReadsTo.lastOptRef {i : Option Idx} {f : Option Idx → α} (h : ∀ j ∈ i, j.toNat < n) :
    ReadsTo (fun fin => readOptRef fin n >>= fun i => pure (f i)) (optRefBytes i) (f i) :=
  (readsTo_readOptRef h).map f

/-! ## Symbols and annotations -/

variable {tags : List UInt8}

theorem reads_readSymInfo {info : SymInfo} (hrefs : ∀ i ∈ info.refs, i.toNat < n)
    (hwf : info.WellFormed tags) : Reads (readSymInfo tags n) info.body info := by
  obtain ⟨name, owner, flags, privateWithin, tpe⟩ := info
  obtain ⟨hwithin, htpe⟩ := hwf
  simp only [SymInfo.refs, List.forall_mem_append, List.forall_mem_cons] at hrefs
  obtain ⟨⟨⟨hname, howner, -⟩, hpw⟩, hinfo, -⟩ := hrefs
  simp only [SymInfo.body, List.append_assoc]
  apply Reads.ref hname
  apply Reads.ref howner
  apply Reads.bind (reads_longNat flags)
  cases privateWithin with
  | none =>
    change isSymRef tags tpe = false at htpe
    rw [show optRefBytes none ++ refBytes tpe = refBytes tpe ++ [] from (List.append_nil _).symm]
    apply Reads.ref hinfo
    rw [htpe]
    exact Reads.pure _
  | some p =>
    have hbytes : optRefBytes (some p) = refBytes p := List.append_nil _
    rw [hbytes]
    apply Reads.ref (hpw p (by simp))
    rw [hwithin p rfl]
    exact Reads.lastRef hinfo

/-- One argument of an annotation: its bytes, and the annotation with it. -/
def annotArgBytes : Idx ⊕ Idx × Idx → List UInt8
  | .inl arg => refBytes arg
  | .inr (name, arg) => refBytes name ++ refBytes arg

def AnnotInfo.push (a : AnnotInfo) : Idx ⊕ Idx × Idx → AnnotInfo
  | .inl arg => { a with args := a.args ++ [arg] }
  | .inr assoc => { a with assocs := a.assocs ++ [assoc] }

def AnnotInfo.items (a : AnnotInfo) : List (Idx ⊕ Idx × Idx) :=
  a.args.map .inl ++ a.assocs.map .inr

omit [Build] in
theorem AnnotInfo.body_eq (a : AnnotInfo) :
    a.body = refBytes a.tpe ++ a.items.flatMap annotArgBytes := by
  simp only [AnnotInfo.body, AnnotInfo.items, List.flatMap_append, List.flatMap_map,
    List.append_assoc]
  rfl

omit [Build] in
theorem AnnotInfo.foldl_items (a : AnnotInfo) : a.items.foldl push ⟨a.tpe, [], []⟩ = a := by
  have hargs : ∀ (args : List Idx) (b : AnnotInfo),
      (args.map .inl).foldl push b = { b with args := b.args ++ args } := by
    intro args
    induction args with
    | nil => simp
    | cons arg args ih => simp [push, ih]
  have hassocs : ∀ (assocs : List (Idx × Idx)) (b : AnnotInfo),
      (assocs.map .inr).foldl push b = { b with assocs := b.assocs ++ assocs } := by
    intro assocs
    induction assocs with
    | nil => simp
    | cons assoc assocs ih => simp [push, ih]
  rw [AnnotInfo.items, List.foldl_append, hargs, hassocs]
  simp

theorem reads_readAnnotArg {x : Idx ⊕ Idx × Idx} {annot : AnnotInfo} (hx : x ∈ annot.items)
    (hrefs : ∀ i ∈ annot.refs, i.toNat < n) (hwf : annot.WellFormed tags) (acc : AnnotInfo) :
    Reads (readAnnotArg tags n acc) (annotArgBytes x) (acc.push x) := by
  rcases List.mem_append.mp hx with hx | hx
  · obtain ⟨arg, harg, rfl⟩ := List.mem_map.mp hx
    have hlt : arg.toNat < n := hrefs arg (by simp [AnnotInfo.refs, harg])
    rw [annotArgBytes, ← List.append_nil (refBytes arg)]
    apply Reads.ref hlt
    rw [hwf.1 arg harg]
    exact Reads.pure _
  · obtain ⟨⟨name, arg⟩, hassoc, rfl⟩ := List.mem_map.mp hx
    have hmem : ∀ i ∈ [name, arg], i ∈ annot.refs := fun i hi =>
      List.mem_cons_of_mem _ (List.mem_append_right _ (List.mem_flatMap.mpr ⟨_, hassoc, hi⟩))
    rw [annotArgBytes]
    apply Reads.ref (hrefs name (hmem name (by simp)))
    rw [hwf.2 _ hassoc]
    exact Reads.lastRef (hrefs arg (hmem arg (by simp)))

theorem readsTo_readAnnotInfo {annot : AnnotInfo} (hrefs : ∀ i ∈ annot.refs, i.toNat < n)
    (hwf : annot.WellFormed tags) : ReadsTo (fun fin => readAnnotInfo fin tags n) annot.body annot := by
  have hne : ∀ x ∈ annot.items, annotArgBytes x ≠ [] := by
    intro x _
    rcases x with arg | ⟨name, arg⟩ <;> simp [annotArgBytes, refBytes_ne_nil]
  have hloop := readsTo_readUntil annot.items ⟨annot.tpe, [], []⟩ hne
    fun x hx => reads_readAnnotArg hx hrefs hwf
  rw [annot.foldl_items] at hloop
  rw [annot.body_eq]
  exact ReadsTo.ref (hrefs _ List.mem_cons_self) hloop

end ScalaRs.Pickling
