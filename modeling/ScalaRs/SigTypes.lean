import Mathlib.Algebra.Order.BigOperators.Group.List
import Mathlib.Algebra.Order.Group.Nat
import ScalaRs.PickleFormat
import Mathlib.Algebra.GroupWithZero.Nat

/-! # Types recovered from a pickle

A type is one layer of the grammar over types, with names for its references. -/
namespace ScalaRs.SigTypes

abbrev Name := List Char

theorem lawfulNames : LawfulBEq Name := inferInstanceAs (LawfulBEq (List Char))

structure TParam (τ : Type) where
  name : Name
  bounds : τ
  variance : BitVec 8

structure Param (τ : Type) where
  name : Name
  ty : τ
  byName : Bool
  flags : UInt64

inductive MemberKind
  | defn | val | abstractType | typeAlias | classDef | moduleDef

/-- What a member has apart from its macro binding, its boundary and its deprecation. -/
structure Member (τ : Type) where
  name : Name
  kind : MemberKind
  flags : UInt64
  ty : τ
  aliasPrefix : Option τ
  resultPrefix : Option τ

/-- One layer, over references `ν` and types `τ`. -/
inductive SigKind (ν τ : Type)
  | none
  | this (cls : Name)
  | single (pre : τ) (sym : Name)
  | constant (c : Pickling.Constant)
  | stringConstant (s : List Char)
  | ref (sym : ν) (args : List τ)
  | bounds (lo hi : τ)
  | refined (parents : List τ) (decls : List (Member τ))
  | method (params : List (Param τ)) (implicit : Bool) (result : τ)
  | poly (tparams : List (TParam τ)) (result : τ)
  | existential (quantified : List (TParam τ)) (result : τ)
  | annotated (t : τ)
  | super (thisTpe superTpe : τ)

inductive SigType
  | mk (kind : SigKind Name SigType)

namespace SigType

def kind : SigType → SigKind Name SigType
  | mk kind => kind

def ref (sym : Name) (args : List SigType) : SigType := mk (.ref sym args)

def poly (tparams : List (TParam SigType)) (result : SigType) : SigType := mk (.poly tparams result)

end SigType

/-! ## Types below a type -/

variable {ν τ σ : Type}

def Member.children (d : Member τ) : List τ :=
  d.ty :: (d.aliasPrefix.toList ++ d.resultPrefix.toList)

def SigKind.children : SigKind ν τ → List τ
  | .none | .this _ | .constant _ | .stringConstant _ => []
  | .single pre _ => [pre]
  | .ref _ args => args
  | .bounds lo hi => [lo, hi]
  | .refined parents decls => parents ++ decls.flatMap Member.children
  | .method params _ result => params.map (·.ty) ++ [result]
  | .poly tparams result | .existential tparams result => tparams.map (·.bounds) ++ [result]
  | .annotated t => [t]
  | .super thisTpe superTpe => [thisTpe, superTpe]

def TParam.map (f : τ → σ) (p : TParam τ) : TParam σ := ⟨p.name, f p.bounds, p.variance⟩

def Param.map (f : τ → σ) (p : Param τ) : Param σ := ⟨p.name, f p.ty, p.byName, p.flags⟩

def Member.map (f : τ → σ) (d : Member τ) : Member σ :=
  ⟨d.name, d.kind, d.flags, f d.ty, d.aliasPrefix.map f, d.resultPrefix.map f⟩

def SigKind.map (f : τ → σ) : SigKind ν τ → SigKind ν σ
  | .none => .none
  | .this cls => .this cls
  | .single pre sym => .single (f pre) sym
  | .constant c => .constant c
  | .stringConstant s => .stringConstant s
  | .ref sym args => .ref sym (args.map f)
  | .bounds lo hi => .bounds (f lo) (f hi)
  | .refined parents decls => .refined (parents.map f) (decls.map (Member.map f))
  | .method params implicit result => .method (params.map (Param.map f)) implicit (f result)
  | .poly tparams result => .poly (tparams.map (TParam.map f)) (f result)
  | .existential quantified result => .existential (quantified.map (TParam.map f)) (f result)
  | .annotated t => .annotated (f t)
  | .super thisTpe superTpe => .super (f thisTpe) (f superTpe)

def TParam.traverse (f : τ → Option σ) (p : TParam τ) : Option (TParam σ) := do
  let bounds ← f p.bounds
  some ⟨p.name, bounds, p.variance⟩

def Param.traverse (f : τ → Option σ) (p : Param τ) : Option (Param σ) := do
  let ty ← f p.ty
  some ⟨p.name, ty, p.byName, p.flags⟩

def optTraverse (f : τ → Option σ) : Option τ → Option (Option σ)
  | none => some none
  | some t => (f t).map some

def Member.traverse (f : τ → Option σ) (d : Member τ) : Option (Member σ) := do
  let ty ← f d.ty
  let aliasPrefix ← optTraverse f d.aliasPrefix
  let resultPrefix ← optTraverse f d.resultPrefix
  some ⟨d.name, d.kind, d.flags, ty, aliasPrefix, resultPrefix⟩

/-- Apply a function that may fail to every type below. -/
def SigKind.traverse (f : τ → Option σ) : SigKind ν τ → Option (SigKind ν σ)
  | .none => some .none
  | .this cls => some (.this cls)
  | .single pre sym => do
      let pre ← f pre
      some (.single pre sym)
  | .constant c => some (.constant c)
  | .stringConstant s => some (.stringConstant s)
  | .ref sym args => do
      let args ← args.mapM f
      some (.ref sym args)
  | .bounds lo hi => do
      let lo ← f lo
      let hi ← f hi
      some (.bounds lo hi)
  | .refined parents decls => do
      let parents ← parents.mapM f
      let decls ← decls.mapM (Member.traverse f)
      some (.refined parents decls)
  | .method params implicit result => do
      let params ← params.mapM (Param.traverse f)
      let result ← f result
      some (.method params implicit result)
  | .poly tparams result => do
      let tparams ← tparams.mapM (TParam.traverse f)
      let result ← f result
      some (.poly tparams result)
  | .existential quantified result => do
      let quantified ← quantified.mapM (TParam.traverse f)
      let result ← f result
      some (.existential quantified result)
  | .annotated t => (f t).map .annotated
  | .super thisTpe superTpe => do
      let thisTpe ← f thisTpe
      let superTpe ← f superTpe
      some (.super thisTpe superTpe)

/-! ## Traversals -/

section
variable {α β : Type}

theorem mapM_eq_some {f : α → Option β} {g : α → β} {l : List α} (h : ∀ a ∈ l, f a = some (g a)) :
    l.mapM f = some (l.map g) := by
  induction l with
  | nil => rfl
  | cons a l ih =>
      rw [List.mapM_cons, h a List.mem_cons_self, ih fun b hb => h b (List.mem_cons_of_mem a hb)]
      rfl

/-- The results agree with the arguments one by one. -/
theorem map_of_mapM {γ : Type} {f : α → Option β} {g : β → γ} {k : α → γ} {l : List α}
    {l' : List β} (hl : l.mapM f = some l') (h : ∀ a ∈ l, ∀ b, f a = some b → g b = k a) :
    l'.map g = l.map k := by
  induction l generalizing l' with
  | nil =>
      cases hl
      rfl
  | cons a l ih =>
      rw [List.mapM_cons] at hl
      obtain ⟨b, hb, hl⟩ := Option.bind_eq_some_iff.1 hl
      obtain ⟨bs, hbs, hl⟩ := Option.bind_eq_some_iff.1 hl
      cases hl
      rw [List.map_cons, List.map_cons, h a List.mem_cons_self b hb,
        ih hbs fun c hc => h c (List.mem_cons_of_mem a hc)]

end

theorem SigKind.children_map (f : τ → σ) (k : SigKind ν τ) :
    (k.map f).children = k.children.map f := by
  have hmember (d : Member τ) : (d.map f).children = d.children.map f := by
    obtain ⟨name, kind, flags, ty, pre, res⟩ := d
    cases pre <;> cases res <;> rfl
  cases k <;>
    simp [SigKind.map, SigKind.children, List.flatMap_map, List.map_flatMap, hmember, TParam.map,
      Param.map, Function.comp_def]

theorem TParam.traverse_eq_some {f : τ → Option σ} {p : TParam τ} {q : TParam σ} :
    p.traverse f = some q ↔ f p.bounds = some q.bounds ∧ q.name = p.name ∧
      q.variance = p.variance := by
  obtain ⟨name, bounds, variance⟩ := q
  cases h : f p.bounds <;> simp [TParam.traverse, h, eq_comm, and_left_comm]

theorem Param.traverse_eq_some {f : τ → Option σ} {p : Param τ} {q : Param σ} :
    p.traverse f = some q ↔ f p.ty = some q.ty ∧ q.name = p.name ∧ q.byName = p.byName ∧
      q.flags = p.flags := by
  obtain ⟨name, ty, byName, flags⟩ := q
  cases h : f p.ty <;> simp [Param.traverse, h, eq_comm, and_left_comm]

theorem optTraverse_of {f : τ → Option σ} {g : σ → ν} {k : τ → ν} {o : Option τ} {o' : Option σ}
    (ho : optTraverse f o = some o') (h : ∀ c ∈ o, ∀ c', f c = some c' → g c' = k c) :
    o'.map g = o.map k := by
  cases o with
  | none =>
      cases ho
      rfl
  | some t =>
      obtain ⟨t', ht', rfl⟩ := Option.map_eq_some_iff.1 ho
      exact congrArg some (h t rfl t' ht')

theorem Member.map_of_traverse {f : τ → Option σ} {g : σ → ν} {k : τ → ν} {d : Member τ}
    {d' : Member σ} (hd : d.traverse f = some d')
    (h : ∀ c ∈ d.children, ∀ c', f c = some c' → g c' = k c) : d'.map g = d.map k := by
  obtain ⟨ty, hty, hd⟩ := Option.bind_eq_some_iff.1 hd
  obtain ⟨pre, hpre, hd⟩ := Option.bind_eq_some_iff.1 hd
  obtain ⟨res, hres, hd⟩ := Option.bind_eq_some_iff.1 hd
  cases hd
  rw [Member.map, Member.map, h d.ty List.mem_cons_self ty hty,
    optTraverse_of hpre fun c hc => h c (List.mem_cons_of_mem _
      (List.mem_append_left _ (Option.mem_toList.2 hc))),
    optTraverse_of hres fun c hc => h c (List.mem_cons_of_mem _
      (List.mem_append_right _ (Option.mem_toList.2 hc)))]

theorem map_tparams {f : τ → Option σ} {g : σ → ν} {k : τ → ν} {ps : List (TParam τ)}
    {ps' : List (TParam σ)} (hps : ps.mapM (TParam.traverse f) = some ps')
    (h : ∀ p ∈ ps, ∀ c', f p.bounds = some c' → g c' = k p.bounds) :
    ps'.map (TParam.map g) = ps.map (TParam.map k) := by
  apply map_of_mapM hps
  intro p hp q hq
  obtain ⟨hbounds, hname, hvariance⟩ := TParam.traverse_eq_some.1 hq
  rw [TParam.map, TParam.map, hname, hvariance, h p hp q.bounds hbounds]

/-- If the results below agree with what is below, so do the layers. -/
theorem SigKind.map_of_traverse {ρ : Type} {f : τ → Option σ} {g : σ → ρ} {k : τ → ρ}
    {kind : SigKind ν τ} {kind' : SigKind ν σ} (hkind : kind.traverse f = some kind')
    (h : ∀ c ∈ kind.children, ∀ c', f c = some c' → g c' = k c) : kind'.map g = kind.map k := by
  cases kind with
  | none | this | constant | stringConstant =>
      cases hkind
      rfl
  | single pre sym =>
      obtain ⟨pre', hpre, hkind⟩ := Option.bind_eq_some_iff.1 hkind
      cases hkind
      rw [SigKind.map, SigKind.map, h pre List.mem_cons_self pre' hpre]
  | ref sym args =>
      obtain ⟨args', hargs, hkind⟩ := Option.bind_eq_some_iff.1 hkind
      cases hkind
      rw [SigKind.map, SigKind.map, map_of_mapM hargs h]
  | bounds lo hi =>
      obtain ⟨lo', hlo, hkind⟩ := Option.bind_eq_some_iff.1 hkind
      obtain ⟨hi', hhi, hkind⟩ := Option.bind_eq_some_iff.1 hkind
      cases hkind
      rw [SigKind.map, SigKind.map, h lo (by simp [children]) lo' hlo,
        h hi (by simp [children]) hi' hhi]
  | refined parents decls =>
      obtain ⟨parents', hparents, hkind⟩ := Option.bind_eq_some_iff.1 hkind
      obtain ⟨decls', hdecls, hkind⟩ := Option.bind_eq_some_iff.1 hkind
      cases hkind
      have hmembers : decls'.map (Member.map g) = decls.map (Member.map k) :=
        map_of_mapM hdecls fun d hd d' hd' => Member.map_of_traverse hd' fun c hc =>
          h c (List.mem_append_right _ (List.mem_flatMap.2 ⟨d, hd, hc⟩))
      rw [SigKind.map, SigKind.map, map_of_mapM hparents fun c hc =>
        h c (List.mem_append_left _ hc), hmembers]
  | method params implicit result =>
      obtain ⟨params', hparams, hkind⟩ := Option.bind_eq_some_iff.1 hkind
      obtain ⟨result', hresult, hkind⟩ := Option.bind_eq_some_iff.1 hkind
      cases hkind
      have hmaps : params'.map (Param.map g) = params.map (Param.map k) := by
        apply map_of_mapM hparams
        intro p hp q hq
        obtain ⟨hty, hname, hbyName, hflags⟩ := Param.traverse_eq_some.1 hq
        rw [Param.map, Param.map, hname, hbyName, hflags,
          h p.ty (List.mem_append_left _ (List.mem_map.2 ⟨p, hp, rfl⟩)) q.ty hty]
      rw [SigKind.map, SigKind.map, hmaps, h result (by simp [children]) result' hresult]
  | poly tparams result | existential tparams result =>
      obtain ⟨tparams', htparams, hkind⟩ := Option.bind_eq_some_iff.1 hkind
      obtain ⟨result', hresult, hkind⟩ := Option.bind_eq_some_iff.1 hkind
      cases hkind
      rw [SigKind.map, SigKind.map, h result (by simp [children]) result' hresult,
        map_tparams htparams fun p hp =>
          h p.bounds (List.mem_append_left _ (List.mem_map.2 ⟨p, hp, rfl⟩))]
  | annotated t =>
      obtain ⟨t', ht, rfl⟩ := Option.map_eq_some_iff.1 hkind
      rw [SigKind.map, SigKind.map, h t List.mem_cons_self t' ht]
  | super this super =>
      obtain ⟨this', hthis, hkind⟩ := Option.bind_eq_some_iff.1 hkind
      obtain ⟨super', hsuper, hkind⟩ := Option.bind_eq_some_iff.1 hkind
      cases hkind
      rw [SigKind.map, SigKind.map, h this (by simp [children]) this' hthis,
        h super (by simp [children]) super' hsuper]

/-- The results are those of the function. -/
theorem SigKind.map_some_of_traverse {f : τ → Option σ} {kind : SigKind ν τ} {kind' : SigKind ν σ}
    (hkind : kind.traverse f = some kind') : kind'.map some = kind.map f :=
  map_of_traverse hkind fun _ _ _ hc' => hc'.symm

theorem SigKind.mem_of_traverse {f : τ → Option σ} {kind : SigKind ν τ} {kind' : SigKind ν σ}
    (hkind : kind.traverse f = some kind') {c' : σ} (hc' : c' ∈ kind'.children) :
    ∃ c ∈ kind.children, f c = some c' := by
  have hchildren := congrArg SigKind.children (map_some_of_traverse hkind)
  rw [children_map, children_map] at hchildren
  exact List.mem_map.1 (hchildren ▸ List.mem_map.2 ⟨c', hc', rfl⟩)

theorem Member.traverse_eq {f : τ → Option σ} {g : τ → σ} {d : Member τ}
    (h : ∀ c ∈ d.children, f c = some (g c)) : d.traverse f = some (d.map g) := by
  have hopt {o : Option τ} (ho : ∀ c ∈ o.toList, f c = some (g c)) :
      optTraverse f o = some (o.map g) := by
    cases o with
    | none => rfl
    | some t => exact congrArg (Option.map some) (ho t List.mem_cons_self)
  rw [Member.traverse, h d.ty List.mem_cons_self,
    hopt fun c hc => h c (List.mem_cons_of_mem _ (List.mem_append_left _ hc)),
    hopt fun c hc => h c (List.mem_cons_of_mem _ (List.mem_append_right _ hc))]
  rfl

theorem traverse_tparams {f : τ → Option σ} {g : τ → σ} {ps : List (TParam τ)}
    (h : ∀ p ∈ ps, f p.bounds = some (g p.bounds)) :
    ps.mapM (TParam.traverse f) = some (ps.map (TParam.map g)) :=
  mapM_eq_some fun p hp => TParam.traverse_eq_some.2 ⟨h p hp, rfl, rfl⟩

/-- A function that succeeds on everything below succeeds on the layer. -/
theorem SigKind.traverse_eq {f : τ → Option σ} {g : τ → σ} {kind : SigKind ν τ}
    (h : ∀ c ∈ kind.children, f c = some (g c)) : kind.traverse f = some (kind.map g) := by
  cases kind with
  | none | this | constant | stringConstant => rfl
  | single pre sym =>
      rw [traverse, h pre List.mem_cons_self]
      rfl
  | ref sym args =>
      have hargs : args.mapM f = some (args.map g) := mapM_eq_some h
      rw [traverse, hargs]
      rfl
  | bounds lo hi =>
      rw [traverse, h lo (by simp [children]), h hi (by simp [children])]
      rfl
  | refined parents decls =>
      have hdecls : decls.mapM (Member.traverse f) = some (decls.map (Member.map g)) :=
        mapM_eq_some fun d hd => Member.traverse_eq fun c hc =>
          h c (List.mem_append_right _ (List.mem_flatMap.2 ⟨d, hd, hc⟩))
      rw [traverse, mapM_eq_some fun c hc => h c (List.mem_append_left _ hc), hdecls]
      rfl
  | method params implicit result =>
      have hparams : params.mapM (Param.traverse f) = some (params.map (Param.map g)) :=
        mapM_eq_some fun p hp => Param.traverse_eq_some.2
          ⟨h p.ty (List.mem_append_left _ (List.mem_map.2 ⟨p, hp, rfl⟩)), rfl, rfl, rfl⟩
      rw [traverse, hparams, h result (by simp [children])]
      rfl
  | poly tparams result | existential tparams result =>
      rw [traverse, traverse_tparams fun p hp =>
        h p.bounds (List.mem_append_left _ (List.mem_map.2 ⟨p, hp, rfl⟩)),
        h result (by simp [children])]
      rfl
  | annotated t =>
      rw [traverse, h t List.mem_cons_self]
      rfl
  | super this super =>
      rw [traverse, h this (by simp [children]), h super (by simp [children])]
      rfl

/-! ## Sizes -/

theorem sizeOf_lt_of_mem_member [SizeOf τ] {d : Member τ} {c : τ} (h : c ∈ d.children) :
    sizeOf c < sizeOf d := by
  obtain ⟨name, kind, flags, ty, pre, res⟩ := d
  simp only [Member.children, List.mem_cons, List.mem_append, Option.mem_toList] at h
  rcases h with rfl | rfl | rfl <;> simp <;> omega

theorem sizeOf_lt_of_mem_children [SizeOf ν] [SizeOf τ] {kind : SigKind ν τ} {c : τ}
    (h : c ∈ kind.children) : sizeOf c < sizeOf kind := by
  have hlist {l : List τ} (hc : c ∈ l) : sizeOf c < sizeOf l := List.sizeOf_lt_of_mem hc
  have hdecls {l : List (Member τ)} (hc : c ∈ l.flatMap Member.children) : sizeOf c < sizeOf l := by
    obtain ⟨d, hd, hc⟩ := List.mem_flatMap.1 hc
    exact Nat.lt_trans (sizeOf_lt_of_mem_member hc) (List.sizeOf_lt_of_mem hd)
  have hparams {l : List (Param τ)} (hc : c ∈ l.map (·.ty)) : sizeOf c < sizeOf l := by
    obtain ⟨p, hp, rfl⟩ := List.mem_map.1 hc
    have hlt := List.sizeOf_lt_of_mem hp
    cases p
    simp at hlt ⊢
    omega
  have htparams {l : List (TParam τ)} (hc : c ∈ l.map (·.bounds)) : sizeOf c < sizeOf l := by
    obtain ⟨p, hp, rfl⟩ := List.mem_map.1 hc
    have hlt := List.sizeOf_lt_of_mem hp
    cases p
    simp at hlt ⊢
    omega
  cases kind <;>
    simp only [SigKind.children, List.mem_append, List.mem_cons, List.not_mem_nil, or_false] at h <;>
    simp <;> grind

namespace SigType

/-- The number of layers. -/
def size : SigType → ℕ
  | mk kind => 1 + (kind.children.attach.map fun c => size c.1).sum
  termination_by t => sizeOf t
  decreasing_by
    have hlt := sizeOf_lt_of_mem_children c.2
    simp only [SigType.mk.sizeOf_spec]
    omega

theorem size_mk (kind : SigKind Name SigType) :
    (mk kind).size = 1 + (kind.children.map size).sum := by
  rw [size, List.attach_map_val]

theorem size_lt_of_mem {kind : SigKind Name SigType} {c : SigType} (h : c ∈ kind.children) :
    c.size < (mk kind).size := by
  have hle : c.size ≤ (kind.children.map size).sum :=
    List.le_sum_of_mem (List.mem_map.2 ⟨c, h, rfl⟩)
  rw [size_mk]
  omega

end SigType

end ScalaRs.SigTypes
