import ScalaRs.SubsetUnpickler
import ScalaRs.PickleRoundTrip
import Mathlib.Data.List.Forall2

/-! # The subset unpickler agrees with the pickle reader

What the pickle reader reads, the subset unpickler reads too, from the same
bytes; each entry becomes its projection. -/
namespace ScalaRs.Pickling

/-- The entry of the subset unpickler for an entry of a pickle. -/
def Entry.subset : Entry → Subset.Entry
  | TermName s => .TermName s
  | TypeName s => .TypeName s
  | NoneSym => .NoneSym
  | TypeSym i => .TypeSym i.name i.owner i.info false
  | AliasSym i => .TypeSym i.name i.owner i.info true
  | ClassSym i _ => .ClassSym i.name i.owner i.info i.flags
  | ModuleSym i _ => .ModuleSym i.name i.owner i.info
  | ValSym i _ => .ValSym i.name i.owner i.info i.flags
  | ExtRef name owner | ExtModClassRef name owner => .ExtRef name owner
  | NoTpe | NoPrefixTpe => .NoTpe
  | ThisTpe sym => .ThisTpe sym
  | SingleTpe pre sym => .SingleTpe pre sym
  | ConstantTpe c => .ConstantTpe c
  | TypeRefTpe pre sym args => .TypeRef pre sym args
  | TypeBoundsTpe lo hi => .TypeBounds lo hi
  | RefinedTpe _ parents => .RefinedTpe parents
  | ClassInfoTpe _ parents => .ClassInfo parents
  | MethodTpe result params => .MethodTpe result params
  | PolyTpe result tparams => .PolyTpe tparams result
  | ExistentialTpe result _ => .Existential result
  | AnnotatedTpe tpe _ => .AnnotatedTpe tpe
  | Literal .Unit => .LiteralTy "Unit"
  | Literal (.Boolean _) => .LiteralTy "Boolean"
  | Literal (.Char _) => .LiteralTy "Char"
  | Literal (.Int _) => .LiteralTy "Int"
  | Literal (.Long _) => .LiteralTy "Long"
  | Literal (.Float _) => .LiteralTy "Float"
  | Literal (.Double _) => .LiteralTy "Double"
  | Literal (.Str _) => .LiteralTy "String"
  | Literal .Null => .LiteralTy "Null"
  | Literal _ | SuperTpe .. | ImplicitMethodTpe .. | DeBruijnIndexTpe .. | SymAnnot .. | AnnotInfo _
  | AnnotArgArray _ | Children .. | Tree .. | Modifiers .. => .Other

def Reader.subset (r : Reader) : Subset.Reader := ⟨r.bytes.bytes, r.pos⟩

namespace Subset
open CheckedReaders CheckedReaders.CheckedM

variable {α β : Type}

/-! ## Numbers -/

/-- What `p` reads, `q` reads too, and ends at the same place. -/
def Follows (q : Read α) (p : Pickling.Read α) : Prop :=
  ∀ r a r', p r = .ok (a, r') → r'.bytes = r.bytes ∧ q r.subset = (some a, r'.subset)

variable [Build]

theorem readByte_follows : Follows readByte byte := by
  intro r b r' h
  obtain ⟨hb, rfl⟩ := byte_eq_ok h
  have hread : readByte r.subset = (some b, ⟨r.bytes.bytes, r.pos + 1⟩) := by
    have hbyte : r.subset.bytes[r.subset.pos]? = some b := hb
    simp only [readByte, hbyte]
    rfl
  exact ⟨rfl, hread⟩

omit [Build] in
/-- The lowest seven bits are free after the shift. -/
theorem add_digit (x d : UInt64) : ((x <<< 7) + (d &&& 0x7f) : UInt64) = (x <<< 7) ||| (d &&& 0x7f) := by
  have hlow := toNat_and_low d
  have hshift : (x <<< 7).toNat = 2 ^ 7 * (x.toNat % 2 ^ 57) := by
    rw [UInt64.toNat_shiftLeft, Nat.shiftLeft_eq]
    change x.toNat * 2 ^ 7 % 2 ^ 64 = _
    omega
  apply UInt64.toNat_inj.mp
  rw [UInt64.toNat_or, UInt64.toNat_add, hshift, hlow,
    ← Nat.two_pow_add_eq_or_of_lt (Nat.mod_lt _ (by decide))]
  omega

theorem readLongNatFrom_follows (fuel : ℕ) : ∀ x,
    Follows (readLongNatFrom x) (longNatFrom fuel x) := by
  induction fuel with
  | zero =>
    intro x r v r' h
    cases h
  | succ fuel ih =>
    intro x r v r' h
    rw [longNatFrom] at h
    obtain ⟨b, r₁, hbyte, h⟩ := bind_eq_ok h
    obtain ⟨hbytes, hread⟩ := readByte_follows r b r₁ hbyte
    rw [readLongNatFrom_of_some hread, add_digit]
    simp only at h
    split at h
    · next hlast =>
      cases h
      rw [if_pos hlast]
      exact ⟨hbytes, rfl⟩
    · next hmore =>
      obtain ⟨hbytes', hrest⟩ := ih _ r₁ v r' h
      rw [if_neg hmore]
      exact ⟨hbytes'.trans hbytes, hrest⟩

theorem readLongNat_follows : Follows readLongNat longNat := readLongNatFrom_follows 10 0

theorem readNat_follows : Follows readNat nat := by
  intro r v r' h
  rw [nat] at h
  obtain ⟨x, r₁, hlong, h⟩ := bind_eq_ok h
  obtain ⟨hbytes, hread⟩ := readLongNat_follows r x r₁ hlong
  split at h
  · cases h
  · cases h
    rw [readNat, map_apply, hread]
    exact ⟨hbytes, rfl⟩

theorem readNat_followsRef (n : ℕ) : Follows readNat (readRef n) := by
  intro r i r' h
  rw [readRef] at h
  obtain ⟨i', r₁, hnat, h⟩ := bind_eq_ok h
  obtain ⟨u, r₂, hcheck, h⟩ := bind_eq_ok h
  cases h
  rw [checkRef] at hcheck
  split at hcheck
  · cases hcheck
  · cases hcheck
    exact readNat_follows r _ _ hnat

/-- A number that is read moves the reader on. -/
theorem readRef_pos_lt {n : ℕ} {r r' : Pickling.Reader} {i : Idx} (h : readRef n r = .ok (i, r')) :
    r.pos < r'.pos := by
  obtain ⟨hbytes, hread⟩ := readNat_followsRef n r i r' h
  have hleft := readNat_left hread
  simp only [Reader.left, Pickling.Reader.subset, hbytes] at hleft
  omega

/-! ## References up to the end -/

/-- One iteration of `read_refs_until`. -/
def pushRef (n : ℕ) (out : List Idx) : Pickling.Read (List Idx) := do
  return out ++ [← readRef n]

theorem pushRef_eq_ok {n : ℕ} {out out' : List Idx} {r r' : Pickling.Reader}
    (h : pushRef n out r = .ok (out', r')) :
    ∃ i, readRef n r = .ok (i, r') ∧ out' = out ++ [i] := by
  rw [pushRef] at h
  obtain ⟨i, r₁, href, h⟩ := bind_eq_ok h
  cases h
  exact ⟨i, href, rfl⟩

theorem readUntil_pushRef (fin n : ℕ) (out : List Idx) (r : Pickling.Reader) :
    readUntil fin (pushRef n) out r = if r.pos < fin then
      (pushRef n out >>= readUntil fin (pushRef n)) r else .ok (out, r) := by
  have hpos : ∀ s : Pickling.Reader, decide (s.pos < fin) = true → 0 < fin - s.pos := by
    intro s hs
    have hlt := of_decide_eq_true hs
    omega
  have hbody : ∀ out (s : Pickling.Reader) out' (s' : Pickling.Reader),
      decide (s.pos < fin) = true → pushRef n out s = .ok (out', s') → fin - s'.pos < fin - s.pos := by
    intro out s out' s' hs hrun
    obtain ⟨i, href, -⟩ := pushRef_eq_ok hrun
    have hlt := of_decide_eq_true hs
    have hmove := readRef_pos_lt href
    omega
  have hloop := whileDo_apply hpos hbody out r
  simp only [decide_eq_true_eq] at hloop
  exact hloop

theorem readNatsUntil_followsRefs {fin n : ℕ} (r : Pickling.Reader) : ∀ {out out' r'},
    readUntil fin (pushRef n) out r = .ok (out', r') →
      r'.bytes = r.bytes ∧ readNatsUntil fin out r.subset = (out', r'.subset) := by
  induction hleft : fin - r.pos using Nat.strongRecOn generalizing r with
  | ind m ih =>
    intro out out' r' h
    rw [readUntil_pushRef] at h
    split at h
    · next hpos =>
      obtain ⟨out₁, r₁, hpush, h⟩ := bind_eq_ok h
      obtain ⟨i, href, rfl⟩ := pushRef_eq_ok hpush
      have hmove := readRef_pos_lt href
      obtain ⟨hbytes, hread⟩ := readNat_followsRef n r i r₁ href
      obtain ⟨hbytes', hrest⟩ := ih _ (by omega) r₁ rfl h
      rw [readNatsUntil_of_some hpos hread]
      exact ⟨hbytes'.trans hbytes, hrest⟩
    · next hpos =>
      cases h
      exact ⟨rfl, readNatsUntil_of_ge (Nat.not_lt.mp hpos) _⟩

/-! ## Entries without a symbol -/

/-- The entry that `q` makes of what `p` reads up to the end, which need not be
all of it. -/
def Projects (fin : ℕ) (q : StateM Reader Entry) (p : Pickling.Read Pickling.Entry) : Prop :=
  ∀ r e r', p r = .ok (e, r') → r'.pos = fin →
    (q r.subset).1 = e.subset ∧ (q r.subset).2.bytes = r.bytes.bytes

theorem Projects.ref {fin n : ℕ} {q : Idx → StateM Reader Entry}
    {p : Idx → Pickling.Read Pickling.Entry} (h : ∀ i, Projects fin (q i) (p i)) :
    Projects fin (readNatOrZero >>= q) (readRef n >>= p) := by
  intro r e r' hrun hfin
  obtain ⟨i, r₁, href, hrun⟩ := bind_eq_ok hrun
  obtain ⟨hbytes, hread⟩ := readNat_followsRef n r i r₁ href
  have hzero : readNatOrZero r.subset = (i, r₁.subset) := by
    change ((readNat r.subset).1.getD 0, (readNat r.subset).2) = _
    rw [hread]
    rfl
  obtain ⟨hentry, hbytes'⟩ := h i r₁ e r' hrun hfin
  change (q (readNatOrZero r.subset).1 (readNatOrZero r.subset).2).1 = _ ∧
    (q (readNatOrZero r.subset).1 (readNatOrZero r.subset).2).2.bytes = _
  rw [hzero, ← hbytes]
  exact ⟨hentry, hbytes'⟩

theorem Projects.refs {fin n : ℕ} {g : List Idx → Entry} {f : List Idx → Pickling.Entry}
    (h : ∀ is, (f is).subset = g is) : Projects fin (do return g (← readNatsUntil fin []))
      (do return f (← readRefsUntil fin n)) := by
  intro r e r' hrun _
  obtain ⟨is, r₁, hrefs, hrun⟩ := bind_eq_ok hrun
  cases hrun
  obtain ⟨hbytes, hread⟩ := readNatsUntil_followsRefs r hrefs
  change g (readNatsUntil fin [] r.subset).1 = _ ∧ (readNatsUntil fin [] r.subset).2.bytes = _
  rw [hread, h, ← hbytes]
  exact ⟨rfl, rfl⟩

/-- Every value that is read satisfies `P`. -/
def Yields {α : Type} (P : α → Prop) (p : Pickling.Read α) : Prop :=
  ∀ r a r', p r = .ok (a, r') → P a

omit [Build] in
theorem Yields.bind {α β : Type} {P : β → Prop} {p : Pickling.Read α} {f : α → Pickling.Read β}
    (h : ∀ a, Yields P (f a)) : Yields P (p >>= f) := by
  intro r b r' hrun
  obtain ⟨a, r₁, -, hrun⟩ := bind_eq_ok hrun
  exact h a r₁ b r' hrun

omit [Build] in
theorem Yields.pure {α : Type} {P : α → Prop} {a : α} (h : P a) : Yields P (Pure.pure a) := by
  intro r a' r' hrun
  cases hrun
  exact h

/-- An entry that is read has the tag it was read under. -/
theorem readBody_tag (fin : ℕ) (allTags : List UInt8) (n : ℕ) (t : EntryTag) :
    Yields (fun e => e.tag = t) (readBody fin allTags n t) := by
  cases t
  case LITERAL =>
    intro r e r' hrun
    cases hrun
  all_goals
    simp only [readBody, readTreeEntry]
    repeat (with_reducible apply Yields.bind; intro _)
    with_reducible apply Yields.pure
    rfl

omit [Build] in
theorem Projects.const {fin : ℕ} {p : Pickling.Read Pickling.Entry} {e : Entry}
    (h : Yields (fun e' => e'.subset = e) p) : Projects fin (Pure.pure e) p := by
  intro r e' r' hrun _
  exact ⟨(h r e' r' hrun).symm, rfl⟩

theorem readOwner_follows {fin n : ℕ} {r r' : Pickling.Reader} {i : Option Idx}
    (h : readOptRef fin n r = .ok (i, r')) :
    r'.bytes = r.bytes ∧ readOwner fin r.subset = (i, r'.subset) := by
  rw [readOptRef, get_bind_apply] at h
  change _ ∧ (if r.pos < fin then readNat.run else pure none : StateM Reader (Option Idx)) r.subset = _
  split at h
  · next hpos =>
    obtain ⟨j, href, rfl⟩ := map_eq_ok h
    obtain ⟨hbytes, hread⟩ := readNat_followsRef n r j r' href
    rw [if_pos hpos]
    exact ⟨hbytes, hread⟩
  · next hpos =>
    cases h
    rw [if_neg hpos]
    exact ⟨rfl, rfl⟩

theorem Projects.optRef {fin n : ℕ} {g : Option Idx → Entry} {f : Option Idx → Pickling.Entry}
    (h : ∀ i, (f i).subset = g i) : Projects fin (do return g (← readOwner fin))
      (do return f (← readOptRef fin n)) := by
  intro r e r' hrun _
  obtain ⟨i, r₁, hopt, hrun⟩ := bind_eq_ok hrun
  cases hrun
  obtain ⟨hbytes, hread⟩ := readOwner_follows hopt
  change g (readOwner fin r.subset).1 = _ ∧ (readOwner fin r.subset).2.bytes = _
  rw [hread, h, ← hbytes]
  exact ⟨rfl, rfl⟩

/-- The first reference of a `POLYtpe` is read like the ones after it. -/
theorem readOther_projectsPoly {fin n : ℕ} {allTags : List UInt8} :
    Projects fin (readOther fin .POLYtpe) (readBody fin allTags n .POLYtpe) := by
  intro r e r' hrun hfin
  obtain ⟨i, r₁, href, hrun⟩ := bind_eq_ok hrun
  obtain ⟨is, r₂, hrefs, hrun⟩ := bind_eq_ok hrun
  cases hrun
  have hmove := readRef_pos_lt href
  have hpos : r.pos < fin := by
    rcases Nat.lt_or_ge r.pos fin with hlt | hge
    · exact hlt
    · change readUntil fin (pushRef n) [] r₁ = _ at hrefs
      rw [readUntil_pushRef, if_neg (by omega)] at hrefs
      cases hrefs
      omega
  obtain ⟨hbytes, hread⟩ := readNat_followsRef n r i r₁ href
  obtain ⟨hbytes', hreads⟩ := readNatsUntil_followsRefs r₁ hrefs
  have hall : readNatsUntil fin [] r.subset = (i :: is, r'.subset) := by
    rw [readNatsUntil_of_some hpos hread, readNatsUntil_eq, hreads]
    rfl
  change Entry.PolyTpe ((readNatsUntil fin [] r.subset).1.drop 1) _ = _ ∧
    (readNatsUntil fin [] r.subset).2.bytes = _
  rw [hall, ← hbytes, ← hbytes']
  exact ⟨rfl, rfl⟩

/-- The kinds of entries whose reference to a symbol's information is read. -/
def isInfoTag : EntryTag → Bool
  | .TYPEsym | .ALIASsym | .CLASSsym | .MODULEsym | .VALsym => true
  | _ => false

theorem readOther_projects {fin n : ℕ} {allTags : List UInt8} {t : EntryTag}
    (h : isInfoTag t = false) (hname : t.isName = false) :
    Projects fin (readOther fin t) (readBody fin allTags n t) := by
  cases t
  case TYPEsym | ALIASsym | CLASSsym | MODULEsym | VALsym => cases h
  case TERMname | TYPEname => cases hname
  case EXTref | EXTMODCLASSref =>
    apply Projects.ref
    exact fun i => Projects.optRef fun _ => rfl
  case POLYtpe => exact readOther_projectsPoly
  case TYPEREFtpe | REFINEDtpe | CLASSINFOtpe | METHODtpe =>
    simp only [readBody, readOther]
    repeat (with_reducible apply Projects.ref; intro _)
    apply Projects.refs
    exact fun _ => rfl
  case THIStpe | SINGLEtpe | CONSTANTtpe | TYPEBOUNDStpe | ANNOTATEDtpe | EXISTENTIALtpe =>
    simp only [readBody, readOther]
    repeat (with_reducible apply Projects.ref; intro _)
    apply Projects.const
    repeat (with_reducible apply Yields.bind; intro _)
    with_reducible apply Yields.pure
    rfl
  all_goals
    apply Projects.const
    intro r e r' hrun
    have htag := readBody_tag _ _ _ _ r e r' hrun
    cases e <;> first | rfl | cases htag | skip
    cases ‹Constant› <;> first | rfl | cases htag

/-! ## Symbols -/

/-- `privateWithin` is a class, a module or an external symbol. -/
def PrivateWithinKnown (allTags : List UInt8) (info : SymInfo) : Prop :=
  ∀ p ∈ info.privateWithin, isPrivateWithin allTags p

omit [Build] in
theorem isSymRef_of_isPrivateWithin {allTags : List UInt8} {i : Idx}
    (h : isPrivateWithin allTags i = true) : isSymRef allTags i = true := by
  rw [isPrivateWithin] at h
  rw [isSymRef]
  cases ht : allTags[i.toNat]? with
  | none =>
    rw [ht] at h
    cases h
  | some t =>
    rw [ht] at h
    simp only [Option.any_some, Bool.or_eq_true, beq_iff_eq] at h ⊢
    rcases h with ((rfl | rfl) | rfl) | rfl <;> decide

/-- The narrower test agrees where every `privateWithin` passes it. -/
theorem readInfo_follows {allTags : List UInt8} {n : ℕ} {r r' : Pickling.Reader} {first : Idx}
    {info : SymInfo} {name owner : Idx} {flags : UInt64}
    (h : (if isSymRef allTags first then
        (do return ⟨name, owner, flags, some first, ← readRef n⟩ : Pickling.Read SymInfo)
      else return ⟨name, owner, flags, none, first⟩) r = .ok (info, r'))
    (hknown : PrivateWithinKnown allTags info) : r'.bytes = r.bytes ∧ info.name = name ∧
      info.owner = owner ∧ info.flags = flags ∧
      readInfo allTags first r.subset = (some info.info, r'.subset) := by
  split at h
  · obtain ⟨i, r₁, href, h⟩ := bind_eq_ok h
    cases h
    obtain ⟨hbytes, hread⟩ := readNat_followsRef n r i _ href
    rw [readInfo, if_pos (hknown first rfl)]
    exact ⟨hbytes, rfl, rfl, rfl, hread⟩
  · next hsym =>
    cases h
    rw [readInfo, if_neg fun hp => hsym (isSymRef_of_isPrivateWithin hp)]
    exact ⟨rfl, rfl, rfl, rfl, rfl⟩

theorem readSymInfo_follows {allTags : List UInt8} {n : ℕ} {r r' : Pickling.Reader} {info : SymInfo}
    (h : readSymInfo allTags n r = .ok (info, r')) (hknown : PrivateWithinKnown allTags info) :
    r'.bytes = r.bytes ∧ ∀ fin r'', skipNatsUntil fin r'.subset = (some (), r'') →
      readSymbolInfo fin allTags r.subset =
        (some (info.name, info.owner, info.flags, info.info), r'') := by
  rw [readSymInfo] at h
  obtain ⟨name, r₁, hname, h⟩ := bind_eq_ok h
  obtain ⟨owner, r₂, howner, h⟩ := bind_eq_ok h
  obtain ⟨flags, r₃, hflags, h⟩ := bind_eq_ok h
  obtain ⟨first, r₄, hfirst, h⟩ := bind_eq_ok h
  obtain ⟨hbytes₁, hname⟩ := readNat_followsRef n r name r₁ hname
  obtain ⟨hbytes₂, howner⟩ := readNat_followsRef n r₁ owner r₂ howner
  obtain ⟨hbytes₃, hflags⟩ := readLongNat_follows r₂ flags r₃ hflags
  obtain ⟨hbytes₄, hfirst⟩ := readNat_followsRef n r₃ first r₄ hfirst
  obtain ⟨hbytes, rfl, rfl, rfl, hinfo⟩ := readInfo_follows h hknown
  refine ⟨by rw [hbytes, hbytes₄, hbytes₃, hbytes₂, hbytes₁], fun fin r'' hskip => ?_⟩
  rw [readSymbolInfo, bind_of_some hname, bind_of_some howner, bind_of_some hflags,
    bind_of_some hfirst, bind_of_some hinfo, bind_of_some hskip]
  rfl

/-- The optional reference after a symbol is skipped. -/
theorem skipNatsUntil_optRef {fin n : ℕ} {r r' : Pickling.Reader} {i : Option Idx}
    (h : readOptRef fin n r = .ok (i, r')) (hfin : r'.pos = fin) :
    skipNatsUntil fin r.subset = (some (), r'.subset) := by
  rw [readOptRef, CheckedM.get_bind_apply] at h
  split at h
  · next hpos =>
    obtain ⟨j, href, rfl⟩ := map_eq_ok h
    obtain ⟨-, hread⟩ := readNat_followsRef n r j r' href
    rw [skipNatsUntil_of_some hpos hread]
    exact skipNatsUntil_of_ge (Nat.le_of_eq hfin.symm)
  · cases h
    exact skipNatsUntil_of_ge (Nat.le_of_eq hfin.symm)

/-! ## Whole entries -/

/-- What stands before `info` in a symbol's entry. -/
def SymbolsKnown (allTags : List UInt8) : Pickling.Entry → Prop
  | .TypeSym info | .AliasSym info | .ClassSym info _ | .ModuleSym info _ | .ValSym info _ =>
    PrivateWithinKnown allTags info
  | _ => True

omit [Build] in
theorem readName_eq_ok {fin : ℕ} {r r' : Pickling.Reader} {s : String}
    (h : readName fin r = .ok (s, r')) :
    (readNameUntil fin r.subset).1 = s ∧ (readNameUntil fin r.subset).2.bytes = r.bytes.bytes := by
  rw [readName, CheckedM.get_bind_apply] at h
  obtain ⟨raw, r₁, hslice, h⟩ := bind_eq_ok h
  rw [sliceOf] at hslice
  split at hslice
  · cases hslice
    cases h
    exact ⟨rfl, rfl⟩
  · cases hslice

theorem readOther_of_read {fin n : ℕ} {allTags : List UInt8} {t : EntryTag}
    (h : isInfoTag t = false) : Projects fin (readOther fin t) (readBody fin allTags n t) := by
  cases hname : t.isName with
  | false => exact readOther_projects h hname
  | true =>
    cases t
    case TERMname | TYPEname =>
      intro r e r' hrun _
      obtain ⟨s, r₁, hread, hrun⟩ := bind_eq_ok hrun
      cases hrun
      obtain ⟨rfl, hbytes⟩ := readName_eq_ok hread
      exact ⟨rfl, hbytes⟩
    all_goals cases hname

/-- The information of a symbol, up to the end of its entry. -/
theorem readSymbolInfo_of_read {fin n : ℕ} {allTags : List UInt8} {f : SymInfo → Option Idx → Pickling.Entry}
    {r r' : Pickling.Reader} {e : Pickling.Entry}
    (h : (do return f (← readSymInfo allTags n) (← readOptRef fin n)) r = .ok (e, r'))
    (hfin : r'.pos = fin) (hknown : ∀ info i, f info i = e → PrivateWithinKnown allTags info) :
    ∃ info i, e = f info i ∧ readSymbolInfo fin allTags r.subset =
      (some (info.name, info.owner, info.flags, info.info), ⟨r.bytes.bytes, fin⟩) := by
  obtain ⟨info, r₁, hinfo, h⟩ := bind_eq_ok h
  obtain ⟨i, r₂, hopt, h⟩ := bind_eq_ok h
  cases h
  obtain ⟨hbytes, hread⟩ := readSymInfo_follows hinfo (hknown info i rfl)
  have hend : r'.subset = ⟨r.bytes.bytes, fin⟩ := by
    rw [Pickling.Reader.subset, hfin, (readOwner_follows hopt).1, hbytes]
  rw [← hend]
  exact ⟨info, i, rfl, hread fin _ (skipNatsUntil_optRef hopt hfin)⟩

theorem readSymbolInfo_of_readAll {fin n : ℕ} {allTags : List UInt8} {f : SymInfo → Pickling.Entry}
    {r r' : Pickling.Reader} {e : Pickling.Entry}
    (h : (do return f (← readSymInfo allTags n)) r = .ok (e, r')) (hfin : r'.pos = fin)
    (hknown : ∀ info, f info = e → PrivateWithinKnown allTags info) :
    ∃ info, e = f info ∧ readSymbolInfo fin allTags r.subset =
      (some (info.name, info.owner, info.flags, info.info), ⟨r.bytes.bytes, fin⟩) := by
  obtain ⟨info, r₁, hinfo, h⟩ := bind_eq_ok h
  cases h
  obtain ⟨hbytes, hread⟩ := readSymInfo_follows hinfo (hknown info rfl)
  have hend : r'.subset = ⟨r.bytes.bytes, fin⟩ := by
    rw [Pickling.Reader.subset, hfin, hbytes]
  rw [← hend]
  exact ⟨info, rfl, hread fin _ (skipNatsUntil_of_ge (Nat.le_of_eq hfin.symm))⟩

theorem readEntryBody_of_read {fin n : ℕ} {allTags : List UInt8} {r r' : Pickling.Reader}
    {e : Pickling.Entry} (h : Pickling.readEntry fin allTags n r = .ok (e, r')) (hfin : r'.pos = fin)
    (hknown : SymbolsKnown allTags e) :
    readEntryBody fin allTags r.tag r.subset = (some e.subset, ⟨r.bytes.bytes, fin⟩) := by
  cases hcode : EntryTag.ofCode r.tag with
  | none =>
    rw [Pickling.readEntry, CheckedM.get_bind_apply, hcode] at h
    cases h
  | some t =>
    rw [readEntry_of_code hcode] at h
    cases ht : isInfoTag t with
    | false =>
      obtain ⟨hentry, hbytes⟩ := readOther_of_read ht r e r' h hfin
      have hother : readEntryBody fin allTags r.tag = (do
          let e ← readOther fin t
          endAt fin
          return e) := by
        rw [readEntryBody, hcode]
        cases t <;> first | rfl | cases ht
      rw [hother, ← hentry, ← hbytes]
      rfl
    | true =>
      rw [readEntryBody, hcode]
      cases t
      case TYPEsym | ALIASsym =>
        obtain ⟨info, rfl, hread⟩ := readSymbolInfo_of_readAll h hfin (by
          rintro info rfl
          exact hknown)
        exact bind_of_some hread
      case CLASSsym | MODULEsym | VALsym =>
        obtain ⟨info, i, rfl, hread⟩ := readSymbolInfo_of_read h hfin (by
          rintro info i rfl
          exact hknown)
        exact bind_of_some hread
      all_goals cases ht

/-! ## The frame -/

/-- The rows of a tag table, each with its tag, its start and its end. -/
inductive Framed (bytes : List UInt8) : ℕ → List (UInt8 × ℕ × ℕ) → ℕ → Prop
  | nil (pos : ℕ) : Framed bytes pos [] pos
  | cons {pos : ℕ} {tag : UInt8} {r : Reader} {len : Idx} {start : ℕ} {rows : List (UInt8 × ℕ × ℕ)}
      {fin : ℕ} (hbyte : readByte ⟨bytes, pos⟩ = (some tag, r))
      (hlen : readNat r = (some len, ⟨bytes, start⟩)) (hfits : start + len.toNat ≤ bytes.length)
      (hrows : Framed bytes (start + len.toNat) rows fin) :
      Framed bytes pos ((tag, start, start + len.toNat) :: rows) fin

variable {bytes : Slice}

omit [Build] in
theorem readTags_of_framed {rows : List (UInt8 × ℕ × ℕ)} {pos fin : ℕ}
    (h : Framed bytes.bytes pos rows fin) : ∀ tags, readTags rows.length tags ⟨bytes.bytes, pos⟩ =
      (some (tags ++ rows.map (·.1)), ⟨bytes.bytes, fin⟩) := by
  induction h with
  | nil pos =>
    intro tags
    rw [List.map_nil, List.append_nil]
    rfl
  | @cons pos tag r len start rows fin hbyte hlen hfits hrows ih =>
    intro tags
    have hmax := bytes.length_lt
    have htag : readTag ⟨bytes.bytes, pos⟩ = (some tag, ⟨bytes.bytes, start + len.toNat⟩) := by
      rw [readTag, bind_of_some hbyte, bind_of_some hlen, get_bind,
        guard_bind_of (show start + len.toNat < 2 ^ 64 by omega), guard_bind_of hfits]
      rfl
    rw [List.length_cons, readTags, bind_of_some htag, ih, List.map_cons, List.append_assoc]
    rfl

omit [Build] in
/-- The entries in the rows of the table, where each is read up to its end. -/
theorem readEntries_of_framed {rows : List (UInt8 × ℕ × ℕ)} {pos fin : ℕ} {allTags : List UInt8}
    (h : Framed bytes.bytes pos rows fin) : ∀ (es entries : List Entry),
      List.Forall₂ (fun row e => readEntryBody row.2.2 allTags row.1 ⟨bytes.bytes, row.2.1⟩ =
        (some e, ⟨bytes.bytes, row.2.2⟩)) rows es →
      readEntries allTags rows.length entries ⟨bytes.bytes, pos⟩ =
        (some (entries ++ es), ⟨bytes.bytes, fin⟩) := by
  induction h with
  | nil pos =>
    intro es entries hes
    cases hes
    rw [List.append_nil]
    rfl
  | @cons pos tag r len start rows fin hbyte hlen hfits hrows ih =>
    intro es entries hes
    cases hes with
    | @cons _ e _ es he hes =>
      have hmax := bytes.length_lt
      have hremaining : (⟨bytes.bytes, pos⟩ : Reader).remaining = true :=
        decide_eq_true (readByte_eq_some hbyte).1
      have hmin : min (min (start + len.toNat) (2 ^ 64 - 1)) bytes.bytes.length = start + len.toNat := by
        omega
      have hentry : readEntry allTags ⟨bytes.bytes, pos⟩ =
          (some e, ⟨bytes.bytes, start + len.toNat⟩) := by
        rw [readEntry, get_bind, guard_bind_of hremaining, bind_of_some hbyte, bind_of_some hlen,
          get_bind]
        change readEntryBody (min (min (start + len.toNat) (2 ^ 64 - 1)) bytes.bytes.length) _ _ _ = _
        rw [hmin]
        exact he
      rw [List.length_cons, readEntries, bind_of_some hentry, ih es _ hes, List.append_assoc]
      rfl

/-- The rows of the table that the pickle reader builds. -/
theorem framed_of_readTable {k : ℕ} : ∀ {i : ℕ} {table table' : Table} {r r' : Pickling.Reader},
    r.bytes = bytes → forRange readTableEntry i k table r = .ok (table', r') →
      ∃ rows, rows.length = k ∧ Framed bytes.bytes r.pos rows r'.pos ∧
        table'.entryTags = table.entryTags ++ rows.map (·.1) ∧
        table'.offsets = table.offsets ++ rows.map (·.2.1) ∧
        table'.ends = table.ends ++ rows.map (·.2.2) := by
  induction k with
  | zero =>
    intro i table table' r r' _ h
    cases h
    exact ⟨[], rfl, .nil _, by simp, by simp, by simp⟩
  | succ k ih =>
    intro i table table' r r' hr h
    rw [forRange] at h
    obtain ⟨table₁, s, hentry, h⟩ := bind_eq_ok h
    obtain ⟨tag, len, r₁, r₂, hbyte, hnat, hfits, rfl, rfl⟩ := readTableEntry_eq_ok hentry
    obtain ⟨len', hnat', rfl⟩ := map_eq_ok hnat
    obtain ⟨hbytes₁, hbyte'⟩ := readByte_follows _ tag r₁ hbyte
    obtain ⟨hbytes₂, hlen⟩ := readNat_follows _ len' r₂ hnat'
    have hr₂ : r₂.bytes = bytes := by rw [hbytes₂, hbytes₁, hr]
    obtain ⟨rows, hlength, hframed, htags, hoffsets, hends⟩ :=
      ih (r := { r₂ with pos := r₂.pos + len'.toNat }) hr₂ h
    refine ⟨(tag, r₂.pos, r₂.pos + len'.toNat) :: rows, by rw [List.length_cons, hlength], ?_, ?_, ?_, ?_⟩
    · have hstart : r₂.subset = ⟨bytes.bytes, r₂.pos⟩ := by rw [Pickling.Reader.subset, hr₂]
      have hpos : Pickling.Reader.subset { r with entry := i, tag := 0 } = ⟨bytes.bytes, r.pos⟩ := by
        rw [Pickling.Reader.subset, hr]
      rw [hstart] at hlen
      rw [hpos] at hbyte'
      rw [hr₂] at hfits
      exact .cons hbyte' hlen hfits hframed
    · rw [htags]
      simp [Table.push]
    · rw [hoffsets]
      simp [Table.push]
    · rw [hends]
      simp [Table.push]

/-! ## The whole pickle -/

theorem forall₂_of_entries {table : Table} {entries : List Pickling.Entry} {r r' : Pickling.Reader}
    {rows : List (UInt8 × ℕ × ℕ)} (hfits : table.Fits bytes rows.length)
    (htags : table.entryTags = rows.map (·.1)) (hoffsets : table.offsets = rows.map (·.2.1))
    (hends : table.ends = rows.map (·.2.2)) (hr : r.bytes = bytes)
    (h : Pickling.readEntries table rows.length r = .ok (entries, r'))
    (hknown : ∀ e ∈ entries, SymbolsKnown table.entryTags e) :
    List.Forall₂ (fun row e => readEntryBody row.2.2 table.entryTags row.1 ⟨bytes.bytes, row.2.1⟩ =
      (some e, ⟨bytes.bytes, row.2.2⟩)) rows (entries.map Pickling.Entry.subset) := by
  obtain ⟨-, hlen, hentries⟩ := readEntries_spec hfits hr rows.length (Nat.le_refl _) entries r' h
  rw [List.forall₂_iff_get]
  refine ⟨by rw [List.length_map, hlen], fun j hj hj' => ?_⟩
  obtain ⟨row, fin, e, s, hrow, hread, hfin, he⟩ := hentries j hj
  have hmem : e ∈ entries := List.mem_of_getElem? he
  have htag : rows[j].1 = row.tag := by
    have h := hrow.tag
    rw [htags, List.getElem?_map, List.getElem?_eq_getElem hj] at h
    exact Option.some.inj h
  have hstart : rows[j].2.1 = row.pos := by
    have h := hrow.offset
    rw [hoffsets, List.getElem?_map, List.getElem?_eq_getElem hj] at h
    exact Option.some.inj h
  have hend : rows[j].2.2 = fin := by
    have h := hrow.fin
    rw [hends, List.getElem?_map, List.getElem?_eq_getElem hj] at h
    exact Option.some.inj h
  have hentry : (entries.map Pickling.Entry.subset)[j] = e.subset := by
    rw [List.getElem_map]
    exact congrArg _ (Option.some.inj ((List.getElem?_eq_getElem _).symm.trans he))
  have hbody := readEntryBody_of_read hread hfin (hknown e hmem)
  rw [Pickling.Reader.subset, hrow.bytes] at hbody
  simp only [List.get_eq_getElem, hentry, htag, hstart, hend]
  exact hbody

theorem readHeader_eq_ok {header : Header} {r : Pickling.Reader}
    (h : readHeader (Pickling.Reader.new bytes) = .ok (header, r)) : header.major = MAJOR ∧
      r.bytes = bytes ∧ ∃ a b count, readNat ⟨bytes.bytes, 0⟩ = (some MAJOR, a) ∧
        readNat a = (some header.minor, b) ∧ readNat b = (some count, r.subset) ∧
        header.nentries = count.toNat := by
  rw [readHeader] at h
  obtain ⟨major, r₁, hmajor, h⟩ := bind_eq_ok h
  obtain ⟨minor, r₂, hminor, h⟩ := bind_eq_ok h
  obtain ⟨hbytes₁, hmajor⟩ := readNat_follows _ major r₁ hmajor
  obtain ⟨hbytes₂, hminor⟩ := readNat_follows _ minor r₂ hminor
  split at h
  · cases h
  · next hversion =>
    obtain ⟨n, r₃, hcount, h⟩ := bind_eq_ok h
    cases h
    obtain ⟨count, hnat, rfl⟩ := map_eq_ok hcount
    obtain ⟨hbytes₃, hcount'⟩ := readNat_follows _ count r hnat
    obtain rfl : major = MAJOR := Decidable.not_not.mp hversion
    exact ⟨rfl, by rw [hbytes₃, hbytes₂, hbytes₁]; rfl, _, _, count, hmajor, hminor, hcount', rfl⟩

theorem readPickle_eq_ok {pickle : Pickle} (h : readPickle bytes = .ok pickle) :
    ∃ header table r r' r'', readHeader (Pickling.Reader.new bytes) = .ok (header, r) ∧
      readTable header.nentries r = .ok (table, r') ∧
      Pickling.readEntries table header.nentries r' = .ok (pickle.entries, r'') ∧
      pickle.entryTags = table.entryTags := by
  have hrun : ∀ {result : Except (Stop ReadError) (Pickle × Pickling.Reader)},
      Prod.fst <$> result = .ok pickle → ∃ r, result = .ok (pickle, r) := by
    intro result h
    cases result with
    | error e => cases h
    | ok p =>
      cases h
      exact ⟨p.2, rfl⟩
  obtain ⟨s, h⟩ := hrun h
  obtain ⟨header, r, hheader, h⟩ := bind_eq_ok h
  obtain ⟨table, r', htable, h⟩ := bind_eq_ok h
  obtain ⟨entries, r'', hentries, h⟩ := bind_eq_ok h
  cases h
  exact ⟨header, table, r, r', s, hheader, htable, hentries, rfl⟩

/-- What the pickle reader accepts, the subset unpickler parses to the same
entries, as far as it keeps them. -/
theorem unpickleEntries_of_readPickle {pickle : Pickle} (h : readPickle bytes = .ok pickle)
    (hcount : pickle.entries.length ≤ 100000)
    (hknown : ∀ e ∈ pickle.entries, SymbolsKnown pickle.entryTags e) :
    unpickleEntries bytes.bytes = some (pickle.entries.map Pickling.Entry.subset) := by
  obtain ⟨header, table, r, r', r'', hheader, htable, hentries, htags⟩ := readPickle_eq_ok h
  obtain ⟨-, hr, a, b, count, hmajor, hminor, hnentries, hn⟩ := readHeader_eq_ok hheader
  obtain ⟨rows, hlength, hframed, hrowTags, hoffsets, hends⟩ := framed_of_readTable hr htable
  rw [← hlength] at htable hentries
  have htables : readTables (Pickling.Reader.new bytes) = .ok ((header, table), r') := by
    rw [readTables, bind_of_ok hheader, ← hlength, bind_of_ok htable]
    rfl
  obtain ⟨hr', hfits⟩ := (readTables_spec bytes).2 header table r' htables
  rw [← hlength] at hfits
  rw [htags] at hknown
  have hrows := forall₂_of_entries hfits hrowTags hoffsets hends hr' hentries hknown
  have hle : rows.length ≤ 100000 := by
    have heq := hrows.length_eq
    rw [List.length_map] at heq
    omega
  have hsubset : r.subset = ⟨bytes.bytes, r.pos⟩ := by rw [Pickling.Reader.subset, hr]
  have hnat : (UInt32.toNat <$> readNat : Read ℕ) b = (some rows.length, ⟨bytes.bytes, r.pos⟩) := by
    rw [map_apply, hnentries, hsubset, hlength, hn]
    rfl
  have hnonempty : bytes.bytes.isEmpty = false := by
    have hleft := readNat_left hmajor
    cases hbytes : bytes.bytes with
    | nil =>
      rw [hbytes] at hleft
      exact absurd hleft (Nat.not_lt_zero _)
    | cons b bs => rfl
  rw [unpickleEntries, hnonempty]
  simp only [Bool.false_eq_true, if_false]
  rw [bind_of_some hmajor, bind_of_some hminor, guard_bind_of rfl, bind_of_some hnat,
    guard_bind_of hle, get_bind, bind_of_some (readTags_of_framed hframed [])]
  change (readEntries ([] ++ rows.map (·.1)) rows.length [] ⟨bytes.bytes, r.pos⟩).1 = _
  rw [hrowTags] at hrows
  rw [readEntries_of_framed hframed _ [] hrows]
  rfl

/-- The number of entries is the same, and each entry is the projection of the
pickle reader's entry at its index. -/
theorem subsetUnpickler_agrees {pickle : Pickle} (h : readPickle bytes = .ok pickle)
    (hcount : pickle.entries.length ≤ 100000)
    (hknown : ∀ e ∈ pickle.entries, SymbolsKnown pickle.entryTags e) :
    ∃ entries, unpickleEntries bytes.bytes = some entries ∧
      entries.length = pickle.entries.length ∧
      ∀ (i : ℕ) (e : Pickling.Entry), pickle.entries[i]? = some e → entries[i]? = some e.subset := by
  refine ⟨_, unpickleEntries_of_readPickle h hcount hknown, List.length_map _, fun i e he => ?_⟩
  rw [List.getElem?_map, he]
  rfl

omit [Build] in
theorem eq_ok_of_toOption {ε α : Type} {x : Except ε α} {a : α} (h : x.toOption = some a) :
    x = .ok a := by
  cases x with
  | error e => cases h
  | ok b =>
    cases h
    rfl

/-- `private[C] class C`, a method type and a polymorphic type. -/
def samplePickle : Slice :=
  ⟨[5, 2, 6, 2, 1, 67, 3, 0, 11, 0, 6, 5, 0, 1, 4, 3, 2, 20, 3, 2, 3, 3, 21, 2, 4, 3], by decide⟩

omit [Build] in
theorem subsetUnpickler_agrees_sample : ∃ entries, unpickleEntries samplePickle.bytes = some entries ∧
    entries.length = 6 ∧ entries[3]? = some (.ClassSym 0 1 2 4) ∧
    entries[4]? = some (.MethodTpe 2 [3, 3]) ∧ entries[5]? = some (.PolyTpe [3] 4) := by
  have hread : @readPickle debugBuild samplePickle = .ok ⟨5, 2, [.TypeName "C", .NoneSym, .NoTpe,
      .ClassSym ⟨0, 1, 4, some 3, 2⟩ none, .MethodTpe 2 [3, 3], .PolyTpe 4 [3]],
      [2, 3, 11, 6, 20, 21], [none, none, none, none, none, none]⟩ :=
    eq_ok_of_toOption (by decide +kernel)
  have hclass : PrivateWithinKnown [2, 3, 11, 6, 20, 21] ⟨0, 1, 4, some 3, 2⟩ := by
    intro p hp
    cases hp
    rfl
  obtain ⟨entries, hentries, hlength, hentry⟩ := @subsetUnpickler_agrees debugBuild _ _ hread
    (by decide) (by
      simp only [List.forall_mem_cons]
      exact ⟨trivial, trivial, trivial, hclass, trivial, trivial, by simp⟩)
  exact ⟨entries, hentries, hlength, hentry 3 _ rfl, hentry 4 _ rfl, hentry 5 _ rfl⟩

/-- The type of a method with implicit parameters. -/
def implicitMethodPickle : Slice := ⟨[5, 2, 2, 11, 0, 22, 2, 0, 0], by decide⟩

omit [Build] in
theorem implicitMethod_not_parsed : ¬ ∀ (bytes : Slice) (pickle : Pickle),
    @readPickle debugBuild bytes = .ok pickle → pickle.entries.length ≤ 100000 →
    (∀ e ∈ pickle.entries, SymbolsKnown pickle.entryTags e) →
      ∃ entries, unpickleEntries bytes.bytes = some entries ∧
        ∀ (i : ℕ) (result : Idx) (params : List Idx),
          pickle.entries[i]? = some (.ImplicitMethodTpe result params) →
          entries[i]? = some (.MethodTpe result params) := by
  intro hall
  have hread : @readPickle debugBuild implicitMethodPickle =
      .ok ⟨5, 2, [.NoTpe, .ImplicitMethodTpe 0 [0]], [11, 22], [none, none]⟩ :=
    eq_ok_of_toOption (by decide +kernel)
  have hknown : ∀ e ∈ [Pickling.Entry.NoTpe, .ImplicitMethodTpe 0 [0]], SymbolsKnown [11, 22] e := by
    simp only [List.forall_mem_cons]
    exact ⟨trivial, trivial, by simp⟩
  obtain ⟨entries, hentries, hmethod⟩ := hall _ _ hread (by decide) hknown
  have hsubset := @unpickleEntries_of_readPickle debugBuild _ _ hread (by decide) hknown
  rw [hentries] at hsubset
  cases hsubset
  have hother := hmethod 1 0 [0] rfl
  cases hother

end Subset
end ScalaRs.Pickling
