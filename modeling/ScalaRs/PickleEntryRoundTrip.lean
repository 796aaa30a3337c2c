import ScalaRs.PickleReferenceReads

/-! # Reading back the body of an entry

Every kind of entry is told apart by its tag, and its body is read back up to
its end. -/
namespace ScalaRs.Pickling
open CheckedReaders CheckedReaders.CheckedM

variable [Build] {α : Type} {n : ℕ} {tags : List UInt8}

/-! ## Trees -/

theorem reads_natUsize {xs : List α} (h : xs.length < 2 ^ 32) :
    Reads natUsize (countBytes xs) xs.length := by
  have hread := (reads_nat (UInt32.ofNat xs.length)).map UInt32.toNat
  rw [UInt32.toNat_ofNat_of_lt' h] at hread
  exact hread

theorem ReadsTo.counted {is : List Idx} {f : ℕ → List Idx → Read α} {enc : List UInt8} {a : α}
    (h : ∀ i ∈ is, i.toNat < n) (hf : ReadsTo (fun fin => f fin is) enc a) :
    ReadsTo (fun fin => readRefs is.length n >>= f fin) (refsBytes is ++ enc) a :=
  ReadsTo.bind (reads_readRefs h) hf

omit [Build] in
theorem length_le_flatMap {ι : Type} {enc : ι → List UInt8} {xs : List ι}
    (h : ∀ x ∈ xs, enc x ≠ []) : xs.length ≤ (xs.flatMap enc).length := by
  induction xs with
  | nil => exact Nat.le_refl 0
  | cons x xs ih =>
    have hx := List.length_pos_iff.mpr (h x List.mem_cons_self)
    have hxs := ih fun y hy => h y (List.mem_cons_of_mem x hy)
    rw [List.flatMap_cons, List.length_append, List.length_cons]
    omega

omit [Build] in
theorem length_le_refsBytes (is : List Idx) : is.length ≤ (refsBytes is).length :=
  length_le_flatMap fun i _ => refBytes_ne_nil i

omit [Build] in
theorem countBytes_ne_nil (xs : List α) : countBytes xs ≠ [] := refBytes_ne_nil _

omit [Build] in
theorem length_le_flatMap_of_mem {ι : Type} {enc : ι → List UInt8} {xs : List ι} {x : ι}
    (h : x ∈ xs) : (enc x).length ≤ (xs.flatMap enc).length := by
  obtain ⟨before, after, rfl⟩ := List.append_of_mem h
  simp only [List.flatMap_append, List.flatMap_cons, List.length_append]
  omega

/-- A list of parameters, as it is written. -/
def paramsBytes (ps : List Idx) : List UInt8 := countBytes ps ++ refsBytes ps

theorem reads_params {ps : List Idx} (hrefs : ∀ i ∈ ps, i.toNat < n) (hlen : ps.length < 2 ^ 32)
    (vparamss : List (List Idx)) :
    Reads (do
      let np ← natUsize
      return vparamss ++ [← readRefs np n]) (paramsBytes ps) (vparamss ++ [ps]) := by
  apply Reads.bind (reads_natUsize hlen)
  exact (reads_readRefs hrefs).map fun ps => vparamss ++ [ps]

theorem reads_paramss {pss : List (List Idx)} (hrefs : ∀ ps ∈ pss, ∀ i ∈ ps, i.toNat < n)
    (hlen : ∀ ps ∈ pss, ps.length < 2 ^ 32) :
    Reads (forRange (fun _ vparamss => do
      let np ← natUsize
      return vparamss ++ [← readRefs np n]) 0 pss.length []) (pss.flatMap paramsBytes) pss := by
  have hloop := reads_forRange pss 0 [] fun ps hps (_ : ℕ) => reads_params (hrefs ps hps) (hlen ps hps)
  rw [foldl_push] at hloop
  exact hloop

def ImportSelector.bytes (s : ImportSelector) : List UInt8 := refsBytes [s.fromRef, s.toRef]

theorem readsTo_selectors {selectors : List ImportSelector}
    (hrefs : ∀ s ∈ selectors, s.fromRef.toNat < n ∧ s.toRef.toNat < n) :
    ReadsTo (fun fin => readUntil fin (fun selectors => do
      return selectors ++ [⟨← readRef n, ← readRef n⟩]) []) (selectors.flatMap ImportSelector.bytes)
      selectors := by
  have hne : ∀ s ∈ selectors, s.bytes ≠ [] := by
    simp [ImportSelector.bytes, refsBytes_cons, refBytes_ne_nil]
  have hselector : ∀ s ∈ selectors, ∀ acc : List ImportSelector,
      Reads (do return acc ++ [⟨← readRef n, ← readRef n⟩]) s.bytes (acc ++ [s]) := by
    intro s hs acc
    simp only [ImportSelector.bytes, refsBytes_cons, refsBytes_nil, List.append_nil]
    apply Reads.ref (hrefs s hs).1
    exact Reads.lastRef (hrefs s hs).2
  have hloop := readsTo_readUntil selectors [] hne hselector
  rw [foldl_push] at hloop
  exact hloop

theorem readsTo_defDef {sym mods name : Idx} {tparams : List Idx} {vparamss : List (List Idx)}
    {tpt rhs : Idx} (hrefs : ∀ i ∈ (Tree.DefDef sym mods name tparams vparamss tpt rhs).refs, i.toNat < n)
    (hlen : (Tree.DefDef sym mods name tparams vparamss tpt rhs).body.length < 2 ^ 32) :
    ReadsTo (fun fin => readTree fin n .DEFDEFtree)
      (Tree.DefDef sym mods name tparams vparamss tpt rhs).body
      (Tree.DefDef sym mods name tparams vparamss tpt rhs) := by
  simp only [Tree.refs, List.forall_mem_append, List.forall_mem_cons, List.forall_mem_flatten] at hrefs
  obtain ⟨⟨⟨⟨hsym, hmods, hname, -⟩, htparams⟩, hvparamss⟩, htpt, hrhs, -⟩ := hrefs
  have htps := length_le_refsBytes tparams
  have hne : ∀ ps ∈ vparamss, paramsBytes ps ≠ [] := by simp [paramsBytes, countBytes_ne_nil]
  have hvpss := length_le_flatMap hne
  have hvps : ∀ ps ∈ vparamss, ps.length ≤ (vparamss.flatMap paramsBytes).length := by
    intro ps hps
    calc ps.length ≤ (paramsBytes ps).length := by
          rw [paramsBytes, List.length_append]
          exact Nat.le_add_left_of_le (length_le_refsBytes ps)
      _ ≤ (vparamss.flatMap paramsBytes).length := length_le_flatMap_of_mem hps
  have hbody : (Tree.DefDef sym mods name tparams vparamss tpt rhs).body = refBytes sym ++
      (refBytes mods ++ (refBytes name ++ (countBytes tparams ++ (refsBytes tparams ++
        (countBytes vparamss ++ (vparamss.flatMap paramsBytes ++ (refBytes tpt ++ refBytes rhs))))))) := by
    simp only [Tree.body, refsBytes_cons, refsBytes_nil, List.append_assoc, List.append_nil]
    rfl
  rw [hbody] at hlen ⊢
  simp only [List.length_append] at hlen
  apply ReadsTo.ref hsym
  apply ReadsTo.ref hmods
  apply ReadsTo.ref hname
  apply ReadsTo.bind (reads_natUsize (by omega))
  apply ReadsTo.bind (reads_readRefs htparams)
  apply ReadsTo.bind (reads_natUsize (by omega))
  apply ReadsTo.bind (reads_paramss hvparamss fun ps hps => Nat.lt_of_le_of_lt (hvps ps hps) (by omega))
  apply ReadsTo.ref htpt
  exact (Reads.lastRef hrhs).to

theorem readsTo_readTree (t : Tree) (hrefs : ∀ i ∈ t.refs, i.toNat < n)
    (hlen : t.body.length < 2 ^ 32) : ReadsTo (fun fin => readTree fin n t.tag) t.body t := by
  cases t
  case DefDef sym mods name tparams vparamss tpt rhs => exact readsTo_defDef hrefs hlen
  case Import sym expr selectors =>
    simp only [Tree.refs, List.forall_mem_append, List.forall_mem_cons, List.forall_mem_flatMap] at hrefs
    obtain ⟨⟨hsym, hexpr, -⟩, hselectors⟩ := hrefs
    simp only [Tree.body, refsBytes_cons, refsBytes_nil, List.append_assoc, List.nil_append]
    apply ReadsTo.ref hsym
    apply ReadsTo.ref hexpr
    exact (readsTo_selectors fun s hs => by simpa using hselectors s hs).map _
  case Template sym parents self body =>
    simp only [Tree.refs, List.forall_mem_append, List.forall_mem_cons] at hrefs
    obtain ⟨⟨hsym, hparents⟩, hself, hbody⟩ := hrefs
    have hcount := length_le_refsBytes parents
    simp only [Tree.body, List.append_assoc] at hlen ⊢
    simp only [List.length_append] at hlen
    apply ReadsTo.ref hsym
    apply ReadsTo.bind (reads_natUsize (by omega))
    apply ReadsTo.bind (reads_readRefs hparents)
    apply ReadsTo.ref hself
    exact ReadsTo.lastRefs hbody
  all_goals
    simp only [Tree.refs, List.forall_mem_append, List.forall_mem_cons] at hrefs
    simp only [Tree.body, Tree.tag, readTree, refsBytes_cons, refsBytes_nil, List.append_assoc,
      List.append_nil]
    repeat apply ReadsTo.ref (by grind)
    first
    | exact ReadsTo.lastRefs (by grind)
    | exact (Reads.lastRef (by grind)).to
    | exact (Reads.pure _).to

theorem readsTo_readTreeEntry {tpe : Option Idx} {t : Tree} (htpe : tpe = none ↔ t = .Empty)
    (hrefs : ∀ i ∈ (Entry.Tree tpe t).refs, i.toNat < n)
    (hlen : (Entry.Tree tpe t).body.length < 2 ^ 32) :
    ReadsTo (fun fin => readTreeEntry fin n) (Entry.Tree tpe t).body (.Tree tpe t) := by
  have htag : writeNatTo [] t.tag.code.toUInt32 = [t.tag.code] := by
    cases t.tag <;> decide
  have hempty : t.tag.code = TreeTag.EMPTYtree.code ↔ tpe = none := by
    rw [htpe]
    cases t <;> simp [Tree.tag, TreeTag.code]
  have hof : ∀ fin, readTreeOf fin n t.tag.code = readTree fin n t.tag := by
    intro fin
    rw [readTreeOf, TreeTag.ofCode_code]
  simp only [Entry.refs, List.forall_mem_append] at hrefs
  simp only [Entry.body, List.append_assoc, htag] at hlen ⊢
  simp only [List.length_append] at hlen
  have htype : Reads (readTreeType n t.tag.code) (optRefBytes tpe) tpe := by
    cases tpe with
    | none =>
      rw [readTreeType, if_pos (hempty.mpr rfl)]
      exact Reads.pure _
    | some i =>
      have hbytes : optRefBytes (some i) = refBytes i := List.append_nil _
      rw [readTreeType, if_neg (by simp [hempty]), hbytes]
      exact (reads_readRef (hrefs.1 i (by simp))).map some
  apply ReadsTo.bind (reads_byte t.tag.code)
  apply ReadsTo.bind htype
  simp only [hof]
  exact (readsTo_readTree t hrefs.2 (by omega)).map _

/-! ## Constants -/

theorem readsTo_number {x : ℤ} {f : BitVec 64 → α} {a : α} (hlow : -2 ^ 63 ≤ x) (hhigh : x < 2 ^ 63)
    (h : f (BitVec.ofInt 64 x) = a) :
    ReadsTo (fun fin => readLong fin >>= fun x => pure (f x)) (writeLongSigned256 [] x) a := by
  rw [← h]
  exact (readsTo_readLong hlow hhigh).map f

omit [Build] in
theorem setWidth_ofInt {w : ℕ} (hw : w ≤ 64) (x : ℤ) :
    (BitVec.ofInt 64 x).setWidth w = BitVec.ofInt w x := by
  have hdvd : ((2 ^ w : ℕ) : ℤ) ∣ ((2 ^ 64 : ℕ) : ℤ) :=
    Int.natCast_dvd_natCast.mpr (Nat.pow_dvd_pow 2 hw)
  have hmod : ∀ v : ℕ, (((BitVec.ofInt v x).toNat : ℕ) : ℤ) = x % ((2 ^ v : ℕ) : ℤ) := by
    intro v
    have hpos := Nat.two_pow_pos v
    rw [BitVec.toNat_ofInt]
    exact Int.toNat_of_nonneg (Int.emod_nonneg _ (by omega))
  apply BitVec.eq_of_toNat_eq
  apply Int.ofNat_inj.mp
  rw [BitVec.toNat_setWidth, Int.natCast_emod, hmod, hmod, Int.emod_emod_of_dvd x hdvd]

omit [Build] in
theorem toInt_bounds {w : ℕ} (hw : w ≤ 64) (x : BitVec w) :
    -2 ^ 63 ≤ x.toInt ∧ x.toInt < 2 ^ 63 := by
  have hlow := BitVec.le_two_mul_toInt (x := x)
  have hhigh := BitVec.two_mul_toInt_lt (x := x)
  have hpow : (2 : ℤ) ^ w ≤ 2 ^ 64 := by
    exact_mod_cast Nat.pow_le_pow_right (show 0 < 2 by decide) hw
  omega

/-- A narrower integer is sign-extended when it is written, and cut off when read. -/
theorem readsTo_narrow {w : ℕ} (hw : w ≤ 64) (x : BitVec w) (f : BitVec w → α) :
    ReadsTo (fun fin => readLong fin >>= fun y => pure (f (y.setWidth w)))
      (writeLongSigned256 [] x.toInt) (f x) := by
  have hbounds := toInt_bounds hw x
  apply readsTo_number (f := fun y : BitVec 64 => f (y.setWidth w)) hbounds.1 hbounds.2
  rw [setWidth_ofInt hw, BitVec.ofInt_toInt]

/-- As `readsTo_narrow`, for a number that is written without a sign. -/
theorem readsTo_narrow_toNat {w : ℕ} (hw : w < 64) (x : BitVec w) (f : BitVec w → α) :
    ReadsTo (fun fin => readLong fin >>= fun y => pure (f (y.setWidth w)))
      (writeLongSigned256 [] x.toNat) (f x) := by
  have hx := x.isLt
  have hpow : 2 ^ w ≤ 2 ^ 63 := Nat.pow_le_pow_right (by decide) (by omega)
  apply readsTo_number (f := fun y : BitVec 64 => f (y.setWidth w)) (by omega) (by omega)
  rw [setWidth_ofInt (by omega), BitVec.ofInt_natCast, BitVec.ofNat_toNat, BitVec.setWidth_eq]

omit [Build] in
theorem and_char {c : BitVec 32} (h : c.toNat ≤ 0xffff) : c &&& 0xffff = c := by
  apply BitVec.eq_of_toNat_eq
  rw [BitVec.toNat_and]
  change c.toNat &&& 2 ^ 16 - 1 = c.toNat
  rw [Nat.and_two_pow_sub_one_eq_mod]
  omega

theorem readsTo_literal (c : Constant) (hrefs : ∀ i ∈ (Entry.Literal c).refs, i.toNat < n)
    (hwf : (Entry.Literal c).WellFormed tags) :
    ReadsTo (fun fin => readBody fin tags n c.tag) c.body (.Literal c) := by
  cases c
  case Boolean b =>
    apply readsTo_number (f := fun x => Entry.Literal (.Boolean (x != 0)))
    all_goals cases b <;> decide
  case Byte x => exact readsTo_narrow (by decide) x fun y => Entry.Literal (.Byte y)
  case Short x => exact readsTo_narrow (by decide) x fun y => Entry.Literal (.Short y)
  case Char x =>
    have hread := readsTo_narrow_toNat (by decide) x fun y => Entry.Literal (.Char (y &&& 0xffff))
    rw [and_char hwf] at hread
    exact hread
  case Int x => exact readsTo_narrow (by decide) x fun y => Entry.Literal (.Int y)
  case Float x => exact readsTo_narrow_toNat (by decide) x fun y => Entry.Literal (.Float y)
  case Long x | Double x =>
    have hbounds := toInt_bounds (Nat.le_refl 64) x
    exact readsTo_number hbounds.1 hbounds.2 (by rw [BitVec.ofInt_toInt])
  case Unit | Null => exact (Reads.pure _).to
  case Str i | Class i | Enum i | Symbol i => exact (Reads.lastRef (hrefs i List.mem_cons_self)).to

/-! ## Entries -/

omit [Build] in
theorem or_halves (x : UInt64) :
    ((x >>> 32).toUInt32.toUInt64 <<< 32) ||| x.toUInt32.toUInt64 = x := by
  have hlt := x.toNat_lt
  have hhigh : ((x >>> 32).toUInt32.toUInt64 <<< 32).toNat = 2 ^ 32 * (x.toNat / 2 ^ 32) := by
    rw [UInt64.toNat_shiftLeft, UInt32.toNat_toUInt64, UInt64.toNat_toUInt32,
      UInt64.toNat_shiftRight, Nat.shiftLeft_eq, Nat.shiftRight_eq_div_pow]
    change x.toNat / 2 ^ 32 % 2 ^ 32 * 2 ^ 32 % 2 ^ 64 = _
    omega
  have hlow : x.toUInt32.toUInt64.toNat = x.toNat % 2 ^ 32 := by
    rw [UInt32.toNat_toUInt64, UInt64.toNat_toUInt32]
  apply UInt64.toNat_inj.mp
  rw [UInt64.toNat_or, hhigh, hlow, ← Nat.two_pow_add_eq_or_of_lt (Nat.mod_lt _ (by decide))]
  omega

theorem readsTo_readBody (e : Entry) (hname : e.tag.isName = false)
    (hrefs : ∀ i ∈ e.refs, i.toNat < n) (hwf : e.WellFormed tags) (hlen : e.body.length < 2 ^ 32) :
    ReadsTo (fun fin => readBody fin tags n e.tag) e.body e := by
  cases e
  case TermName s | TypeName s => cases hname
  case TypeSym info | AliasSym info => exact ((reads_readSymInfo hrefs hwf).map _).to
  case ClassSym info i | ModuleSym info i | ValSym info i =>
    simp only [Entry.refs, List.forall_mem_append] at hrefs
    apply ReadsTo.bind (reads_readSymInfo hrefs.1 hwf)
    exact ReadsTo.lastOptRef (by simpa using hrefs.2)
  case ExtRef name owner | ExtModClassRef name owner =>
    simp only [Entry.refs, List.forall_mem_cons] at hrefs
    apply ReadsTo.ref hrefs.1
    exact ReadsTo.lastOptRef (by simpa using hrefs.2)
  case DeBruijnIndexTpe level index =>
    apply ReadsTo.bind (reads_nat level)
    exact ((reads_nat index).map _).to
  case Literal c => exact readsTo_literal c hrefs hwf
  case SymAnnot sym annot =>
    simp only [Entry.refs, List.forall_mem_cons] at hrefs
    apply ReadsTo.ref hrefs.1
    exact (readsTo_readAnnotInfo hrefs.2 hwf).map _
  case AnnotInfo annot => exact (readsTo_readAnnotInfo hrefs hwf).map _
  case Tree tpe t => exact readsTo_readTreeEntry hwf hrefs hlen
  case Modifiers flags privateWithin =>
    simp only [Entry.body, List.append_assoc]
    apply ReadsTo.bind ((reads_nat (flags >>> 32).toUInt32).map UInt32.toUInt64)
    apply ReadsTo.bind ((reads_nat flags.toUInt32).map UInt32.toUInt64)
    rw [or_halves]
    exact (Reads.lastRef (hrefs _ List.mem_cons_self)).to
  all_goals
    simp only [Entry.refs, List.forall_mem_append, List.forall_mem_cons] at hrefs
    simp only [Entry.body, Entry.tag, readBody, refsBytes_cons, refsBytes_nil, List.append_assoc,
      List.append_nil]
    repeat apply ReadsTo.ref (by grind)
    first
    | exact ReadsTo.lastRefs (by grind)
    | exact (Reads.lastRef (by grind)).to
    | exact (Reads.pure _).to

omit [Build] in
theorem readName_of_rest {r : Reader} (hr : r.Within) {s : String} {rest : List UInt8}
    (h : r.rest = Utf8Lossy.utf8Bytes s ++ rest) :
    readName (r.pos + (Utf8Lossy.utf8Bytes s).length) r =
      .ok (s, r.skip (Utf8Lossy.utf8Bytes s).length) := by
  have hdrop : r.bytes.bytes.drop r.pos = Utf8Lossy.utf8Bytes s ++ rest := h
  have hlen : r.bytes.length - r.pos = (Utf8Lossy.utf8Bytes s).length + rest.length := by
    rw [← List.length_append, ← hdrop, List.length_drop]
    rfl
  have hslice : sliceOf r.bytes r.pos (r.pos + (Utf8Lossy.utf8Bytes s).length) =
      (pure (Utf8Lossy.utf8Bytes s) : Read (List UInt8)) := by
    have hpos : r.pos ≤ r.bytes.length := hr
    rw [sliceOf, List.drop_take, hdrop, Nat.add_sub_cancel_left, List.take_left, if_pos]
    omega
  rw [readName, get_bind_apply, hslice, pure_bind_apply, set_bind_apply,
    Utf8Lossy.fromUtf8Lossy_utf8Bytes]
  rfl

variable (tags) in
/-- An entry is read back from its tag and body. -/
theorem readEntry_of_rest (e : Entry) {r : Reader} {rest : List UInt8} (hr : r.Within)
    (htag : r.tag = e.tag.code) (h : r.rest = e.body ++ rest) (hrefs : ∀ i ∈ e.refs, i.toNat < n)
    (hwf : e.WellFormed tags) (hlen : e.body.length < 2 ^ 32) :
    readEntry (r.pos + e.body.length) tags n r = .ok (e, r.skip e.body.length) := by
  rw [readEntry_of_code (t := e.tag) (by rw [htag, EntryTag.ofCode_code])]
  cases hname : e.tag.isName with
  | false => exact readsTo_readBody e hname hrefs hwf hlen r rest h
  | true =>
    cases e
    case TermName s | TypeName s => exact bind_of_ok (readName_of_rest hr h)
    case Literal c => cases c <;> cases hname
    all_goals cases hname

end ScalaRs.Pickling
