import ScalaRs.ConstantPoolRuns
import Mathlib.Data.List.Forall2

/-! # Reading the pool back

Every index names what was requested in the parsed pool, as long as no string has a
character above `U+FFFF`. -/
namespace ScalaRs.Classfile
open ModifiedUtf8 ClassfileCursors

namespace Cp

variable (cp : Cp)

/-- An entry with one of these tags. -/
def Tagged (tags : List UInt8) (i : ℕ) : Prop := ∃ tag ∈ tags, ∃ data, cp.At i tag data

/-- The indices an entry stores are those of earlier entries of the right kind, and
a long or a double takes a second slot. -/
def PointsBack (i : ℕ) (tag : UInt8) (data : List UInt8) : Prop :=
  tag ∈ [1, 3, 4] ∨
  (tag ∈ [5, 6] ∧ cp.At (i + 1) 0 []) ∨
  (tag ∈ [7, 8, 16] ∧ ∃ u < i, data = be2 u ∧ cp.Tagged [1] u) ∨
  (tag = 12 ∧ ∃ n < i, ∃ d < i, data = be2 n ++ be2 d ∧ cp.Tagged [1] n ∧ cp.Tagged [1] d) ∨
  (tag ∈ [9, 10, 11] ∧
    ∃ c < i, ∃ n < i, data = be2 c ++ be2 n ∧ cp.Tagged [7] c ∧ cp.Tagged [12] n) ∨
  (tag = 15 ∧ ∃ kind, ∃ r < i, data = kind :: be2 r ∧ cp.Tagged [9, 10, 11] r) ∨
  (tag = 18 ∧ ∃ b, ∃ n < i, data = be2 b ++ be2 n ∧ cp.Tagged [12] n)

def NamesNat (name desc : String) (i : ℕ) : Prop :=
  ∃ n < i, ∃ d < i, cp.At i 12 (be2 n ++ be2 d) ∧ cp.utf8 n = some name ∧ cp.utf8 d = some desc

def NamesRef (tag : UInt8) (owner name desc : String) (i : ℕ) : Prop :=
  ∃ c < i, ∃ n < i, cp.At i tag (be2 c ++ be2 n) ∧ cp.className c = some owner ∧
    cp.NamesNat name desc n

/-- The entry at `i` is of the kind an operation requests, and resolves to the
constant it requests. -/
def Names : PoolOp → ℕ → Prop
  | .utf8 s, i => cp.utf8 i = some s
  | .classRef internal, i => cp.className i = some internal
  | .string s, i => ∃ u < i, cp.At i 8 (be2 u) ∧ cp.utf8 u = some s
  | .integer v, i => cp.At i 3 (be4 v.toNat)
  | .float bits, i => cp.At i 4 (be4 bits.toNat)
  | .long v, i => cp.At i 5 (Pool.be8 v.toNat) ∧ cp.At (i + 1) 0 []
  | .double bits, i => cp.At i 6 (Pool.be8 bits.toNat) ∧ cp.At (i + 1) 0 []
  | .nameAndType name desc, i => cp.NamesNat name desc i
  | .fieldref owner name desc, i => cp.NamesRef 9 owner name desc i
  | .methodref owner name desc, i => cp.NamesRef 10 owner name desc i
  | .ifaceRef owner name desc, i => cp.NamesRef 11 owner name desc i
  | .methodType desc, i => ∃ u < i, cp.At i 16 (be2 u) ∧ cp.utf8 u = some desc
  | .methodHandleStatic owner name desc iface, i =>
    ∃ r < i, cp.At i 15 (6 :: be2 r) ∧ cp.NamesRef (if iface then 11 else 10) owner name desc r
  | .methodHandle kind reference, i =>
    reference.toNat < i ∧ cp.At i 15 (kind :: be2 reference.toNat) ∧
      cp.Tagged [9, 10, 11] reference.toNat
  -- an index of the `BootstrapMethods` attribute
  | .bootstrap _ _, _ => True
  | .invokeDynamic bsm name desc, i =>
    ∃ n < i, cp.At i 18 (be2 bsm.toNat ++ be2 n) ∧ cp.NamesNat name desc n

end Cp

namespace Pool.Sound

variable {pool : Pool} {es : List Slot} (h : pool.Sound es) {i : ℕ}
include h

theorem tagged {key : PoolKey} (hi : pool.index key = some i) : (cpOf es).Tagged [key.tag] i := by
  obtain ⟨data, -, hat, -⟩ := h.index key i hi
  exact ⟨key.tag, List.mem_singleton.mpr rfl, data, hat⟩

theorem tagged_ref {tag : UInt8} {c n : ℕ} (hi : pool.index (.refs tag c n) = some i) :
    (cpOf es).Tagged [9, 10, 11] i := by
  obtain ⟨data, ⟨htag, -⟩, hat, -⟩ := h.index _ i hi
  exact ⟨tag, htag, data, hat⟩

/-- Every entry in use points back. -/
theorem pointsBack {tag : UInt8} {data : List UInt8} (hat : (cpOf es).At i tag data)
    (hne : tag ≠ 0) : (cpOf es).PointsBack i tag data := by
  obtain ⟨key, hi, rfl, hdata⟩ := h.known i tag data hat hne
  unfold Cp.PointsBack
  cases key with
  | utf8 s => simp [PoolKey.tag]
  | ints v => simp [PoolKey.tag]
  | floats v => simp [PoolKey.tag]
  | longs v =>
    obtain ⟨-, -, -, htwo⟩ := h.index _ i hi
    exact Or.inr (Or.inl ⟨by simp [PoolKey.tag], htwo (by simp [PoolKey.tag])⟩)
  | doubles v =>
    obtain ⟨-, -, -, htwo⟩ := h.index _ i hi
    exact Or.inr (Or.inl ⟨by simp [PoolKey.tag], htwo (by simp [PoolKey.tag])⟩)
  | classes s =>
    obtain ⟨u, hu, hlt, rfl⟩ := hdata
    exact Or.inr (Or.inr (Or.inl ⟨by simp [PoolKey.tag], u, hlt, rfl, h.tagged hu⟩))
  | string s =>
    obtain ⟨u, hu, hlt, rfl⟩ := hdata
    exact Or.inr (Or.inr (Or.inl ⟨by simp [PoolKey.tag], u, hlt, rfl, h.tagged hu⟩))
  | methodTypes s =>
    obtain ⟨u, hu, hlt, rfl⟩ := hdata
    exact Or.inr (Or.inr (Or.inl ⟨by simp [PoolKey.tag], u, hlt, rfl, h.tagged hu⟩))
  | nat n d =>
    obtain ⟨hn, hd, rfl, name, desc, hname, hdesc⟩ := hdata
    exact Or.inr (Or.inr (Or.inr (Or.inl
      ⟨rfl, n, hn, d, hd, rfl, h.tagged hname, h.tagged hdesc⟩)))
  | refs tag c n =>
    obtain ⟨htag, hc, hn, rfl, owner, a, b, howner, hnat⟩ := hdata
    exact Or.inr (Or.inr (Or.inr (Or.inr (Or.inl
      ⟨htag, c, hc, n, hn, rfl, h.tagged howner, h.tagged hnat⟩))))
  | methodHandles kind r =>
    obtain ⟨hr, rfl, tag, c, n, href⟩ := hdata
    exact Or.inr (Or.inr (Or.inr (Or.inr (Or.inr (Or.inl
      ⟨rfl, kind, r, hr, rfl, h.tagged_ref href⟩)))))
  | invokeDynamics b n =>
    obtain ⟨hn, rfl, name, desc, hnat⟩ := hdata
    exact Or.inr (Or.inr (Or.inr (Or.inr (Or.inr (Or.inr
      ⟨rfl, b, n, hn, rfl, h.tagged hnat⟩)))))

/-! ## What known indices resolve to -/

/-- What a string is read back as, whatever its characters. -/
theorem utf8_eq_decoded {s : String} (hi : pool.index (.utf8 s) = some i) :
    (cpOf es).utf8 i = modifiedUtf8ToString (modifiedUtf8Bytes s) := by
  obtain ⟨data, ⟨rfl, -⟩, hat, -⟩ := h.index _ i hi
  have hpos : i ≠ 0 := by
    intro hzero
    rw [hzero] at hat
    cases hat
  have hne : ¬ (i = 0 ∨ (1 : UInt8) ≠ 1) := by simp [hpos]
  rw [Cp.utf8, show (cpOf es).slots[i]? = some (1, modifiedUtf8Bytes s) from hat]
  dsimp only
  rw [if_neg hne]

theorem utf8_eq {s : String} (hs : Basic s) (hi : pool.index (.utf8 s) = some i) :
    (cpOf es).utf8 i = some s := by
  rw [h.utf8_eq_decoded hi, modifiedUtf8ToString_modifiedUtf8Bytes hs]

theorem className_eq (hcount : pool.count < 65536) {s : String} (hs : Basic s)
    (hi : pool.index (.classes s) = some i) : (cpOf es).className i = some s := by
  have hlt := h.lt_count hi
  obtain ⟨data, ⟨u, hu, hui, rfl⟩, hat, -⟩ := h.index _ i hi
  have hpos : i ≠ 0 := by
    intro hzero
    rw [hzero] at hat
    cases hat
  have hne : ¬ (i = 0 ∨ (7 : UInt8) ≠ 7) := by simp [hpos]
  have hvalue : (UInt8.ofNat (u / 256)).toNat * 256 + (UInt8.ofNat u).toNat = u := by
    rw [UInt8.toNat_ofNat', UInt8.toNat_ofNat']
    omega
  rw [Cp.className, show (cpOf es).slots[i]? = some (7, be2 u) from hat, be2]
  dsimp only
  rw [if_neg hne, hvalue]
  exact h.utf8_eq hs hu

theorem viaUtf8_names {s : String} (hs : Basic s) (key : PoolKey)
    (hkey : ∀ data, key.Data pool.index i data →
      ∃ u, pool.index (.utf8 s) = some u ∧ u < i ∧ data = be2 u)
    (hi : pool.index key = some i) :
    ∃ u < i, (cpOf es).At i key.tag (be2 u) ∧ (cpOf es).utf8 u = some s := by
  obtain ⟨data, hdata, hat, -⟩ := h.index _ i hi
  obtain ⟨u, hu, hui, rfl⟩ := hkey data hdata
  exact ⟨u, hui, hat, h.utf8_eq hs hu⟩

theorem nat_names {name desc : String} (hname : Basic name) (hdesc : Basic desc)
    (hi : NatIndex pool.index name desc i) : (cpOf es).NamesNat name desc i := by
  obtain ⟨n, d, hn, hd, hnat⟩ := hi
  obtain ⟨data, ⟨hni, hdi, rfl, -⟩, hat, -⟩ := h.index _ i hnat
  exact ⟨n, hni, d, hdi, hat, h.utf8_eq hname hn, h.utf8_eq hdesc hd⟩

theorem ref_names (hcount : pool.count < 65536) {tag : UInt8} {owner name desc : String}
    (howner : Basic owner) (hname : Basic name) (hdesc : Basic desc)
    (hi : RefIndex pool.index tag owner name desc i) :
    (cpOf es).NamesRef tag owner name desc i := by
  obtain ⟨c, n, hc, hn, href⟩ := hi
  obtain ⟨data, ⟨-, hci, hni, rfl, -⟩, hat, -⟩ := h.index _ i href
  exact ⟨c, hci, n, hni, hat, h.className_eq hcount howner hc, h.nat_names hname hdesc hn⟩

theorem names (hcount : pool.count < 65536) {op : PoolOp} (hbasic : ∀ s ∈ op.strings, Basic s)
    (hi : op.Interned pool i) : (cpOf es).Names op i := by
  cases op with
  | utf8 s => exact h.utf8_eq (hbasic s (by simp [PoolOp.strings])) hi
  | classRef s => exact h.className_eq hcount (hbasic s (by simp [PoolOp.strings])) hi
  | string s =>
    exact h.viaUtf8_names (hbasic s (by simp [PoolOp.strings])) (.string s) (fun _ hd => hd) hi
  | methodType s =>
    exact h.viaUtf8_names (hbasic s (by simp [PoolOp.strings])) (.methodTypes s)
      (fun _ hd => hd) hi
  | integer v =>
    obtain ⟨data, rfl, hat, -⟩ := h.index _ i hi
    exact hat
  | float bits =>
    obtain ⟨data, rfl, hat, -⟩ := h.index _ i hi
    exact hat
  | long v =>
    obtain ⟨data, rfl, hat, htwo⟩ := h.index _ i hi
    exact ⟨hat, htwo (by simp [PoolKey.tag])⟩
  | double bits =>
    obtain ⟨data, rfl, hat, htwo⟩ := h.index _ i hi
    exact ⟨hat, htwo (by simp [PoolKey.tag])⟩
  | nameAndType name desc =>
    exact h.nat_names (hbasic name (by simp [PoolOp.strings]))
      (hbasic desc (by simp [PoolOp.strings])) hi
  | fieldref owner name desc =>
    exact h.ref_names hcount (hbasic owner (by simp [PoolOp.strings]))
      (hbasic name (by simp [PoolOp.strings])) (hbasic desc (by simp [PoolOp.strings])) hi
  | methodref owner name desc =>
    exact h.ref_names hcount (hbasic owner (by simp [PoolOp.strings]))
      (hbasic name (by simp [PoolOp.strings])) (hbasic desc (by simp [PoolOp.strings])) hi
  | ifaceRef owner name desc =>
    exact h.ref_names hcount (hbasic owner (by simp [PoolOp.strings]))
      (hbasic name (by simp [PoolOp.strings])) (hbasic desc (by simp [PoolOp.strings])) hi
  | methodHandleStatic owner name desc iface =>
    obtain ⟨r, hr, hhandle⟩ := hi
    obtain ⟨data, ⟨hri, rfl, -⟩, hat, -⟩ := h.index _ i hhandle
    exact ⟨r, hri, hat, h.ref_names hcount (hbasic owner (by simp [PoolOp.strings]))
      (hbasic name (by simp [PoolOp.strings])) (hbasic desc (by simp [PoolOp.strings])) hr⟩
  | methodHandle kind reference =>
    obtain ⟨⟨tag, c, n, href⟩, hhandle⟩ := hi
    obtain ⟨data, ⟨hri, rfl, -⟩, hat, -⟩ := h.index _ i hhandle
    exact ⟨hri, hat, h.tagged_ref href⟩
  | bootstrap handle args => trivial
  | invokeDynamic bsm name desc =>
    obtain ⟨n, hn, hdyn⟩ := hi
    obtain ⟨data, ⟨hni, rfl, -⟩, hat, -⟩ := h.index _ i hdyn
    exact ⟨n, hni, hat, h.nat_names (hbasic name (by simp [PoolOp.strings]))
      (hbasic desc (by simp [PoolOp.strings])) hn⟩

theorem parses (hcount : pool.count < 65536) : Parses parseCp pool.writeHeader (cpOf es) := by
  rw [writeHeader, h.bytes, h.count]
  apply parses_cp h.wellFormed
  rw [← h.count]
  exact hcount

end Pool.Sound

/-- The pool after a run whose strings are all of the basic plane. -/
theorem constantPool_correct (ops : List PoolOp) (results : List ℕ) (pool : Pool)
    (hrun : runOps ops Pool.new = some (results, pool)) (hhandles : HandlesFrom [] ops results)
    (hcount : pool.count < 65536) (hbasic : ∀ op ∈ ops, ∀ s ∈ op.strings, Basic s) :
    ∃ cp, (∀ rest, parseCp (pool.writeHeader ++ rest) = some (cp, rest)) ∧
      cp.slots.length = pool.count ∧
      List.Forall₂ cp.Names ops results ∧
      (∀ i tag data, cp.At i tag data → tag ≠ 0 → cp.PointsBack i tag data) ∧
      List.Forall₂ (fun op i => op.run pool = some (i, pool)) ops results := by
  obtain ⟨⟨⟨es, hes⟩, -, -⟩, hinterned⟩ := runOps_spec ops ⟨[], Pool.sound_new⟩
    (fun _ hr => absurd hr List.not_mem_nil) hhandles hrun
  refine ⟨cpOf es, hes.parses hcount, ?_, ?_, fun i tag data => hes.pointsBack, ?_⟩
  · rw [hes.count, countOf, cpOf, List.length_cons, Nat.add_comm]
  · apply (List.forall₂_and_left ops results |>.mpr ⟨hbasic, hinterned⟩).imp
    rintro op i ⟨hop, hi⟩
    exact hes.names hcount hop hi
  · exact hinterned.imp fun op i hi => hi.run_eq

def sampleOps : List PoolOp :=
  [.methodref "a/B" "f" "()V", .long 5, .string "()V", .methodHandle 6 6,
    .methodHandleStatic "a/B" "f" "()V" false, .bootstrap 10 [9], .invokeDynamic 0 "apply" "()V"]

theorem constantPool_correct_sample :
    ∃ results pool, runOps sampleOps Pool.new = some (results, pool) ∧
      ∃ cp, (∀ rest, parseCp (pool.writeHeader ++ rest) = some (cp, rest)) ∧
        cp.slots.length = pool.count ∧
        List.Forall₂ cp.Names sampleOps results ∧
        (∀ i tag data, cp.At i tag data → tag ≠ 0 → cp.PointsBack i tag data) ∧
        List.Forall₂ (fun op i => op.run pool = some (i, pool)) sampleOps results := by
  have hsome : (runOps sampleOps Pool.new).map (fun r => (r.1, r.2.count)) =
      some ([6, 7, 9, 10, 10, 0, 13], 14) := by decide +kernel
  obtain ⟨⟨results, pool⟩, hrun, hresult⟩ := Option.map_eq_some_iff.mp hsome
  obtain ⟨hresults, hcount⟩ := Prod.mk.inj hresult
  have hhandles : HandlesFrom [] sampleOps results := by
    rw [show results = [6, 7, 9, 10, 10, 0, 13] from hresults]
    simp [sampleOps, HandlesFrom, PoolOp.isMemberRef]
  have hsmall : pool.count < 65536 := by
    rw [show pool.count = 14 from hcount]
    decide
  exact ⟨results, pool, hrun, constantPool_correct sampleOps results pool hrun hhandles hsmall
    (by decide +kernel)⟩

/-- The bytes of a supplementary character are not read back. -/
theorem supplementary_not_named :
    ∃ results pool cp, runOps [.utf8 (String.ofList [Char.ofNat 0x1f600])] Pool.new =
        some (results, pool) ∧ pool.count < 65536 ∧
      parseCp pool.writeHeader = some (cp, []) ∧
      ¬ List.Forall₂ cp.Names [.utf8 (String.ofList [Char.ofNat 0x1f600])] results := by
  have hsome : (runOps [.utf8 (String.ofList [Char.ofNat 0x1f600])] Pool.new).map
      (fun r => (r.1, r.2.count, parseCp r.2.writeHeader)) =
      some ([1], 2, some (⟨[(0, []), (1, [0xff, 0x98, 0x80])]⟩, [])) := by decide +kernel
  obtain ⟨⟨results, pool⟩, hrun, hresult⟩ := Option.map_eq_some_iff.mp hsome
  obtain ⟨hresults, hresult⟩ := Prod.mk.inj hresult
  obtain ⟨hcount, hparse⟩ := Prod.mk.inj hresult
  obtain rfl : results = [1] := hresults
  have hsmall : pool.count < 65536 := by
    rw [show pool.count = 2 from hcount]
    decide
  refine ⟨[1], pool, _, hrun, hsmall, hparse, ?_⟩
  intro h
  have hname := (List.forall₂_cons.mp h).1
  rw [Cp.Names] at hname
  revert hname
  decide +kernel

end ScalaRs.Classfile
