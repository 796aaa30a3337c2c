import ScalaRs.ConstantPoolInvariant

/-! # Runs of interning operations

Each operation keeps the pool sound and everything known, and leaves the index it
returns known for what was requested. -/
namespace ScalaRs.Classfile
open ModifiedUtf8 ClassfileCursors

def Pool.Valid (pool : Pool) : Prop := ∃ es, pool.Sound es

/-- A sound pool that knows all that another one knows. -/
structure Pool.Next (pool pool' : Pool) : Prop where
  valid : pool'.Valid
  index : Grows pool.index pool'.index
  bootstraps : ∀ key i, pool.bootstrapIndex key = some i → pool'.bootstrapIndex key = some i

theorem Pool.Next.refl {pool : Pool} (h : pool.Valid) : pool.Next pool :=
  ⟨h, fun _ _ hi => hi, fun _ _ hi => hi⟩

theorem Pool.Next.trans {p q r : Pool} (hpq : p.Next q) (hqr : q.Next r) : p.Next r :=
  ⟨hqr.valid, fun key i hi => hqr.index key i (hpq.index key i hi),
    fun key i hi => hqr.bootstraps key i (hpq.bootstraps key i hi)⟩

theorem PoolM.bind_of_some {α β : Type} {p : PoolM α} {f : α → PoolM β} {pool pool' : Pool} {a : α}
    (h : p pool = some (a, pool')) : (p >>= f) pool = f a pool' := by
  change (p pool).bind (fun s => f s.1 s.2) = _
  rw [h]
  rfl

theorem PoolM.bind_eq_some {α β : Type} {p : PoolM α} {f : α → PoolM β} {pool : Pool}
    {r : β × Pool} :
    (p >>= f) pool = some r ↔ ∃ a pool', p pool = some (a, pool') ∧ f a pool' = some r := by
  change (p pool).bind (fun s => f s.1 s.2) = some r ↔ _
  rw [Option.bind_eq_some_iff]
  constructor
  · intro ⟨⟨a, pool'⟩, hp, hf⟩
    exact ⟨a, pool', hp, hf⟩
  · intro ⟨a, pool', hp, hf⟩
    exact ⟨(a, pool'), hp, hf⟩

namespace Pool

variable {pool pool' : Pool} {i : ℕ}

theorem cached_hit {key : PoolKey} {miss : PoolM ℕ} (h : pool.index key = some i) :
    cached key miss pool = some (i, pool) := by
  rw [cached, h]

/-- Adding the entry for a key that has none. -/
theorem Valid.add (h : pool.Valid) {key : PoolKey} {data entry : List UInt8} {slots : ℕ}
    (hnone : pool.index key = none) (hdata : key.Data pool.index pool.count data)
    (hentry : entry = entryBytes (key.tag, data)) (hslots : slots = (slotsOf (key.tag, data)).length)
    (hrun : add key entry slots pool = some (i, pool')) :
    pool.Next pool' ∧ pool'.index key = some i ∧
      ∀ k, k ≠ key → pool'.index k = pool.index k := by
  obtain ⟨es, hes⟩ := h
  subst hentry hslots
  obtain ⟨next, hadd, hsound, hgrows, hkey⟩ := hes.add hnone hdata
  have hframe : ∀ k, k ≠ key → next.index k = pool.index k := by
    intro k hk
    obtain ⟨-, rfl⟩ := Prod.mk.inj (Option.some.inj hadd)
    exact Function.update_of_ne hk _ _
  have hboot : next.bootstrapIndex = pool.bootstrapIndex := by
    obtain ⟨-, rfl⟩ := Prod.mk.inj (Option.some.inj hadd)
    rfl
  rw [hadd] at hrun
  obtain ⟨rfl, rfl⟩ := Prod.mk.inj (Option.some.inj hrun)
  exact ⟨⟨⟨_, hsound⟩, hgrows, fun key i hi => by rwa [hboot]⟩, hkey, hframe⟩

/-- Interning a constant whose references are interned already. -/
theorem Valid.cached_add (h : pool.Valid) {key : PoolKey} {data entry : List UInt8} {slots : ℕ}
    (hdata : key.Data pool.index pool.count data)
    (hentry : entry = entryBytes (key.tag, data)) (hslots : slots = (slotsOf (key.tag, data)).length)
    (hrun : cached key (Pool.add key entry slots) pool = some (i, pool')) :
    pool.Next pool' ∧ pool'.index key = some i := by
  cases hit : pool.index key with
  | some j =>
    rw [cached_hit hit] at hrun
    obtain ⟨rfl, rfl⟩ := Prod.mk.inj (Option.some.inj hrun)
    exact ⟨.refl h, hit⟩
  | none =>
    rw [cached, hit] at hrun
    obtain ⟨hnext, hkey, -⟩ := h.add hit hdata hentry hslots hrun
    exact ⟨hnext, hkey⟩

theorem utf8_spec (h : pool.Valid) {s : String} (hrun : utf8 s pool = some (i, pool')) :
    pool.Next pool' ∧ pool'.index (.utf8 s) = some i ∧
      ∀ k, k ≠ .utf8 s → pool'.index k = pool.index k := by
  unfold utf8 at hrun
  cases hit : pool.index (.utf8 s) with
  | some j =>
    rw [cached_hit hit] at hrun
    obtain ⟨rfl, rfl⟩ := Prod.mk.inj (Option.some.inj hrun)
    exact ⟨.refl h, hit, fun _ _ => rfl⟩
  | none =>
    rw [cached, hit] at hrun
    obtain ⟨_, pool₁, hguard, hadd⟩ := PoolM.bind_eq_some.mp hrun
    by_cases hlen : (modifiedUtf8Bytes s).length ≤ MAX_UTF8_CONST
    · delta guard at hguard
      rw [if_pos hlen] at hguard
      obtain ⟨-, rfl⟩ := Prod.mk.inj (Option.some.inj hguard)
      have hdata : (PoolKey.utf8 s).Data pool.index pool.count (modifiedUtf8Bytes s) := ⟨rfl, hlen⟩
      apply h.add hit hdata _ _ hadd
      · simp [entryBytes, PoolKey.tag]
      · simp [slotsOf, PoolKey.tag]
    · delta guard at hguard
      rw [if_neg hlen] at hguard
      cases hguard

/-- Interning a constant that refers to one string. -/
theorem viaUtf8_spec (tag : UInt8) (h : pool.Valid) {s : String} {key : PoolKey}
    (htag : key.tag = tag) (hone : tag ≠ 1) (hslots : tag ∉ [5, 6]) (hkey : key ≠ .utf8 s)
    (hdata : ∀ index i u, index (.utf8 s) = some u → u < i → key.Data index i (be2 u))
    (hrun : cached key (do
      let u ← utf8 s
      Pool.add key (tag :: be2 u) 1) pool = some (i, pool')) :
    pool.Next pool' ∧ pool'.index key = some i := by
  cases hit : pool.index key with
  | some j =>
    rw [cached_hit hit] at hrun
    obtain ⟨rfl, rfl⟩ := Prod.mk.inj (Option.some.inj hrun)
    exact ⟨.refl h, hit⟩
  | none =>
    rw [cached, hit] at hrun
    obtain ⟨u, pool₁, hutf8, hadd⟩ := PoolM.bind_eq_some.mp hrun
    obtain ⟨hnext, hu, hframe⟩ := utf8_spec h hutf8
    obtain ⟨es, hes⟩ := hnext.valid
    have hnone : pool₁.index key = none := (hframe key hkey).trans hit
    obtain ⟨hnext', hkey', -⟩ := hnext.valid.add hnone
      (hdata _ _ _ hu (hes.lt_count hu)) (by rw [entryBytes, htag, if_neg hone])
      (by rw [slotsOf, htag, if_neg hslots]; rfl) hadd
    exact ⟨hnext.trans hnext', hkey'⟩

theorem classRef_spec (h : pool.Valid) {s : String} (hrun : classRef s pool = some (i, pool')) :
    pool.Next pool' ∧ pool'.index (.classes s) = some i :=
  viaUtf8_spec 7 h rfl (by decide) (by decide) (by simp)
    (fun _ _ u hu hlt => ⟨u, hu, hlt, rfl⟩) hrun

theorem string_spec (h : pool.Valid) {s : String} (hrun : string s pool = some (i, pool')) :
    pool.Next pool' ∧ pool'.index (.string s) = some i :=
  viaUtf8_spec 8 h rfl (by decide) (by decide) (by simp)
    (fun _ _ u hu hlt => ⟨u, hu, hlt, rfl⟩) hrun

theorem methodType_spec (h : pool.Valid) {s : String} (hrun : methodType s pool = some (i, pool')) :
    pool.Next pool' ∧ pool'.index (.methodTypes s) = some i :=
  viaUtf8_spec 16 h rfl (by decide) (by decide) (by simp)
    (fun _ _ u hu hlt => ⟨u, hu, hlt, rfl⟩) hrun

end Pool

/-- An index known for a name and a descriptor. -/
def NatIndex (index : PoolKey → Option ℕ) (name desc : String) (i : ℕ) : Prop :=
  ∃ n d, index (.utf8 name) = some n ∧ index (.utf8 desc) = some d ∧ index (.nat n d) = some i

/-- An index known for a member of this kind. -/
def RefIndex (index : PoolKey → Option ℕ) (tag : UInt8) (owner name desc : String) (i : ℕ) : Prop :=
  ∃ c n, index (.classes owner) = some c ∧ NatIndex index name desc n ∧
    index (.refs tag c n) = some i

theorem NatIndex.mono {index index' : PoolKey → Option ℕ} (h : Grows index index')
    {name desc : String} {i : ℕ} (hi : NatIndex index name desc i) : NatIndex index' name desc i := by
  obtain ⟨n, d, hn, hd, hnat⟩ := hi
  exact ⟨n, d, h _ _ hn, h _ _ hd, h _ _ hnat⟩

theorem RefIndex.mono {index index' : PoolKey → Option ℕ} (h : Grows index index') {tag : UInt8}
    {owner name desc : String} {i : ℕ} (hi : RefIndex index tag owner name desc i) :
    RefIndex index' tag owner name desc i := by
  obtain ⟨c, n, hc, hn, href⟩ := hi
  exact ⟨c, n, h _ _ hc, hn.mono h, h _ _ href⟩

namespace Pool

variable {pool pool' : Pool} {i : ℕ}

theorem nat_spec (h : pool.Valid) {name desc : String}
    (hrun : nat name desc pool = some (i, pool')) :
    pool.Next pool' ∧ NatIndex pool'.index name desc i := by
  obtain ⟨n, pool₁, hname, hrun⟩ := PoolM.bind_eq_some.mp hrun
  obtain ⟨d, pool₂, hdesc, hrun⟩ := PoolM.bind_eq_some.mp hrun
  obtain ⟨hnext₁, hn, -⟩ := utf8_spec h hname
  obtain ⟨hnext₂, hd, -⟩ := utf8_spec hnext₁.valid hdesc
  obtain ⟨es, hes⟩ := hnext₂.valid
  have hn := hnext₂.index _ _ hn
  have hdata : (PoolKey.nat n d).Data pool₂.index pool₂.count (be2 n ++ be2 d) :=
    ⟨hes.lt_count hn, hes.lt_count hd, rfl, name, desc, hn, hd⟩
  obtain ⟨hnext₃, hnat⟩ := hnext₂.valid.cached_add hdata rfl rfl hrun
  exact ⟨(hnext₁.trans hnext₂).trans hnext₃, n, d, hnext₃.index _ _ hn, hnext₃.index _ _ hd, hnat⟩

theorem memberRef_spec (h : pool.Valid) {tag : UInt8} (htag : tag ∈ [9, 10, 11])
    {owner name desc : String} (hrun : memberRef tag owner name desc pool = some (i, pool')) :
    pool.Next pool' ∧ RefIndex pool'.index tag owner name desc i := by
  obtain ⟨c, pool₁, howner, hrun⟩ := PoolM.bind_eq_some.mp hrun
  obtain ⟨n, pool₂, hnat, hrun⟩ := PoolM.bind_eq_some.mp hrun
  obtain ⟨hnext₁, hc⟩ := classRef_spec h howner
  obtain ⟨hnext₂, hn⟩ := nat_spec hnext₁.valid hnat
  obtain ⟨es, hes⟩ := hnext₂.valid
  have hc := hnext₂.index _ _ hc
  obtain ⟨a, b, -, -, hab⟩ := id hn
  have hdata : (PoolKey.refs tag c n).Data pool₂.index pool₂.count (be2 c ++ be2 n) :=
    ⟨htag, hes.lt_count hc, hes.lt_count hab, rfl, owner, a, b, hc, hab⟩
  have hne : tag ≠ 1 := by
    rintro rfl
    simp at htag
  have hone : tag ∉ [5, 6] := by
    simp only [List.mem_cons, List.not_mem_nil, or_false] at htag
    rcases htag with rfl | rfl | rfl <;> decide
  obtain ⟨hnext₃, href⟩ := hnext₂.valid.cached_add hdata
    (by rw [entryBytes, PoolKey.tag, if_neg hne]; rfl)
    (by rw [slotsOf, PoolKey.tag, if_neg hone]; rfl) hrun
  exact ⟨(hnext₁.trans hnext₂).trans hnext₃, c, n, hnext₃.index _ _ hc,
    hn.mono hnext₃.index, href⟩

theorem methodHandle_spec (h : pool.Valid) {kind : UInt8} {reference : ℕ} {tag : UInt8} {c n : ℕ}
    (href : pool.index (.refs tag c n) = some reference)
    (hrun : methodHandle kind reference pool = some (i, pool')) :
    pool.Next pool' ∧ pool'.index (.methodHandles kind reference) = some i := by
  obtain ⟨es, hes⟩ := id h
  have hdata : (PoolKey.methodHandles kind reference).Data pool.index pool.count
      (kind :: be2 reference) := ⟨hes.lt_count href, rfl, tag, c, n, href⟩
  exact h.cached_add hdata rfl rfl hrun

theorem invokeDynamic_spec (h : pool.Valid) {bootstrap : ℕ} {name desc : String}
    (hrun : invokeDynamic bootstrap name desc pool = some (i, pool')) :
    pool.Next pool' ∧ ∃ n, NatIndex pool'.index name desc n ∧
      pool'.index (.invokeDynamics bootstrap n) = some i := by
  obtain ⟨n, pool₁, hnat, hrun⟩ := PoolM.bind_eq_some.mp hrun
  obtain ⟨hnext₁, hn⟩ := nat_spec h hnat
  obtain ⟨es, hes⟩ := hnext₁.valid
  obtain ⟨a, b, -, -, hab⟩ := id hn
  have hdata : (PoolKey.invokeDynamics bootstrap n).Data pool₁.index pool₁.count
      (be2 bootstrap ++ be2 n) := ⟨hes.lt_count hab, rfl, a, b, hab⟩
  obtain ⟨hnext₂, hdyn⟩ := hnext₁.valid.cached_add hdata rfl rfl hrun
  exact ⟨hnext₁.trans hnext₂, n, hn.mono hnext₂.index, hdyn⟩

theorem bootstrap_spec (h : pool.Valid) {handle : ℕ} {args : List ℕ}
    (hrun : bootstrap handle args pool = some (i, pool')) :
    pool.Next pool' ∧ pool'.bootstrapIndex (handle, args) = some i := by
  unfold bootstrap at hrun
  cases hit : pool.bootstrapIndex (handle, args) with
  | some j =>
    rw [hit] at hrun
    obtain ⟨rfl, rfl⟩ := Prod.mk.inj (Option.some.inj hrun)
    exact ⟨.refl h, hit⟩
  | none =>
    rw [hit] at hrun
    obtain ⟨rfl, rfl⟩ := Prod.mk.inj (Option.some.inj hrun)
    obtain ⟨es, hes⟩ := h
    refine ⟨⟨⟨es, hes.bytes, hes.count, hes.wellFormed, hes.index, hes.known⟩,
      fun _ _ hi => hi, ?_⟩, Function.update_self _ _ _⟩
    intro key j hj
    have hne : key ≠ (handle, args) := by
      intro heq
      rw [heq, hit] at hj
      cases hj
    exact (Function.update_of_ne hne _ _).trans hj

end Pool

/-! ## Operations -/

/-- An operation with its arguments. Two of them take indices. -/
inductive PoolOp
  | utf8 (s : String)
  | classRef (internal : String)
  | string (s : String)
  | integer (v : UInt32)
  | float (bits : UInt32)
  | long (v : UInt64)
  | double (bits : UInt64)
  | nameAndType (name desc : String)
  | fieldref (owner name desc : String)
  | methodref (owner name desc : String)
  | ifaceRef (owner name desc : String)
  | methodType (desc : String)
  | methodHandleStatic (owner name desc : String) (iface : Bool)
  | methodHandle (kind : UInt8) (reference : UInt16)
  | bootstrap (handle : UInt16) (args : List UInt16)
  | invokeDynamic (bsm : UInt16) (name desc : String)

namespace Pool

variable {pool : Pool} {i : ℕ}

theorem utf8_hit {s : String} (h : pool.index (.utf8 s) = some i) :
    utf8 s pool = some (i, pool) := cached_hit h

theorem classRef_hit {s : String} (h : pool.index (.classes s) = some i) :
    classRef s pool = some (i, pool) := cached_hit h

theorem nat_hit {name desc : String} (h : NatIndex pool.index name desc i) :
    nat name desc pool = some (i, pool) := by
  obtain ⟨n, d, hn, hd, hnat⟩ := h
  rw [nat, PoolM.bind_of_some (utf8_hit hn), PoolM.bind_of_some (utf8_hit hd), cached_hit hnat]

theorem memberRef_hit {tag : UInt8} {owner name desc : String}
    (h : RefIndex pool.index tag owner name desc i) :
    memberRef tag owner name desc pool = some (i, pool) := by
  obtain ⟨c, n, hc, hn, href⟩ := h
  rw [memberRef, PoolM.bind_of_some (classRef_hit hc), PoolM.bind_of_some (nat_hit hn),
    cached_hit href]

end Pool

namespace PoolOp

def run : PoolOp → PoolM ℕ
  | utf8 s => Pool.utf8 s
  | classRef internal => Pool.classRef internal
  | string s => Pool.string s
  | integer v => Pool.integer v
  | float bits => Pool.float bits
  | long v => Pool.long v
  | double bits => Pool.double bits
  | nameAndType name desc => Pool.nameAndType name desc
  | fieldref owner name desc => Pool.fieldref owner name desc
  | methodref owner name desc => Pool.methodref owner name desc
  | ifaceRef owner name desc => Pool.ifaceRef owner name desc
  | methodType desc => Pool.methodType desc
  | methodHandleStatic owner name desc iface => Pool.methodHandleStatic owner name desc iface
  | methodHandle kind reference => Pool.methodHandle kind reference.toNat
  | bootstrap handle args => Pool.bootstrap handle.toNat (args.map UInt16.toNat)
  | invokeDynamic bsm name desc => Pool.invokeDynamic bsm.toNat name desc

def strings : PoolOp → List String
  | utf8 s | classRef s | string s | methodType s => [s]
  | nameAndType name desc | invokeDynamic _ name desc => [name, desc]
  | fieldref owner name desc | methodref owner name desc | ifaceRef owner name desc
  | methodHandleStatic owner name desc _ => [owner, name, desc]
  | _ => []

def isMemberRef : PoolOp → Bool
  | fieldref .. | methodref .. | ifaceRef .. => true
  | _ => false

/-- The index is known for what the operation requests. -/
def Interned (pool : Pool) (i : ℕ) : PoolOp → Prop
  | utf8 s => pool.index (.utf8 s) = some i
  | classRef internal => pool.index (.classes internal) = some i
  | string s => pool.index (.string s) = some i
  | integer v => pool.index (.ints v) = some i
  | float bits => pool.index (.floats bits) = some i
  | long v => pool.index (.longs v) = some i
  | double bits => pool.index (.doubles bits) = some i
  | nameAndType name desc => NatIndex pool.index name desc i
  | fieldref owner name desc => RefIndex pool.index 9 owner name desc i
  | methodref owner name desc => RefIndex pool.index 10 owner name desc i
  | ifaceRef owner name desc => RefIndex pool.index 11 owner name desc i
  | methodType desc => pool.index (.methodTypes desc) = some i
  | methodHandleStatic owner name desc iface =>
    ∃ r, RefIndex pool.index (if iface then 11 else 10) owner name desc r ∧
      pool.index (.methodHandles 6 r) = some i
  | methodHandle kind reference =>
    (∃ tag c n, pool.index (.refs tag c n) = some reference.toNat) ∧
      pool.index (.methodHandles kind reference.toNat) = some i
  | bootstrap handle args =>
    pool.bootstrapIndex (handle.toNat, args.map UInt16.toNat) = some i
  | invokeDynamic bsm name desc =>
    ∃ n, NatIndex pool.index name desc n ∧ pool.index (.invokeDynamics bsm.toNat n) = some i

theorem Interned.mono {pool pool' : Pool} (h : pool.Next pool') {i : ℕ} {op : PoolOp}
    (hi : op.Interned pool i) : op.Interned pool' i := by
  cases op with
  | nameAndType name desc => exact NatIndex.mono h.index hi
  | fieldref owner name desc => exact RefIndex.mono h.index hi
  | methodref owner name desc => exact RefIndex.mono h.index hi
  | ifaceRef owner name desc => exact RefIndex.mono h.index hi
  | methodHandleStatic owner name desc iface =>
    obtain ⟨r, hr, hhandle⟩ := hi
    exact ⟨r, hr.mono h.index, h.index _ _ hhandle⟩
  | methodHandle kind reference =>
    obtain ⟨⟨tag, c, n, href⟩, hhandle⟩ := hi
    exact ⟨⟨tag, c, n, h.index _ _ href⟩, h.index _ _ hhandle⟩
  | bootstrap handle args => exact h.bootstraps _ _ hi
  | invokeDynamic bsm name desc =>
    obtain ⟨n, hn, hdyn⟩ := hi
    exact ⟨n, hn.mono h.index, h.index _ _ hdyn⟩
  | utf8 | classRef | string | integer | float | long | double | methodType =>
    exact h.index _ _ hi

/-- What an operation does to a valid pool. A method handle is made from the index
of a member. -/
theorem run_spec {pool pool' : Pool} {i : ℕ} {op : PoolOp} (h : pool.Valid)
    (href : ∀ kind reference, op = methodHandle kind reference →
      ∃ tag c n, pool.index (.refs tag c n) = some reference.toNat)
    (hrun : op.run pool = some (i, pool')) : pool.Next pool' ∧ op.Interned pool' i := by
  cases op with
  | utf8 s =>
    obtain ⟨hnext, hi, -⟩ := Pool.utf8_spec h hrun
    exact ⟨hnext, hi⟩
  | classRef s => exact Pool.classRef_spec h hrun
  | string s => exact Pool.string_spec h hrun
  | methodType s => exact Pool.methodType_spec h hrun
  | integer v =>
    have hdata : (PoolKey.ints v).Data pool.index pool.count (be4 v.toNat) := rfl
    exact h.cached_add hdata rfl rfl hrun
  | float bits =>
    have hdata : (PoolKey.floats bits).Data pool.index pool.count (be4 bits.toNat) := rfl
    exact h.cached_add hdata rfl rfl hrun
  | long v =>
    have hdata : (PoolKey.longs v).Data pool.index pool.count (Pool.be8 v.toNat) := rfl
    exact h.cached_add hdata rfl rfl hrun
  | double bits =>
    have hdata : (PoolKey.doubles bits).Data pool.index pool.count (Pool.be8 bits.toNat) := rfl
    exact h.cached_add hdata rfl rfl hrun
  | nameAndType name desc => exact Pool.nat_spec h hrun
  | fieldref owner name desc => exact Pool.memberRef_spec h (by decide) hrun
  | methodref owner name desc => exact Pool.memberRef_spec h (by decide) hrun
  | ifaceRef owner name desc => exact Pool.memberRef_spec h (by decide) hrun
  | methodHandleStatic owner name desc iface =>
    obtain ⟨r, pool₁, hr, hrun⟩ := PoolM.bind_eq_some.mp hrun
    have hmember : pool.Next pool₁ ∧
        RefIndex pool₁.index (if iface then 11 else 10) owner name desc r := by
      cases iface with
      | true => exact Pool.memberRef_spec h (by decide) hr
      | false => exact Pool.memberRef_spec h (by decide) hr
    obtain ⟨hnext₁, hindex⟩ := hmember
    obtain ⟨c, n, -, -, hrefs⟩ := id hindex
    obtain ⟨hnext₂, hhandle⟩ := Pool.methodHandle_spec hnext₁.valid hrefs hrun
    exact ⟨hnext₁.trans hnext₂, r, hindex.mono hnext₂.index, hhandle⟩
  | methodHandle kind reference =>
    obtain ⟨tag, c, n, hrefs⟩ := href kind reference rfl
    obtain ⟨hnext, hhandle⟩ := Pool.methodHandle_spec h hrefs hrun
    exact ⟨hnext, ⟨tag, c, n, hnext.index _ _ hrefs⟩, hhandle⟩
  | bootstrap handle args => exact Pool.bootstrap_spec h hrun
  | invokeDynamic bsm name desc => exact Pool.invokeDynamic_spec h hrun

/-- Asking again for what is known changes nothing. -/
theorem Interned.run_eq {pool : Pool} {i : ℕ} {op : PoolOp} (h : op.Interned pool i) :
    op.run pool = some (i, pool) := by
  cases op with
  | utf8 | classRef | string | integer | float | long | double | methodType =>
    exact Pool.cached_hit h
  | nameAndType name desc => exact Pool.nat_hit h
  | fieldref owner name desc => exact Pool.memberRef_hit h
  | methodref owner name desc => exact Pool.memberRef_hit h
  | ifaceRef owner name desc => exact Pool.memberRef_hit h
  | methodHandleStatic owner name desc iface =>
    obtain ⟨r, hr, hhandle⟩ := h
    have hmember : Pool.staticRef owner name desc iface pool = some (r, pool) := by
      cases iface with
      | true => exact Pool.memberRef_hit hr
      | false => exact Pool.memberRef_hit hr
    rw [run, Pool.methodHandleStatic, PoolM.bind_of_some hmember]
    exact Pool.cached_hit hhandle
  | methodHandle kind reference => exact Pool.cached_hit h.2
  | bootstrap handle args =>
    have hi : pool.bootstrapIndex (handle.toNat, args.map UInt16.toNat) = some i := h
    rw [run, Pool.bootstrap, hi]
  | invokeDynamic bsm name desc =>
    obtain ⟨n, hn, hdyn⟩ := h
    rw [run, Pool.invokeDynamic, PoolM.bind_of_some (Pool.nat_hit hn)]
    exact Pool.cached_hit hdyn

end PoolOp

/-- The indices a sequence of operations returns, and the pool after it. -/
def runOps : List PoolOp → PoolM (List ℕ)
  | [] => pure []
  | op :: ops => do
    let i ← op.run
    let results ← runOps ops
    pure (i :: results)

/-- Method handles are made from indices of members, returned before. -/
def HandlesFrom (known : List ℕ) : List PoolOp → List ℕ → Prop
  | op :: ops, i :: results =>
    (∀ kind reference, op = .methodHandle kind reference → reference.toNat ∈ known) ∧
      HandlesFrom (if op.isMemberRef then i :: known else known) ops results
  | _, _ => True

/-- What is known of the indices of members. -/
def KnownRefs (pool : Pool) (known : List ℕ) : Prop :=
  ∀ r ∈ known, ∃ tag c n, pool.index (.refs tag c n) = some r

theorem KnownRefs.step {pool pool' : Pool} {known : List ℕ} (h : KnownRefs pool known)
    (hnext : pool.Next pool') {op : PoolOp} {i : ℕ} (hi : op.Interned pool' i) :
    KnownRefs pool' (if op.isMemberRef then i :: known else known) := by
  have hknown : KnownRefs pool' known := by
    intro r hr
    obtain ⟨tag, c, n, href⟩ := h r hr
    exact ⟨tag, c, n, hnext.index _ _ href⟩
  by_cases hmember : op.isMemberRef = true
  · rw [if_pos hmember]
    have href : ∃ tag c n, pool'.index (.refs tag c n) = some i := by
      cases op <;> try cases hmember
      · obtain ⟨c, n, -, -, href⟩ := hi
        exact ⟨9, c, n, href⟩
      · obtain ⟨c, n, -, -, href⟩ := hi
        exact ⟨10, c, n, href⟩
      · obtain ⟨c, n, -, -, href⟩ := hi
        exact ⟨11, c, n, href⟩
    intro r hr
    rcases List.mem_cons.mp hr with rfl | hr
    · exact href
    · exact hknown r hr
  · rw [if_neg hmember]
    exact hknown

/-- A run keeps the pool valid, and all its results stay known. -/
theorem runOps_spec (ops : List PoolOp) {pool pool' : Pool} {known results : List ℕ}
    (h : pool.Valid) (hknown : KnownRefs pool known) (hhandles : HandlesFrom known ops results)
    (hrun : runOps ops pool = some (results, pool')) :
    pool.Next pool' ∧ List.Forall₂ (fun op i => op.Interned pool' i) ops results := by
  induction ops generalizing pool known results with
  | nil =>
    obtain ⟨rfl, rfl⟩ := Prod.mk.inj (Option.some.inj hrun)
    exact ⟨.refl h, List.Forall₂.nil⟩
  | cons op ops ih =>
    obtain ⟨i, pool₁, hop, hrun⟩ := PoolM.bind_eq_some.mp hrun
    obtain ⟨rest, pool₂, hops, hrun⟩ := PoolM.bind_eq_some.mp hrun
    obtain ⟨rfl, rfl⟩ := Prod.mk.inj (Option.some.inj hrun)
    obtain ⟨href, hrest⟩ := hhandles
    obtain ⟨hnext, hi⟩ := PoolOp.run_spec h
      (fun kind reference hop => hknown _ (href kind reference hop)) hop
    obtain ⟨hnexts, hresults⟩ := ih hnext.valid (hknown.step hnext hi) hrest hops
    exact ⟨hnext.trans hnexts, hresults.cons (hi.mono hnexts)⟩

end ScalaRs.Classfile
