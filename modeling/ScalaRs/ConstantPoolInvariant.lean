import ScalaRs.ConstantPool

/-! # What the pool's bytes hold

The bytes of a pool are a sequence of well-formed entries. Every index the maps
know is that of an entry for its key, whose own references point back to entries
for keys of the right kind, and every entry has a key. -/
namespace ScalaRs.Classfile
open ModifiedUtf8 ClassfileCursors

abbrev Slot := UInt8 × List UInt8

def entryBytes (e : Slot) : List UInt8 :=
  if e.1 = 1 then e.1 :: be2 e.2.length ++ e.2 else e.1 :: e.2

/-- The slots of an entry. -/
def slotsOf (e : Slot) : List Slot := if e.1 ∈ [5, 6] then [e, (0, [])] else [e]

def WellFormed (e : Slot) : Prop :=
  (e.1 = 1 ∧ e.2.length < 65536) ∨ (e.1 ∈ [7, 8, 16] ∧ e.2.length = 2) ∨
  (e.1 ∈ [3, 4, 9, 10, 11, 12, 18] ∧ e.2.length = 4) ∨ (e.1 ∈ [5, 6] ∧ e.2.length = 8) ∨
  (e.1 = 15 ∧ e.2.length = 3)

/-- The constant pool of a sequence of entries. -/
def cpOf (es : List Slot) : Cp := ⟨(0, []) :: es.flatMap slotsOf⟩

/-! ## Parsing entries -/

theorem parses_pair {data : List UInt8} (h : data.length = 2) :
    Parses (do
      let a ← Cursor.u2
      pure (be2 a)) data data := by
  obtain ⟨n, hn, hread⟩ := exists_be2 h
  apply hread.then
  rw [← hn]
  exact Parses.pure data

theorem parses_two_pairs {data : List UInt8} (h : data.length = 4) :
    Parses (do
      let a ← Cursor.u2
      let b ← Cursor.u2
      pure (be2 a ++ be2 b)) data data := by
  have hsplit : data = data.take 2 ++ data.drop 2 := (List.take_append_drop 2 data).symm
  have hfirst : (data.take 2).length = 2 := by simp [h]
  have hsecond : (data.drop 2).length = 2 := by simp [h]
  obtain ⟨a, ha, hreada⟩ := exists_be2 hfirst
  obtain ⟨b, hb, hreadb⟩ := exists_be2 hsecond
  rw [hsplit]
  apply hreada.bind
  apply hreadb.then
  rw [← ha, ← hb]
  exact Parses.pure _

theorem parses_handle {data : List UInt8} (h : data.length = 3) :
    Parses (do
      let kind ← Cursor.u1
      let a ← Cursor.u2
      pure (kind :: be2 a)) data data := by
  cases data with
  | nil => cases h
  | cons kind data =>
    have hlen : data.length = 2 := by simpa using h
    obtain ⟨a, ha, hread⟩ := exists_be2 hlen
    apply parses_u1_bind
    apply hread.then
    rw [← ha]
    exact Parses.pure _

theorem parses_data {tag : UInt8} {data : List UInt8} (h : WellFormed (tag, data)) (hne : tag ≠ 1) :
    Parses (parseData tag) data data := by
  unfold parseData
  rw [if_neg hne]
  rcases h with ⟨htag, -⟩ | ⟨htag, hlen⟩ | ⟨htag, hlen⟩ | ⟨htag, hlen⟩ | ⟨htag, hlen⟩
  · exact absurd htag hne
  · have h1 : tag ∈ [7, 8, 16, 19, 20] := by
      simp only [List.mem_cons, List.not_mem_nil, or_false] at htag ⊢
      rcases htag with h | h | h <;> simp [h]
    rw [if_pos h1]
    exact parses_pair hlen
  · simp only [List.mem_cons, List.not_mem_nil, or_false] at htag
    have h1 : tag ∉ [7, 8, 16, 19, 20] := by
      rcases htag with h | h | h | h | h | h | h <;> rw [h] <;> decide
    have h2 : tag ∈ [3, 4, 9, 10, 11, 12, 17, 18] := by
      rcases htag with h | h | h | h | h | h | h <;> rw [h] <;> decide
    rw [if_neg h1, if_pos h2]
    exact parses_two_pairs hlen
  · simp only [List.mem_cons, List.not_mem_nil, or_false] at htag
    have h1 : tag ∉ [7, 8, 16, 19, 20] := by rcases htag with h | h <;> rw [h] <;> decide
    have h2 : tag ∉ [3, 4, 9, 10, 11, 12, 17, 18] := by
      rcases htag with h | h <;> rw [h] <;> decide
    have h3 : tag ∈ [5, 6] := by rcases htag with h | h <;> rw [h] <;> decide
    rw [if_neg h1, if_neg h2, if_pos h3]
    have hbytes := parses_bytes data
    rwa [show data.length = 8 from hlen] at hbytes
  · have htag : tag = 15 := htag
    subst htag
    rw [if_neg (by decide), if_neg (by decide), if_neg (by decide), if_pos rfl]
    exact parses_handle hlen

theorem parses_entry {e : Slot} (h : WellFormed e) : Parses parseEntry (entryBytes e) e := by
  obtain ⟨tag, data⟩ := e
  unfold entryBytes
  by_cases htag : tag = 1
  · subst htag
    have hlen : data.length < 65536 := by
      rcases h with ⟨-, hlen⟩ | ⟨htag, -⟩ | ⟨htag, -⟩ | ⟨htag, -⟩ | ⟨htag, -⟩
      · exact hlen
      · simp at htag
      · simp at htag
      · simp at htag
      · simp at htag
    have hread : Parses (parseData 1) (be2 data.length ++ data) data := by
      rw [parseData, if_pos rfl]
      exact (parses_u2 hlen).bind (parses_bytes data)
    apply parses_u1_bind
    apply hread.then
    exact Parses.pure _
  · rw [if_neg htag]
    apply parses_u1_bind
    apply (parses_data h htag).then
    exact Parses.pure _

theorem slotsOf_ne_nil (e : Slot) : slotsOf e ≠ [] := by
  unfold slotsOf
  split <;> simp

theorem parses_slots {es : List Slot} (h : ∀ e ∈ es, WellFormed e) :
    Parses (parseSlots (es.flatMap slotsOf).length) (es.flatMap entryBytes) (es.flatMap slotsOf) := by
  induction es with
  | nil => exact Parses.pure _
  | cons e es ih =>
    have hes := ih fun d hd => h d (List.mem_cons_of_mem _ hd)
    have he := parses_entry (h e List.mem_cons_self)
    rw [List.flatMap_cons, List.flatMap_cons]
    by_cases htwo : e.1 ∈ [5, 6]
    · rw [slotsOf, if_pos htwo]
      change Parses (parseSlots ((es.flatMap slotsOf).length + 2)) _ (e :: (0, []) :: _)
      rw [parseSlots]
      apply he.bind
      rw [if_pos htwo]
      apply hes.then
      exact Parses.pure _
    · rw [slotsOf, if_neg htwo]
      change Parses (parseSlots ((es.flatMap slotsOf).length + 1)) _ (e :: _)
      cases hlen : (es.flatMap slotsOf).length with
      | zero =>
        rw [hlen] at hes
        have hnil : es = [] := by
          cases es with
          | nil => rfl
          | cons d es =>
            have hflat := List.length_eq_zero_iff.mp hlen
            rw [List.flatMap_cons] at hflat
            exact absurd (List.append_eq_nil_iff.mp hflat).1 (slotsOf_ne_nil d)
        subst hnil
        rw [parseSlots]
        apply he.bind
        exact Parses.pure _
      | succ n =>
        rw [hlen] at hes
        rw [parseSlots]
        apply he.bind
        rw [if_neg htwo]
        apply hes.then
        exact Parses.pure _

/-- The counter of a pool with these entries. -/
def countOf (es : List Slot) : ℕ := 1 + (es.flatMap slotsOf).length

theorem parses_cp {es : List Slot} (h : ∀ e ∈ es, WellFormed e) (hcount : countOf es < 65536) :
    Parses parseCp (be2 (countOf es) ++ es.flatMap entryBytes) (cpOf es) := by
  apply (parses_u2 hcount).bind
  have hne : countOf es ≠ 0 := by
    rw [countOf]
    omega
  have hslots : countOf es - 1 = (es.flatMap slotsOf).length := by
    rw [countOf]
    omega
  rw [if_neg hne, hslots]
  apply (parses_slots h).then
  exact Parses.pure _

/-! ## Entries of the pool -/

def Cp.At (cp : Cp) (i : ℕ) (tag : UInt8) (data : List UInt8) : Prop :=
  cp.slots[i]? = some (tag, data)

theorem slots_append (es more : List Slot) :
    (cpOf (es ++ more)).slots = (cpOf es).slots ++ more.flatMap slotsOf := by
  rw [cpOf, cpOf, List.flatMap_append, List.cons_append]

theorem Cp.At.append {es : List Slot} {i : ℕ} {tag : UInt8} {data : List UInt8}
    (h : (cpOf es).At i tag data) (more : List Slot) : (cpOf (es ++ more)).At i tag data := by
  obtain ⟨hlt, -⟩ := List.getElem?_eq_some_iff.mp h
  rw [Cp.At, slots_append, List.getElem?_append_left hlt]
  exact h

/-- An entry in use is an old one or the new one, at the old counter. -/
theorem Cp.At.of_concat {es : List Slot} {e : Slot} {i : ℕ} {tag : UInt8} {data : List UInt8}
    (h : (cpOf (es ++ [e])).At i tag data) (htag : tag ≠ 0) :
    (cpOf es).At i tag data ∨ (i = countOf es ∧ e = (tag, data)) := by
  rw [Cp.At, slots_append, List.flatMap_singleton] at h
  by_cases hlt : i < (cpOf es).slots.length
  · rw [List.getElem?_append_left hlt] at h
    exact Or.inl h
  · rw [List.getElem?_append_right (by omega)] at h
    obtain ⟨hlast, hget⟩ := List.getElem?_eq_some_iff.mp h
    have hlen : (cpOf es).slots.length = countOf es := by
      rw [cpOf, countOf, List.length_cons, Nat.add_comm]
    rcases hk : i - (cpOf es).slots.length with _ | k
    · rw [hk] at h
      refine Or.inr ⟨by omega, ?_⟩
      unfold slotsOf at h
      split at h <;> exact Option.some.inj h
    · rw [hk] at h
      unfold slotsOf at h
      split at h
      · cases k with
        | zero => exact absurd (congrArg Prod.fst (Option.some.inj h)).symm htag
        | succ k => cases h
      · cases h

/-- The next index is that of the next entry. -/
theorem at_countOf (es : List Slot) (e : Slot) :
    (cpOf (es ++ [e])).At (countOf es) e.1 e.2 := by
  rw [Cp.At, cpOf, List.flatMap_append, ← List.cons_append, List.getElem?_append_right]
  · rw [countOf, List.length_cons, Nat.add_comm, Nat.sub_self, List.flatMap_singleton, slotsOf]
    split <;> rfl
  · rw [countOf, List.length_cons]
    omega

/-- The slot after a long or a double is not used. -/
theorem at_countOf_succ (es : List Slot) {e : Slot} (h : e.1 ∈ [5, 6]) :
    (cpOf (es ++ [e])).At (countOf es + 1) 0 [] := by
  rw [Cp.At, cpOf, List.flatMap_append, ← List.cons_append, List.getElem?_append_right]
  · rw [countOf, List.length_cons, List.flatMap_singleton, slotsOf, if_pos h,
      show 1 + (es.flatMap slotsOf).length + 1 - ((es.flatMap slotsOf).length + 1) = 1 by omega]
    rfl
  · rw [countOf, List.length_cons]
    omega

def PoolKey.tag : PoolKey → UInt8
  | .utf8 _ => 1
  | .classes _ => 7
  | .string _ => 8
  | .nat _ _ => 12
  | .refs tag _ _ => tag
  | .ints _ => 3
  | .floats _ => 4
  | .longs _ => 5
  | .doubles _ => 6
  | .methodTypes _ => 16
  | .methodHandles _ _ => 15
  | .invokeDynamics _ _ => 18

/-- The data of the entry for a key at `i`, whose references are the indices of
keys of the right kind, before `i`. -/
def PoolKey.Data (index : PoolKey → Option ℕ) (i : ℕ) : PoolKey → List UInt8 → Prop
  | .utf8 s, data => data = modifiedUtf8Bytes s ∧ data.length ≤ MAX_UTF8_CONST
  | .classes s, data | .string s, data | .methodTypes s, data =>
    ∃ u, index (.utf8 s) = some u ∧ u < i ∧ data = be2 u
  | .nat n d, data => n < i ∧ d < i ∧ data = be2 n ++ be2 d ∧
    ∃ name desc, index (.utf8 name) = some n ∧ index (.utf8 desc) = some d
  | .refs tag c n, data => tag ∈ [9, 10, 11] ∧ c < i ∧ n < i ∧ data = be2 c ++ be2 n ∧
    ∃ owner a b, index (.classes owner) = some c ∧ index (.nat a b) = some n
  | .ints v, data | .floats v, data => data = be4 v.toNat
  | .longs v, data | .doubles v, data => data = Pool.be8 v.toNat
  | .methodHandles kind r, data => r < i ∧ data = kind :: be2 r ∧
    ∃ tag c n, index (.refs tag c n) = some r
  | .invokeDynamics b n, data => n < i ∧ data = be2 b ++ be2 n ∧
    ∃ name desc, index (.nat name desc) = some n

/-- Every index known before is known after. -/
def Grows (index index' : PoolKey → Option ℕ) : Prop :=
  ∀ key i, index key = some i → index' key = some i

theorem PoolKey.Data.mono {index index' : PoolKey → Option ℕ} (hgrows : Grows index index') {i : ℕ}
    {key : PoolKey} {data : List UInt8} (h : key.Data index i data) : key.Data index' i data := by
  cases key with
  | utf8 s => exact h
  | classes s =>
    obtain ⟨u, hu, hlt, hdata⟩ := h
    exact ⟨u, hgrows _ _ hu, hlt, hdata⟩
  | string s =>
    obtain ⟨u, hu, hlt, hdata⟩ := h
    exact ⟨u, hgrows _ _ hu, hlt, hdata⟩
  | methodTypes s =>
    obtain ⟨u, hu, hlt, hdata⟩ := h
    exact ⟨u, hgrows _ _ hu, hlt, hdata⟩
  | nat n d =>
    obtain ⟨hn, hd, hdata, name, desc, hname, hdesc⟩ := h
    exact ⟨hn, hd, hdata, name, desc, hgrows _ _ hname, hgrows _ _ hdesc⟩
  | refs tag c n =>
    obtain ⟨htag, hc, hn, hdata, owner, a, b, howner, hnat⟩ := h
    exact ⟨htag, hc, hn, hdata, owner, a, b, hgrows _ _ howner, hgrows _ _ hnat⟩
  | ints v => exact h
  | floats v => exact h
  | longs v => exact h
  | doubles v => exact h
  | methodHandles kind r =>
    obtain ⟨hr, hdata, tag, c, n, href⟩ := h
    exact ⟨hr, hdata, tag, c, n, hgrows _ _ href⟩
  | invokeDynamics b n =>
    obtain ⟨hn, hdata, name, desc, hnat⟩ := h
    exact ⟨hn, hdata, name, desc, hgrows _ _ hnat⟩

theorem length_be8 (n : ℕ) : (Pool.be8 n).length = 8 := rfl

theorem PoolKey.Data.wellFormed {index : PoolKey → Option ℕ} {i : ℕ} {key : PoolKey}
    {data : List UInt8} (h : key.Data index i data) : WellFormed (key.tag, data) := by
  unfold WellFormed
  cases key with
  | utf8 s =>
    have hlen := h.2
    rw [MAX_UTF8_CONST] at hlen
    exact Or.inl ⟨rfl, by dsimp only; omega⟩
  | classes s =>
    obtain ⟨u, -, -, rfl⟩ := h
    exact Or.inr (Or.inl ⟨by simp [PoolKey.tag], rfl⟩)
  | string s =>
    obtain ⟨u, -, -, rfl⟩ := h
    exact Or.inr (Or.inl ⟨by simp [PoolKey.tag], rfl⟩)
  | methodTypes s =>
    obtain ⟨u, -, -, rfl⟩ := h
    exact Or.inr (Or.inl ⟨by simp [PoolKey.tag], rfl⟩)
  | nat n d =>
    obtain ⟨-, -, rfl, -⟩ := h
    exact Or.inr (Or.inr (Or.inl ⟨by simp [PoolKey.tag], rfl⟩))
  | refs tag c n =>
    obtain ⟨htag, -, -, rfl, -⟩ := h
    refine Or.inr (Or.inr (Or.inl ⟨?_, rfl⟩))
    simp only [List.mem_cons, List.not_mem_nil, or_false] at htag
    rcases htag with rfl | rfl | rfl <;> simp [PoolKey.tag]
  | ints v =>
    obtain rfl := h
    exact Or.inr (Or.inr (Or.inl ⟨by simp [PoolKey.tag], rfl⟩))
  | floats v =>
    obtain rfl := h
    exact Or.inr (Or.inr (Or.inl ⟨by simp [PoolKey.tag], rfl⟩))
  | longs v =>
    obtain rfl := h
    exact Or.inr (Or.inr (Or.inr (Or.inl ⟨by simp [PoolKey.tag], rfl⟩)))
  | doubles v =>
    obtain rfl := h
    exact Or.inr (Or.inr (Or.inr (Or.inl ⟨by simp [PoolKey.tag], rfl⟩)))
  | methodHandles kind r =>
    obtain ⟨-, rfl, -⟩ := h
    exact Or.inr (Or.inr (Or.inr (Or.inr ⟨rfl, rfl⟩)))
  | invokeDynamics b n =>
    obtain ⟨-, rfl, -⟩ := h
    exact Or.inr (Or.inr (Or.inl ⟨by simp [PoolKey.tag], rfl⟩))

/-- The pool's bytes are these entries, and its maps know where they are. -/
structure Pool.Sound (pool : Pool) (es : List Slot) : Prop where
  bytes : pool.bytes = es.flatMap entryBytes
  count : pool.count = countOf es
  wellFormed : ∀ e ∈ es, WellFormed e
  index : ∀ key i, pool.index key = some i →
    ∃ data, key.Data pool.index i data ∧ (cpOf es).At i key.tag data ∧
      (key.tag ∈ [5, 6] → (cpOf es).At (i + 1) 0 [])
  known : ∀ i tag data, (cpOf es).At i tag data → tag ≠ 0 →
    ∃ key, pool.index key = some i ∧ key.tag = tag ∧ key.Data pool.index i data

theorem Pool.sound_new : Pool.new.Sound [] where
  bytes := rfl
  count := rfl
  wellFormed := by simp
  index := fun _ _ h => nomatch h
  known := by
    intro i tag data hat htag
    obtain ⟨hlt, hget⟩ := List.getElem?_eq_some_iff.mp hat
    have hi : i = 0 := by
      have hlen : (cpOf []).slots.length = 1 := rfl
      omega
    subst hi
    exact absurd (congrArg Prod.fst hget).symm htag

theorem Pool.Sound.lt_count {pool : Pool} {es : List Slot} (h : pool.Sound es) {key : PoolKey}
    {i : ℕ} (hi : pool.index key = some i) : i < pool.count := by
  obtain ⟨data, -, hat, -⟩ := h.index key i hi
  obtain ⟨hlt, -⟩ := List.getElem?_eq_some_iff.mp hat
  rw [h.count, countOf]
  rw [cpOf, List.length_cons] at hlt
  omega

/-- Adding the entry for a key that has none. -/
theorem Pool.Sound.add {pool : Pool} {es : List Slot} (h : pool.Sound es) {key : PoolKey}
    {data : List UInt8} (hnone : pool.index key = none)
    (hdata : key.Data pool.index pool.count data) :
    ∃ pool', Pool.add key (entryBytes (key.tag, data)) (slotsOf (key.tag, data)).length pool =
        some (pool.count, pool') ∧ pool'.Sound (es ++ [(key.tag, data)]) ∧
      Grows pool.index pool'.index ∧ pool'.index key = some pool.count := by
  have hgrows : Grows pool.index (Function.update pool.index key (some pool.count)) := by
    intro k i hk
    have hne : k ≠ key := by
      intro heq
      rw [heq, hnone] at hk
      cases hk
    rw [Function.update_of_ne hne]
    exact hk
  have hat := at_countOf es (key.tag, data)
  rw [← h.count] at hat
  refine ⟨_, rfl, ⟨?_, ?_, ?_, ?_, ?_⟩, hgrows, Function.update_self _ _ _⟩
  · simp [h.bytes]
  · simp [h.count, countOf, Nat.add_assoc]
  · intro e he
    rcases List.mem_append.mp he with he | he
    · exact h.wellFormed e he
    · rw [List.mem_singleton.mp he]
      exact hdata.wellFormed
  · intro k i hk
    by_cases heq : k = key
    · subst heq
      simp only [Function.update_self, Option.some.injEq] at hk
      subst hk
      refine ⟨data, hdata.mono hgrows, hat, ?_⟩
      intro htwo
      rw [h.count]
      exact at_countOf_succ es htwo
    · simp only [Function.update_of_ne heq] at hk
      obtain ⟨d, hd, hkat, htwo⟩ := h.index k i hk
      exact ⟨d, hd.mono hgrows, hkat.append _, fun ht => (htwo ht).append _⟩
  · intro i tag d hiat htag
    rcases hiat.of_concat htag with hold | ⟨hi, hnew⟩
    · obtain ⟨k, hk, hktag, hkdata⟩ := h.known i tag d hold htag
      exact ⟨k, hgrows k i hk, hktag, hkdata.mono hgrows⟩
    · obtain ⟨rfl, rfl⟩ := Prod.mk.inj hnew
      rw [hi, ← h.count]
      exact ⟨key, Function.update_self _ _ _, rfl, hdata.mono hgrows⟩

end ScalaRs.Classfile
