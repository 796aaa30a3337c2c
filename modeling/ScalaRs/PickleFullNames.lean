import ScalaRs.PickleReaderSafety
import ScalaRs.PickleWriter

/-! # Full names of the symbols of a pickle

A full name is worked out along the owners of an entry and kept in a slot of its
own. The walk gives up at a fixed depth, counted from the entry that was asked for,
and what it gave up on is kept as well. -/
namespace ScalaRs.Pickling
open CheckedReaders CheckedM

/-- The `SymInfo` of any non-external symbol entry. -/
def Entry.symInfo : Entry → Option SymInfo
  | .TypeSym info => some info
  | .AliasSym info => some info
  | .ClassSym info _ => some info
  | .ModuleSym info _ => some info
  | .ValSym info _ => some info
  | _ => none

namespace Pickle

def entry (p : Pickle) (i : Idx) : Option Entry := p.entries[i.toNat]?

/-- Text of a `TERMname` or `TYPEname` entry. -/
def name (p : Pickle) (i : Idx) : Option String :=
  match p.entry i with
  | some (.TermName s) => some s
  | some (.TypeName s) => some s
  | _ => none

def symName (p : Pickle) (i : Idx) : Option String :=
  match p.entry i with
  | none => none
  | some (.ExtRef name _) => p.name name
  | some (.ExtModClassRef name _) => p.name name
  | some e =>
    match e.symInfo with
    | none => none
    | some info => p.name info.name

def symOwner (p : Pickle) (i : Idx) : Option Idx :=
  match p.entry i with
  | none => none
  | some (.ExtRef _ owner) => owner
  | some (.ExtModClassRef _ owner) => owner
  | some e =>
    match e.symInfo with
    | none => none
    | some info => some info.owner

/-- An owner chain longer than this is not a name. -/
def MAX_DEPTH : ℕ := 64

def isRootName (n : String) : Bool := n == "<root>" || n == "<empty>"

/-- The name of a symbol below an owner of this full name. -/
def joinName (above n : String) : String := if above.isEmpty then n else above ++ "." ++ n

/-- Keeps a name in the slot of the entry unless the slot is taken, and returns what
the slot then holds. -/
def getOrInit (p : Pickle) (i : Idx) (name : Option String) : Option String × Pickle :=
  match p.fullNames[i.toNat]? with
  | some (some known) => (known, p)
  | _ => (name, { p with fullNames := p.fullNames.set i.toNat (some name) })

/-- `full_name_at` from the depth at which `fuel` more owners are allowed. -/
def fullNameAt : ℕ → Idx → Pickle → Option String × Pickle
  | fuel, i, p =>
    match p.fullNames[i.toNat]? with
    | none => (none, p)
    | some (some known) => (known, p)
    | some none =>
      match fuel with
      | 0 => (none, p)
      | fuel + 1 =>
        match p.symName i with
        | none => p.getOrInit i none
        | some n =>
          if isRootName n then p.getOrInit i (some "")
          else
            match p.symOwner i with
            | none => p.getOrInit i (some n)
            | some owner =>
              let above := fullNameAt fuel owner p
              above.2.getOrInit i (above.1.map fun above => joinName above n)

/-- Dotted name of a symbol, walking owners up to the root. -/
def symFullName (p : Pickle) (i : Idx) : Option String × Pickle := fullNameAt MAX_DEPTH i p

/-- The pickle after these queries. -/
def queried (p : Pickle) (queries : List Idx) : Pickle :=
  queries.foldl (fun p i => (p.symFullName i).2) p

end Pickle

/-! ## Owner chains -/

/-- The entry has this full name, through a chain of that many entries. -/
inductive FullName (p : Pickle) : Idx → String → ℕ → Prop
  | root {i : Idx} {n : String} (hn : p.symName i = some n) (hr : Pickle.isRootName n = true) :
      FullName p i "" 1
  | top {i : Idx} {n : String} (hn : p.symName i = some n) (hr : Pickle.isRootName n = false)
      (ho : p.symOwner i = none) : FullName p i n 1
  | owned {i owner : Idx} {n above : String} {k : ℕ} (hn : p.symName i = some n)
      (hr : Pickle.isRootName n = false) (ho : p.symOwner i = some owner)
      (h : FullName p owner above k) : FullName p i (Pickle.joinName above n) (k + 1)

theorem FullName.unique {p : Pickle} {i : Idx} {s t : String} {k l : ℕ} (h : FullName p i s k)
    (h' : FullName p i t l) : s = t ∧ k = l := by
  induction h generalizing t l with
  | root hn hr =>
    cases h' with
    | root => exact ⟨rfl, rfl⟩
    | top hn' hr' => simp_all
    | owned hn' hr' => simp_all
  | top hn hr ho =>
    cases h' with
    | root hn' hr' => simp_all
    | top hn' hr' ho' => simp_all
    | owned hn' hr' ho' => simp_all
  | owned hn hr ho h ih =>
    cases h' with
    | root hn' hr' => simp_all
    | top hn' hr' ho' => simp_all
    | owned hn' hr' ho' h' =>
      have hown := Option.some.inj (ho.symm.trans ho')
      subst hown
      obtain ⟨rfl, rfl⟩ := ih h'
      have hnn := Option.some.inj (hn.symm.trans hn')
      exact ⟨by rw [hnn], rfl⟩

theorem FullName.pos {p : Pickle} {i : Idx} {s : String} {k : ℕ} (h : FullName p i s k) : 0 < k := by
  cases h <;> omega

/-- The entries of an owner chain below a longer one. -/
theorem FullName.exists_of_le {p : Pickle} {i : Idx} {s : String} {k l : ℕ} (h : FullName p i s k)
    (hl : 0 < l) (hlk : l ≤ k) : ∃ j t, FullName p j t l := by
  induction h with
  | root hn hr =>
    obtain rfl : l = 1 := by omega
    exact ⟨_, _, .root hn hr⟩
  | top hn hr ho =>
    obtain rfl : l = 1 := by omega
    exact ⟨_, _, .top hn hr ho⟩
  | @owned i owner n above k hn hr ho h ih =>
    by_cases hlt : l ≤ k
    · exact ih hlt
    · obtain rfl : l = k + 1 := by omega
      exact ⟨_, _, .owned hn hr ho h⟩

theorem FullName.congr {p q : Pickle} (he : p.entries = q.entries) {i : Idx} {s : String} {k : ℕ}
    (h : FullName p i s k) : FullName q i s k := by
  have hentry : ∀ i, q.entry i = p.entry i := by simp [Pickle.entry, he]
  have hname : ∀ i, q.symName i = p.symName i := by simp [Pickle.symName, Pickle.name, hentry]
  have howner : ∀ i, q.symOwner i = p.symOwner i := by simp [Pickle.symOwner, hentry]
  induction h with
  | root hn hr => exact .root (by rw [hname, hn]) hr
  | top hn hr ho => exact .top (by rw [hname, hn]) hr (by rw [howner, ho])
  | owned hn hr ho _ ih => exact .owned (by rw [hname, hn]) hr (by rw [howner, ho]) ih

/-- This is the answer the owners of the entry give, however many they are. -/
def IsName (p : Pickle) (i : Idx) (name : Option String) : Prop :=
  ∀ s, name = some s ↔ ∃ k, FullName p i s k

theorem IsName.unique {p : Pickle} {i : Idx} {v w : Option String} (hv : IsName p i v)
    (hw : IsName p i w) : v = w := by
  apply Option.ext
  intro s
  rw [hv s, hw s]

/-- Every slot that is taken holds the name of its entry. -/
structure Kept (p q : Pickle) : Prop where
  entries : q.entries = p.entries
  length : q.fullNames.length = p.entries.length
  names : ∀ (i : Idx) (name : Option String),
    q.fullNames[i.toNat]? = some (some name) → IsName p i name

theorem Kept.symName {p q : Pickle} (h : Kept p q) (i : Idx) : q.symName i = p.symName i := by
  simp [Pickle.symName, Pickle.name, Pickle.entry, h.entries]

theorem Kept.symOwner {p q : Pickle} (h : Kept p q) (i : Idx) : q.symOwner i = p.symOwner i := by
  simp [Pickle.symOwner, Pickle.entry, h.entries]

theorem Kept.getOrInit {p q : Pickle} (h : Kept p q) {i : Idx} {name : Option String}
    (hn : IsName p i name) :
    IsName p i (q.getOrInit i name).1 ∧ Kept p (q.getOrInit i name).2 := by
  unfold Pickle.getOrInit
  split
  · exact ⟨h.names i _ ‹_›, h⟩
  · refine ⟨hn, h.entries, by simpa using h.length, ?_⟩
    intro j w hj
    by_cases hij : i = j
    · subst hij
      rw [List.getElem?_set_self'] at hj
      cases hq : q.fullNames[i.toNat]? with
      | none => simp [hq] at hj
      | some v =>
        obtain rfl : name = w := by simpa [hq] using hj
        exact hn
    · have hne : i.toNat ≠ j.toNat := fun he => hij (UInt32.toNat_inj.mp he)
      rw [List.getElem?_set_ne hne] at hj
      exact h.names j w hj

theorem isName_none {p : Pickle} {i : Idx} (h : ∀ s k, ¬ FullName p i s k) : IsName p i none := by
  intro s
  simp [h s]

theorem isName_of_fullName {p : Pickle} {i : Idx} {s : String} {k : ℕ} (h : FullName p i s k) :
    IsName p i (some s) := by
  intro t
  constructor
  · intro ht
    exact ⟨k, Option.some.inj ht ▸ h⟩
  · rintro ⟨l, ht⟩
    rw [(h.unique ht).1]

/-- While no owner chain from here is longer than the depth that is left, the walk
answers with the name and keeps only names. -/
theorem fullNameAt_spec {p q : Pickle} (hq : Kept p q) {fuel : ℕ} {i : Idx}
    (hshort : ∀ s k, FullName p i s k → k ≤ fuel) :
    IsName p i (Pickle.fullNameAt fuel i q).1 ∧ Kept p (Pickle.fullNameAt fuel i q).2 := by
  induction fuel generalizing i q with
  | zero =>
    have hnone : IsName p i none := by
      apply isName_none
      intro s k h
      have := hshort s k h
      have := h.pos
      omega
    unfold Pickle.fullNameAt
    split
    · exact ⟨hnone, hq⟩
    · exact ⟨hq.names i _ ‹_›, hq⟩
    · exact ⟨hnone, hq⟩
  | succ fuel ih =>
    unfold Pickle.fullNameAt
    split
    · rename_i hslot
      refine ⟨isName_none ?_, hq⟩
      -- an entry without a slot is no entry
      have hentry : p.symName i = none := by
        have hlen : p.entries.length ≤ i.toNat := by
          rw [← hq.length]
          simpa using hslot
        simp [Pickle.symName, Pickle.entry, List.getElem?_eq_none hlen]
      intro s k h
      cases h <;> simp_all
    · exact ⟨hq.names i _ ‹_›, hq⟩
    rw [hq.symName, hq.symOwner]
    cases hn : p.symName i with
    | none =>
      apply hq.getOrInit
      apply isName_none
      intro s k h
      cases h <;> simp_all
    | some n =>
      cases hr : Pickle.isRootName n with
      | true =>
        simp only [hr, ↓reduceIte]
        exact hq.getOrInit (isName_of_fullName (.root hn hr))
      | false =>
        simp only [hr, Bool.false_eq_true, ↓reduceIte]
        cases ho : p.symOwner i with
        | none => exact hq.getOrInit (isName_of_fullName (.top hn hr ho))
        | some owner =>
          have hbelow : ∀ s k, FullName p owner s k → k ≤ fuel := by
            intro s k h
            have := hshort _ _ (.owned hn hr ho h)
            omega
          obtain ⟨habove, hkept⟩ := ih hq hbelow
          apply hkept.getOrInit
          cases ha : (Pickle.fullNameAt fuel owner q).1 with
          | none =>
            apply isName_none
            intro s k h
            cases h with
            | root hn' hr' => simp_all
            | top _ _ ho' => simp_all
            | owned _ _ ho' h' =>
              obtain rfl := Option.some.inj (ho.symm.trans ho')
              have := (habove _).mpr ⟨_, h'⟩
              simp [ha] at this
          | some above =>
            obtain ⟨k, hk⟩ := (habove above).mp ha
            exact isName_of_fullName (.owned hn hr ho hk)

theorem readPickle_fullNames [Build] {bytes : Slice} {p : Pickle} (h : readPickle bytes = .ok p) :
    p.fullNames = p.entries.map fun _ => none := by
  have hrun : ∀ {result : Except (Stop ReadError) (Pickle × Reader)},
      Prod.fst <$> result = .ok p → ∃ r, result = .ok (p, r) := by
    intro result h
    cases result with
    | error e => cases h
    | ok r =>
      cases h
      exact ⟨r.2, rfl⟩
  obtain ⟨s, h⟩ := hrun h
  obtain ⟨header, r, -, h⟩ := bind_eq_ok h
  obtain ⟨table, r', -, h⟩ := bind_eq_ok h
  obtain ⟨entries, r'', -, h⟩ := bind_eq_ok h
  cases h
  rfl

theorem fresh_slot {p : Pickle} (h : p.fullNames = p.entries.map fun _ => none) (n : ℕ)
    (v : Option String) : p.fullNames[n]? ≠ some (some v) := by
  rw [h, List.getElem?_map]
  cases p.entries[n]? with
  | none => exact nofun
  | some e => exact nofun

/-- A pickle of which nothing has been asked yet. -/
theorem kept_self {p : Pickle} (h : p.fullNames = p.entries.map fun _ => none) : Kept p p := by
  refine ⟨rfl, by rw [h, List.length_map], ?_⟩
  intro i name hi
  exact absurd hi (fresh_slot h _ _)

/-- No owner chain that leads to a name is longer than the depth of the walk. -/
def ShortOwners (p : Pickle) : Prop := ∀ i s k, FullName p i s k → k ≤ Pickle.MAX_DEPTH

theorem kept_queried {p q : Pickle} (hq : Kept p q) (hshort : ShortOwners p) (queries : List Idx) :
    Kept p (q.queried queries) := by
  induction queries generalizing q with
  | nil => exact hq
  | cons i queries ih => exact ih (fullNameAt_spec hq (hshort i)).2

theorem fst_symFullName {p q : Pickle} (hq : Kept p q) (hshort : ShortOwners p) (i : Idx) :
    IsName p i (q.symFullName i).1 :=
  (fullNameAt_spec hq (hshort i)).1

/-! ## What long chains break -/

theorem fullNames_getOrInit_of_ne {p : Pickle} {i j : Idx} (name : Option String) (h : i ≠ j) :
    (p.getOrInit i name).2.fullNames[j.toNat]? = p.fullNames[j.toNat]? := by
  unfold Pickle.getOrInit
  split
  · rfl
  · exact List.getElem?_set_ne fun he => h (UInt32.toNat_inj.mp he)

/-- A walk along an owner chain leaves the slots of entries with longer chains. -/
theorem fullNames_fullNameAt {p : Pickle} {i j : Idx} {s t : String} {k l : ℕ}
    (hi : FullName p i s k) (hj : FullName p j t l) (hkl : k < l) (fuel : ℕ) :
    (Pickle.fullNameAt fuel i p).2.fullNames[j.toNat]? = p.fullNames[j.toNat]? := by
  have hij : i ≠ j := by
    rintro rfl
    have := (hi.unique hj).2
    omega
  induction fuel generalizing i s k with
  | zero =>
    unfold Pickle.fullNameAt
    split <;> rfl
  | succ fuel ih =>
    unfold Pickle.fullNameAt
    split
    · rfl
    · rfl
    cases hi with
    | root hn hr =>
      simp only [hn, hr, ↓reduceIte]
      exact fullNames_getOrInit_of_ne _ hij
    | top hn hr ho =>
      simp only [hn, hr, ho, Bool.false_eq_true, ↓reduceIte]
      exact fullNames_getOrInit_of_ne _ hij
    | @owned _ owner n above k hn hr ho h =>
      have hoj : owner ≠ j := by
        rintro rfl
        have := (h.unique hj).2
        omega
      simp only [hn, hr, ho, Bool.false_eq_true, ↓reduceIte]
      rw [fullNames_getOrInit_of_ne _ hij]
      exact ih h (by omega) hoj

/-- A chain longer than what is left is not followed to its end on a fresh pickle. -/
theorem fullNameAt_eq_none {p : Pickle} (hp : p.fullNames = p.entries.map fun _ => none)
    {i : Idx} {s : String} {k : ℕ} (h : FullName p i s k) {fuel : ℕ} (hlt : fuel < k) :
    (Pickle.fullNameAt fuel i p).1 = none := by
  have hfresh := fresh_slot hp
  induction fuel generalizing i s k with
  | zero =>
    unfold Pickle.fullNameAt
    split
    · rfl
    · exact absurd ‹_› (hfresh _ _)
    · rfl
  | succ fuel ih =>
    unfold Pickle.fullNameAt
    split
    · rfl
    · exact absurd ‹_› (hfresh _ _)
    cases h with
    | root hn hr => omega
    | top hn hr ho => omega
    | @owned _ owner n above k hn hr ho h =>
      have hnone := ih h (by omega)
      have hslot := fullNames_fullNameAt h (.owned hn hr ho h) (Nat.lt_succ_self k) fuel
      simp only [hn, hr, ho, Bool.false_eq_true, ↓reduceIte, hnone, Option.map_none,
        Pickle.getOrInit, hslot]
      split
      · exact absurd ‹_› (hfresh _ _)
      · rfl

theorem FullName.lt_length {p : Pickle} {i : Idx} {s : String} {k : ℕ} (h : FullName p i s k) :
    i.toNat < p.entries.length := by
  have hname : ∃ n, p.symName i = some n := by
    cases h with
    | root hn => exact ⟨_, hn⟩
    | top hn => exact ⟨_, hn⟩
    | owned hn => exact ⟨_, hn⟩
  obtain ⟨n, hn⟩ := hname
  rcases Nat.lt_or_ge i.toNat p.entries.length with hlt | hge
  · exact hlt
  · have hnone : p.entries[i.toNat]? = none := List.getElem?_eq_none hge
    simp [Pickle.symName, Pickle.entry, hnone] at hn

theorem slot_getOrInit {p : Pickle} {i : Idx} (h : i.toNat < p.fullNames.length)
    (name : Option String) :
    (p.getOrInit i name).2.fullNames[i.toNat]? = some (some (p.getOrInit i name).1) := by
  unfold Pickle.getOrInit
  split
  · exact ‹_›
  · simp [h]

/-- The slot of an entry that has been asked for holds its name. -/
theorem slot_symFullName {p : Pickle} (hp : Kept p p) {i : Idx} {s : String} {k : ℕ}
    (h : FullName p i s k) (hk : k ≤ Pickle.MAX_DEPTH) :
    (p.symFullName i).2.fullNames[i.toNat]? = some (some (some s)) := by
  have hbound : ∀ t l, FullName p i t l → l ≤ Pickle.MAX_DEPTH := by
    intro t l hl
    rw [← (h.unique hl).2]
    exact hk
  have hs : (p.symFullName i).1 = some s :=
    ((fullNameAt_spec hp hbound).1 s).mpr ⟨k, h⟩
  have hlt : i.toNat < p.fullNames.length := by
    rw [hp.length]
    exact h.lt_length
  rw [← hs]
  unfold Pickle.symFullName Pickle.MAX_DEPTH Pickle.fullNameAt
  split
  · simp at *
    omega
  · assumption
  cases h with
  | root hn hr =>
    simp only [hn, hr, ↓reduceIte]
    exact slot_getOrInit hlt _
  | top hn hr ho =>
    simp only [hn, hr, ho, Bool.false_eq_true, ↓reduceIte]
    exact slot_getOrInit hlt _
  | @owned _ owner n above _ hn hr ho h =>
    simp only [hn, hr, ho, Bool.false_eq_true, ↓reduceIte]
    apply slot_getOrInit
    have hshort : ∀ t l, FullName p owner t l → l ≤ 63 := by
      intro t l hl
      rw [← (h.unique hl).2]
      exact Nat.le_of_succ_le_succ hk
    have hkept := (fullNameAt_spec hp hshort).2
    rw [hkept.length]
    exact FullName.lt_length (.owned hn hr ho h)

/-- An entry whose chain is one too long gets a name once its owner has been asked for. -/
theorem answer_changes {p : Pickle} (hfresh : p.fullNames = p.entries.map fun _ => none)
    {j : Idx} {t : String} (hj : FullName p j t (Pickle.MAX_DEPTH + 1)) :
    ∃ queries : List Idx, ((p.queried queries).symFullName j).1 ≠ (p.symFullName j).1 := by
  have hp := kept_self hfresh
  have hnone : (p.symFullName j).1 = none := fullNameAt_eq_none hfresh hj (Nat.lt_succ_self _)
  cases hj with
  | @owned _ owner n above _ hn hr ho hown =>
    have hshort : ∀ s k, FullName p owner s k → k ≤ Pickle.MAX_DEPTH := by
      intro s k h
      exact (hown.unique h).2 ▸ Nat.le_refl _
    have hkept : Kept p (p.symFullName owner).2 := (fullNameAt_spec hp hshort).2
    have hslot := slot_symFullName hp hown (Nat.le_refl _)
    have hslotj : (p.symFullName owner).2.fullNames[j.toNat]? = some none := by
      have hframe := fullNames_fullNameAt hown (.owned hn hr ho hown) (Nat.lt_succ_self _)
        Pickle.MAX_DEPTH
      have hlt := (FullName.owned hn hr ho hown).lt_length
      rw [Pickle.symFullName, hframe, hfresh]
      simp [hlt]
    refine ⟨[owner], ?_⟩
    rw [hnone]
    have hqueried : p.queried [owner] = (p.symFullName owner).2 := rfl
    have habove : (Pickle.fullNameAt 63 owner (p.symFullName owner).2) =
        (some above, (p.symFullName owner).2) := by
      rw [Pickle.fullNameAt, hslot]
    rw [hqueried, Pickle.symFullName, Pickle.MAX_DEPTH, Pickle.fullNameAt, hslotj]
    simp only [hkept.symName, hkept.symOwner, hn, hr, ho, Bool.false_eq_true, ↓reduceIte, habove,
      Pickle.getOrInit, hslotj]
    simp

/-- Whatever was asked before, an entry of a parsed pickle gets the answer it gets
first, exactly if no owner chain that leads to a name is longer than the walk is deep. -/
theorem symFullName_independent_iff [Build] {bytes : Slice} {p : Pickle}
    (h : readPickle bytes = .ok p) :
    (∀ (queries : List Idx) (i : Idx),
      ((p.queried queries).symFullName i).1 = (p.symFullName i).1) ↔ ShortOwners p := by
  have hfresh := readPickle_fullNames h
  have hp := kept_self hfresh
  constructor
  · intro hsame i s k hlong
    rcases Nat.lt_or_ge Pickle.MAX_DEPTH k with hlt | hge
    · obtain ⟨j, t, hj⟩ := hlong.exists_of_le (Nat.succ_pos Pickle.MAX_DEPTH) hlt
      obtain ⟨queries, hne⟩ := answer_changes hfresh hj
      exact absurd (hsame queries j) hne
    · exact hge
  · intro hshort queries i
    have hq := kept_queried hp hshort queries
    exact (fst_symFullName hq hshort i).unique (fst_symFullName hp hshort i)

/-- A class `a` without an owner. -/
def singleClass : Pickle := ⟨5, 2, [.TermName "a", .ExtRef 0 none], [1, 9], [none, none]⟩

theorem readPickle_singleClass :
    @readPickle debugBuild ⟨[5, 2, 2, 1, 1, 97, 9, 1, 0], by decide⟩ = .ok singleClass := by
  have hread : (match @readPickle debugBuild ⟨[5, 2, 2, 1, 1, 97, 9, 1, 0], by decide⟩ with
      | .ok p => decide (p = singleClass)
      | .error _ => false) = true := by
    decide +kernel
  split at hread
  · rename_i hp
    rw [hp, of_decide_eq_true hread]
  · cases hread

theorem symFullName_independent_single :
    (∀ (queries : List Idx) (i : Idx),
      ((singleClass.queried queries).symFullName i).1 = (singleClass.symFullName i).1) ↔
      ShortOwners singleClass :=
  @symFullName_independent_iff debugBuild _ _ readPickle_singleClass

/-- Sixty-five classes, each inside the next. -/
def nestedClasses : List Entry :=
  [.TermName "a"] ++ (List.range 64).map (fun k => .ExtRef 0 (some (UInt32.ofNat (k + 2)))) ++
    [.ExtRef 0 none]

theorem innermost_named_after_owner : ¬ ∀ (bytes : Slice) (p : Pickle),
    @readPickle debugBuild bytes = .ok p → ∀ (queries : List Idx) (i : Idx),
      ((p.queried queries).symFullName i).1 = (p.symFullName i).1 := by
  intro h
  have hdiffer : (match @readPickle debugBuild ⟨writePickle nestedClasses, by decide +kernel⟩ with
      | .ok p => ((p.queried [2]).symFullName 1).1 != (p.symFullName 1).1
      | .error _ => false) = true := by
    decide +kernel
  split at hdiffer
  · rename_i hp
    simp [h _ _ hp [2] 1] at hdiffer
  · cases hdiffer

end ScalaRs.Pickling
