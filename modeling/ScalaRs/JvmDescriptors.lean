import ScalaRs.CodeUnits

/-! # Descriptors of fields and methods

The grammar of descriptors, and the validator that walks over the bytes of one. -/
namespace ScalaRs.JvmDescriptors

open CodeUnits

/-! ## The grammar -/

inductive BaseType where
  | B | C | D | F | I | J | S | Z
deriving DecidableEq

def BaseType.letter : BaseType → Char
  | B => 'B'
  | C => 'C'
  | D => 'D'
  | F => 'F'
  | I => 'I'
  | J => 'J'
  | S => 'S'
  | Z => 'Z'

inductive FieldType where
  | base (t : BaseType)
  | array (element : FieldType)
  | object (name : List Char)
deriving DecidableEq

inductive ReturnType where
  | void
  | value (t : FieldType)

def FieldType.text : FieldType → List Char
  | base t => [t.letter]
  | array t => '[' :: t.text
  | object name => 'L' :: name ++ [';']

def ReturnType.text : ReturnType → List Char
  | void => ['V']
  | value t => t.text

def methodDescriptor (params : List FieldType) (ret : ReturnType) : List Char :=
  '(' :: params.flatMap FieldType.text ++ ')' :: ret.text

/-- The pairs of neighbours. -/
def windows2 {α : Type} : List α → List (α × α)
  | a :: b :: l => (a, b) :: windows2 (b :: l)
  | _ => []

/-- A binary name in its internal form: parts separated by single slashes. -/
structure IsClassName (name : List Char) : Prop where
  nonempty : name ≠ []
  starts : name.head? ≠ some '/'
  stops : name.getLast? ≠ some '/'
  parts : ('/', '/') ∉ windows2 name
  allowed : ∀ c ∈ name, c ≠ '.' ∧ c ≠ ';' ∧ c ≠ '['

instance (name : List Char) : Decidable (IsClassName name) :=
  have hall : name.all (fun c => c ≠ '.' ∧ c ≠ ';' ∧ c ≠ '[') = true ↔
      ∀ c ∈ name, c ≠ '.' ∧ c ≠ ';' ∧ c ≠ '[' := by simp
  decidable_of_iff (name ≠ [] ∧ name.head? ≠ some '/' ∧ name.getLast? ≠ some '/' ∧
      ('/', '/') ∉ windows2 name ∧ name.all (fun c => c ≠ '.' ∧ c ≠ ';' ∧ c ≠ '[') = true)
    ⟨fun h => ⟨h.1, h.2.1, h.2.2.1, h.2.2.2.1, hall.mp h.2.2.2.2⟩,
      fun h => ⟨h.nonempty, h.starts, h.stops, h.parts, hall.mpr h.allowed⟩⟩

def FieldType.className : FieldType → List Char
  | base _ => []
  | array t => t.className
  | object name => name

def FieldType.WellFormed : FieldType → Prop
  | base _ => True
  | array t => t.WellFormed
  | object name => IsClassName name

def ReturnType.className : ReturnType → List Char
  | void => []
  | value t => t.className

def ReturnType.WellFormed : ReturnType → Prop
  | void => True
  | value t => t.WellFormed

/-! ## The validator -/

def byte (c : Char) : UInt8 := UInt8.ofNat c.toNat

/-- The checks on the name of a class, at the bytes between `L` and the semicolon. -/
def validName (name : List UInt8) : Bool :=
  name.head? != some (byte '/') && name.getLast? != some (byte '/') &&
    !((windows2 name).any fun w => w = (byte '/', byte '/')) &&
    !(name.any fun b => b = byte '.' || b = byte ';' || b = byte '[' || b = 0)

def baseTypes : List UInt8 := ['B', 'C', 'D', 'F', 'I', 'J', 'S', 'Z'].map byte

def parseFieldType (allowVoid : Bool) : List UInt8 → Option ℕ
  | [] => none
  | b :: rest =>
    if b = byte 'V' ∧ allowVoid then some 1
    else if b ∈ baseTypes then some 1
    else if b = byte '[' then (parseFieldType false rest).map (· + 1)
    else if b = byte 'L' then
      match (b :: rest).findIdx? (· = byte ';') with
      | none => none
      | some stop =>
        if 1 < stop ∧ validName (((b :: rest).take stop).drop 1) then some (stop + 1) else none
    else none

theorem parseFieldType_bounds {v : Bool} {bytes : List UInt8} {n : ℕ}
    (h : parseFieldType v bytes = some n) : 0 < n ∧ n ≤ bytes.length := by
  induction bytes generalizing v n with
  | nil => cases h
  | cons b rest ih =>
    rw [parseFieldType] at h
    split at h
    · cases h
      simp
    · split at h
      · cases h
        simp
      · split at h
        · obtain ⟨m, hm, rfl⟩ := Option.map_eq_some_iff.mp h
          have hle := (ih hm).2
          rw [List.length_cons]
          omega
        · split at h
          · split at h
            · cases h
            · next stop hstop =>
              split at h
              · cases h
                have hlt := (List.findIdx?_eq_some_iff_getElem.mp hstop).1
                omega
              · cases h
          · cases h

/-- The loop over the parameters, from where it stands. -/
def validLoop (rest : List UInt8) : Bool :=
  if rest.head? = some (byte ')') then
    parseFieldType true rest.tail = some rest.tail.length
  else
    match h : parseFieldType false rest with
    | none => false
    | some n => if (rest.drop n).isEmpty then false else validLoop (rest.drop n)
termination_by rest.length
decreasing_by
  obtain ⟨hpos, hle⟩ := parseFieldType_bounds h
  rw [List.length_drop]
  omega

def validMethodDescriptor (value : List Char) : Bool :=
  match utf8.text value with
  | [] => false
  | b :: rest => b = byte '(' && validLoop rest

inductive JvmMemberKind where
  | field
  | method

inductive AbiError where
  | invalidDescriptor (value : List Char) (kind : JvmMemberKind)

def validDescriptor (value : List Char) : JvmMemberKind → Bool
  | .field => parseFieldType false (utf8.text value) = some (utf8.text value).length
  | .method => validMethodDescriptor value

structure JvmDescriptor where
  value : List Char
  kind : JvmMemberKind
  valid : validDescriptor value kind = true

def JvmDescriptor.new (value : List Char) (kind : JvmMemberKind) : Except AbiError JvmDescriptor :=
  if h : validDescriptor value kind = true then .ok ⟨value, kind, h⟩
  else .error (.invalidDescriptor value kind)

def JvmDescriptor.method (value : List Char) : Except AbiError JvmDescriptor :=
  JvmDescriptor.new value .method

/-- The descriptor is accepted as that of a method. -/
def Accepted (value : List Char) : Prop := ∃ d, JvmDescriptor.method value = .ok d

theorem accepted_iff {value : List Char} : Accepted value ↔ validMethodDescriptor value = true := by
  unfold Accepted JvmDescriptor.method JvmDescriptor.new
  constructor
  · intro h
    obtain ⟨d, hd⟩ := h
    split at hd
    · assumption
    · cases hd
  · intro h
    exact ⟨_, dif_pos h⟩

/-! ## Bytes of ASCII characters -/

theorem encode_ascii {c : Char} (hc : c.toNat < 128) : utf8.encode c = [byte c] := utf8.ascii c hc

theorem byte_inj {c d : Char} (hc : c.toNat < 128) (hd : d.toNat < 128) (h : byte c = byte d) :
    c = d := by
  have hcode : c.toNat = d.toNat := by
    have hnat := congrArg UInt8.toNat h
    rw [byte, byte, UInt8.toNat_ofNat', UInt8.toNat_ofNat'] at hnat
    omega
  exact Char.toNat_inj.mp hcode

/-- The byte of an ASCII character stands for that character only. -/
theorem eq_of_byte_mem {c d : Char} (hc : c.toNat < 128) (h : byte c ∈ utf8.encode d) : d = c := by
  by_cases hd : d.toNat < 128
  · rw [encode_ascii hd, List.mem_singleton] at h
    exact (byte_inj hc hd h).symm
  · have hle : 128 ≤ (byte c).toNat := (utf8.other d (by omega)).2 _ h
    rw [byte, UInt8.toNat_ofNat'] at hle
    omega

theorem byte_mem_text {c : Char} (hc : c.toNat < 128) {s : List Char} :
    byte c ∈ utf8.text s ↔ c ∈ s := by
  constructor
  · intro h
    obtain ⟨d, hd, h⟩ := List.mem_flatMap.mp h
    rwa [← eq_of_byte_mem hc h]
  · intro h
    apply List.mem_flatMap.mpr
    exact ⟨c, h, by rw [encode_ascii hc]; exact List.mem_singleton_self _⟩

theorem head_text {c : Char} (hc : c.toNat < 128) (s : List Char) :
    (utf8.text s).head? = some (byte c) ↔ s.head? = some c := by
  cases s with
  | nil => simp
  | cons d s =>
    obtain ⟨u, us, hus⟩ := List.exists_cons_of_ne_nil (utf8.encode_ne_nil d)
    rw [utf8.text_cons, hus]
    simp only [List.cons_append, List.head?_cons, Option.some.injEq]
    constructor
    · intro h
      apply eq_of_byte_mem hc
      rw [hus, h]
      exact List.mem_cons_self
    · intro h
      rw [h, encode_ascii hc] at hus
      exact (List.cons.inj hus).1.symm

theorem getLast_text {c : Char} (hc : c.toNat < 128) (s : List Char) :
    (utf8.text s).getLast? = some (byte c) ↔ s.getLast? = some c := by
  rcases List.eq_nil_or_concat s with rfl | ⟨s, d, rfl⟩
  · simp
  · rcases List.eq_nil_or_concat (utf8.encode d) with hnil | ⟨us, u, hus⟩
    · exact absurd hnil (utf8.encode_ne_nil d)
    · rw [List.concat_eq_append] at hus ⊢
      rw [utf8.text_append, utf8.text_cons, utf8.text_nil, List.append_nil, hus,
        ← List.append_assoc, List.getLast?_concat, List.getLast?_concat, Option.some.injEq,
        Option.some.injEq]
      constructor
      · intro h
        apply eq_of_byte_mem hc
        rw [hus, h]
        exact List.mem_append_right _ (List.mem_singleton_self _)
      · intro h
        have hlast := congrArg List.getLast? hus
        rw [h, encode_ascii hc, List.getLast?_concat, List.getLast?_singleton,
          Option.some.injEq] at hlast
        exact hlast.symm

theorem mem_windows2_cons {α : Type} {a x : α} {l : List α} :
    (x, x) ∈ windows2 (a :: l) ↔ a = x ∧ l.head? = some x ∨ (x, x) ∈ windows2 l := by
  cases l with
  | nil => simp [windows2]
  | cons b l => simp [windows2, eq_comm]

theorem mem_windows2_append {α : Type} {x : α} {w : List α} (hw : x ∉ w) (l : List α) :
    (x, x) ∈ windows2 (w ++ l) ↔ (x, x) ∈ windows2 l := by
  induction w with
  | nil => rfl
  | cons a w ih =>
    have ha : a ≠ x := fun ha => hw (ha ▸ List.mem_cons_self)
    rw [List.cons_append, mem_windows2_cons, ih fun hx => hw (List.mem_cons_of_mem _ hx)]
    simp [ha]

theorem windows2_text {c : Char} (hc : c.toNat < 128) (s : List Char) :
    (byte c, byte c) ∈ windows2 (utf8.text s) ↔ (c, c) ∈ windows2 s := by
  induction s with
  | nil => simp [windows2]
  | cons d s ih =>
    rw [utf8.text_cons, mem_windows2_cons]
    by_cases hd : d = c
    · rw [hd, encode_ascii hc, List.singleton_append, mem_windows2_cons, head_text hc, ih]
      simp
    · have hno : byte c ∉ utf8.encode d := fun h => hd (eq_of_byte_mem hc h)
      rw [mem_windows2_append hno, ih]
      simp [hd]

/-! ## What the validator accepts -/

theorem validName_text {name : List Char} (hname : name ≠ []) :
    validName (utf8.text name) = true ↔ IsClassName name ∧ '\x00' ∉ name := by
  have hzero : (0 : UInt8) = byte '\x00' := rfl
  unfold validName
  rw [hzero]
  constructor
  · intro h
    simp only [Bool.and_eq_true, bne_iff_ne, ne_eq, Bool.not_eq_true', List.any_eq_false,
      decide_eq_true_eq, Bool.or_eq_true] at h
    obtain ⟨⟨⟨hstart, hstop⟩, hparts⟩, hallowed⟩ := h
    have hno : ∀ c : Char, c.toNat < 128 → (c = '.' ∨ c = ';' ∨ c = '[' ∨ c = '\x00') →
        c ∉ name := by
      intro c hc hbad hmem
      apply hallowed _ ((byte_mem_text hc).mpr hmem)
      rcases hbad with rfl | rfl | rfl | rfl <;> simp
    refine ⟨⟨hname, ?_, ?_, ?_, ?_⟩, hno _ (by decide) (by simp)⟩
    · exact fun h => hstart ((head_text (by decide) _).mpr h)
    · exact fun h => hstop ((getLast_text (by decide) _).mpr h)
    · exact fun h => hparts _ ((windows2_text (by decide) _).mpr h) rfl
    · intro c hc
      refine ⟨?_, ?_, ?_⟩
      · exact fun h => hno '.' (by decide) (by simp) (h ▸ hc)
      · exact fun h => hno ';' (by decide) (by simp) (h ▸ hc)
      · exact fun h => hno '[' (by decide) (by simp) (h ▸ hc)
  · intro h
    obtain ⟨h, hnul⟩ := h
    simp only [Bool.and_eq_true, bne_iff_ne, ne_eq, Bool.not_eq_true', List.any_eq_false,
      decide_eq_true_eq, Bool.or_eq_true]
    refine ⟨⟨⟨?_, ?_⟩, ?_⟩, ?_⟩
    · exact fun hs => h.starts ((head_text (by decide) _).mp hs)
    · exact fun hs => h.stops ((getLast_text (by decide) _).mp hs)
    · intro w hw heq
      rw [heq] at hw
      exact h.parts ((windows2_text (by decide) _).mp hw)
    · intro b hb hbad
      have hin : ∀ c : Char, c.toNat < 128 → b = byte c → c ∈ name := by
        intro c hc hbc
        rw [hbc] at hb
        exact (byte_mem_text hc).mp hb
      rcases hbad with ((hb | hb) | hb) | hb
      · exact (h.allowed _ (hin _ (by decide) hb)).1 rfl
      · exact (h.allowed _ (hin _ (by decide) hb)).2.1 rfl
      · exact (h.allowed _ (hin _ (by decide) hb)).2.2 rfl
      · exact hnul (hin _ (by decide) hb)

theorem findIdx?_append_cons {α : Type} {p : α → Bool} {w : List α} {x : α} (hw : ∀ a ∈ w, ¬ p a)
    (hx : p x = true) (l : List α) : (w ++ x :: l).findIdx? p = some w.length := by
  induction w with
  | nil => simp [List.findIdx?_cons, hx]
  | cons a w ih =>
    have ha := hw a List.mem_cons_self
    have hrest := ih fun b hb => hw b (List.mem_cons_of_mem _ hb)
    simp [List.findIdx?_cons, ha, hrest]

/-- The validator at an object type of any name without a semicolon. -/
theorem parseFieldType_object {name : List Char} (h : ';' ∉ name) (v : Bool) (rest : List UInt8) :
    parseFieldType v (byte 'L' :: (utf8.text name ++ byte ';' :: rest)) =
      if name ≠ [] ∧ validName (utf8.text name) = true then some ((utf8.text name).length + 2)
      else none := by
  have hname : ∀ b ∈ byte 'L' :: utf8.text name, ¬ decide (b = byte ';') = true := by
    intro b hb hsemi
    rw [of_decide_eq_true hsemi] at hb
    rcases List.mem_cons.mp hb with hb | hb
    · exact absurd hb (by decide)
    · exact h ((byte_mem_text (by decide)).mp hb)
  have hstop : (byte 'L' :: (utf8.text name ++ byte ';' :: rest)).findIdx? (· = byte ';') =
      some ((utf8.text name).length + 1) := by
    rw [← List.cons_append, findIdx?_append_cons hname (decide_eq_true rfl), List.length_cons]
  have htaken : ((byte 'L' :: (utf8.text name ++ byte ';' :: rest)).take
      ((utf8.text name).length + 1)).drop 1 = utf8.text name := by
    rw [List.take_succ_cons, List.take_left]
    rfl
  have hpos : 1 < (utf8.text name).length + 1 ↔ name ≠ [] := by
    cases name with
    | nil => simp
    | cons c name =>
      have hlen := List.length_pos_iff.mpr (utf8.encode_ne_nil c)
      simp only [utf8.text_cons, List.length_append, ne_eq, reduceCtorEq, not_false_eq_true,
        iff_true]
      omega
  rw [parseFieldType, if_neg fun h => absurd h.1 (by decide), if_neg (by decide),
    if_neg (by decide), if_pos rfl, hstop]
  simp only [htaken, hpos]

theorem letter_ascii (t : BaseType) : t.letter.toNat < 128 := by cases t <;> decide

/-- A well-formed type is taken as it is, or rejected for a null character. -/
theorem parseFieldType_text {t : FieldType} (ht : t.WellFormed) (v : Bool) (rest : List UInt8) :
    parseFieldType v (utf8.text t.text ++ rest) =
      if '\x00' ∈ t.className then none else some (utf8.text t.text).length := by
  induction t generalizing v with
  | base t =>
    have hletter : byte t.letter ∈ baseTypes := by cases t <;> decide
    have hvoid : byte t.letter ≠ byte 'V' := by cases t <;> decide
    rw [FieldType.text, utf8.text_cons, encode_ascii (letter_ascii t), utf8.text_nil,
      FieldType.className, if_neg List.not_mem_nil]
    simp [parseFieldType, hletter, hvoid]
  | array t ih =>
    rw [FieldType.text, utf8.text_cons, encode_ascii (by decide), List.singleton_append,
      List.cons_append, parseFieldType, if_neg fun h => absurd h.1 (by decide),
      if_neg (by decide), if_pos rfl, ih ht, FieldType.className]
    split <;> simp
  | object name =>
    have hsemi : ';' ∉ name := fun h => (ht.allowed _ h).2.1 rfl
    have htext : utf8.text (FieldType.object name).text ++ rest =
        byte 'L' :: (utf8.text name ++ byte ';' :: rest) := by
      rw [FieldType.text, utf8.text_append, utf8.text_cons, utf8.text_cons, utf8.text_nil,
        encode_ascii (by decide), encode_ascii (by decide)]
      simp
    have hlen : (utf8.text (FieldType.object name).text).length = (utf8.text name).length + 2 := by
      have hlen := congrArg List.length htext
      simp only [List.length_append, List.length_cons] at hlen
      omega
    have hvalid := validName_text ht.nonempty
    rw [htext, parseFieldType_object hsemi, hlen, FieldType.className]
    by_cases hnul : '\x00' ∈ name
    · rw [if_pos hnul, if_neg fun h => (hvalid.mp h.2).2 hnul]
    · rw [if_neg hnul, if_pos ⟨ht.nonempty, hvalid.mpr ⟨ht, hnul⟩⟩]

theorem letter_of_mem {c : Char} (h : c ∈ ['B', 'C', 'D', 'F', 'I', 'J', 'S', 'Z']) :
    ∃ t : BaseType, t.letter = c := by
  simp only [List.mem_cons, List.not_mem_nil, or_false] at h
  rcases h with rfl | rfl | rfl | rfl | rfl | rfl | rfl | rfl
  · exact ⟨.B, rfl⟩
  · exact ⟨.C, rfl⟩
  · exact ⟨.D, rfl⟩
  · exact ⟨.F, rfl⟩
  · exact ⟨.I, rfl⟩
  · exact ⟨.J, rfl⟩
  · exact ⟨.S, rfl⟩
  · exact ⟨.Z, rfl⟩

/-- No type starts with a character outside of ASCII. -/
theorem parseFieldType_other {c : Char} (hc : ¬ c.toNat < 128) (v : Bool) (rest : List UInt8) :
    parseFieldType v (utf8.encode c ++ rest) = none := by
  obtain ⟨u, us, hus⟩ := List.exists_cons_of_ne_nil (utf8.encode_ne_nil c)
  have hu : ∀ d : Char, d.toNat < 128 → u ≠ byte d := by
    intro d hd hud
    have hmem : byte d ∈ utf8.encode c := by
      rw [hus, hud]
      exact List.mem_cons_self
    exact hc (eq_of_byte_mem hd hmem ▸ hd)
  have hbase : u ∉ baseTypes := by
    intro h
    obtain ⟨d, hd, hdu⟩ := List.mem_map.mp h
    obtain ⟨t, rfl⟩ := letter_of_mem hd
    exact hu _ (letter_ascii t) hdu.symm
  rw [hus, List.cons_append, parseFieldType, if_neg fun h => hu 'V' (by decide) h.1, if_neg hbase,
    if_neg (hu '[' (by decide)), if_neg (hu 'L' (by decide))]

/-- Where the validator finds a type there is one. -/
theorem exists_of_parseFieldType {s : List Char} {n : ℕ}
    (h : parseFieldType false (utf8.text s) = some n) :
    ∃ t rest, s = FieldType.text t ++ rest ∧ t.WellFormed ∧ n = (utf8.text t.text).length := by
  induction s generalizing n with
  | nil => cases h
  | cons c s ih =>
    by_cases hc : c.toNat < 128
    · rw [utf8.text_cons, encode_ascii hc, List.singleton_append, parseFieldType,
        if_neg fun h => absurd h.2 (by decide)] at h
      split at h
      · next hbase =>
        obtain ⟨d, hd, hdc⟩ := List.mem_map.mp hbase
        obtain ⟨t, rfl⟩ := letter_of_mem hd
        cases h
        refine ⟨.base t, s, ?_, trivial, ?_⟩
        · have hletter := byte_inj (letter_ascii t) hc hdc
          rw [← hletter]
          rfl
        · rw [FieldType.text, utf8.text_cons, encode_ascii (letter_ascii t), utf8.text_nil]
          rfl
      · split at h
        · next hbracket =>
          obtain ⟨m, hm, rfl⟩ := Option.map_eq_some_iff.mp h
          obtain ⟨t, rest, rfl, ht, rfl⟩ := ih hm
          refine ⟨.array t, rest, ?_, ht, ?_⟩
          · rw [byte_inj hc (by decide) hbracket]
            rfl
          · rw [FieldType.text, utf8.text_cons, encode_ascii (by decide), List.length_append,
              List.length_singleton, Nat.add_comm]
        · split at h
          · next hobject =>
            rw [byte_inj hc (by decide) hobject] at h ⊢
            by_cases hsemi : ';' ∈ s
            · obtain ⟨name, rest, rfl, hname⟩ := List.eq_append_cons_of_mem hsemi
              have hparse := parseFieldType_object hname false (utf8.text rest)
              rw [parseFieldType, if_neg fun h => absurd h.1 (by decide), if_neg (by decide),
                if_neg (by decide), if_pos rfl] at hparse
              rw [utf8.text_append, utf8.text_cons, encode_ascii (by decide),
                List.singleton_append, hparse] at h
              split at h
              · next hvalid =>
                cases h
                refine ⟨.object name, rest, ?_, ((validName_text hvalid.1).mp hvalid.2).1, ?_⟩
                · simp [FieldType.text]
                · simp [FieldType.text, encode_ascii]
              · cases h
            · have hnone : (byte 'L' :: utf8.text s).findIdx? (· = byte ';') = none := by
                apply List.findIdx?_eq_none_iff.mpr
                intro b hb
                apply decide_eq_false
                intro hbs
                rw [hbs] at hb
                rcases List.mem_cons.mp hb with hb | hb
                · exact absurd hb (by decide)
                · exact hsemi ((byte_mem_text (by decide)).mp hb)
              rw [hnone] at h
              cases h
          · cases h
    · rw [utf8.text_cons, parseFieldType_other hc] at h
      cases h

theorem text_eq_nil {s : List Char} (h : utf8.text s = []) : s = [] := by
  cases s with
  | nil => rfl
  | cons c s =>
    rw [utf8.text_cons] at h
    exact absurd (List.append_eq_nil_iff.mp h).1 (utf8.encode_ne_nil c)

theorem parseFieldType_true (b : UInt8) (rest : List UInt8) : parseFieldType true (b :: rest) =
    if b = byte 'V' then some 1 else parseFieldType false (b :: rest) := by
  simp [parseFieldType]

theorem parseFieldType_return {ret : ReturnType} (h : ret.WellFormed) :
    parseFieldType true (utf8.text ret.text) = some (utf8.text ret.text).length ↔
      '\x00' ∉ ret.className := by
  cases ret with
  | void =>
    rw [ReturnType.text, utf8.text_cons, encode_ascii (by decide)]
    simp [parseFieldType, ReturnType.className]
  | value t =>
    have hparse := parseFieldType_text h true []
    rw [List.append_nil] at hparse
    rw [ReturnType.text, hparse, ReturnType.className]
    split <;> simp_all

theorem exists_of_parseFieldType_return {s : List Char}
    (h : parseFieldType true (utf8.text s) = some (utf8.text s).length) :
    ∃ ret : ReturnType, s = ret.text ∧ ret.WellFormed := by
  have hcases : s = ['V'] ∨ parseFieldType false (utf8.text s) = some (utf8.text s).length := by
    cases s with
    | nil => cases h
    | cons c s =>
      obtain ⟨u, us, hus⟩ := List.exists_cons_of_ne_nil (utf8.encode_ne_nil c)
      rw [utf8.text_cons, hus, List.cons_append] at h ⊢
      rw [parseFieldType_true] at h
      split at h
      · next hu =>
        have hc : c = 'V' := by
          apply eq_of_byte_mem (by decide)
          rw [hus, hu]
          exact List.mem_cons_self
        have hlen := Option.some.inj h
        rw [List.length_cons, List.length_append] at hlen
        have hs : s = [] := text_eq_nil (List.eq_nil_of_length_eq_zero (by omega))
        exact .inl (by rw [hc, hs])
      · exact .inr h
  rcases hcases with rfl | h
  · exact ⟨.void, rfl, trivial⟩
  · obtain ⟨t, rest, rfl, ht, hlen⟩ := exists_of_parseFieldType h
    rw [utf8.text_append, List.length_append] at hlen
    have hrest : rest = [] := text_eq_nil (List.eq_nil_of_length_eq_zero (by omega))
    exact ⟨.value t, by rw [hrest, List.append_nil]; rfl, ht⟩

/-- No type starts with the parenthesis that ends the parameters. -/
theorem head_text_fieldType (t : FieldType) (s : List Char) :
    (utf8.text (t.text ++ s)).head? ≠ some (byte ')') := by
  intro h
  have hhead := (head_text (by decide) _).mp h
  cases t with
  | base t => cases t <;> simp [FieldType.text, BaseType.letter] at hhead
  | array t => simp [FieldType.text] at hhead
  | object name => simp [FieldType.text] at hhead

/-- The loop at the parameters of a well-formed descriptor. -/
theorem validLoop_text {params : List FieldType} {ret : ReturnType}
    (hp : ∀ p ∈ params, p.WellFormed) (hr : ret.WellFormed) :
    validLoop (utf8.text (params.flatMap FieldType.text ++ ')' :: ret.text)) = true ↔
      (∀ p ∈ params, '\x00' ∉ p.className) ∧ '\x00' ∉ ret.className := by
  induction params with
  | nil =>
    have htext : utf8.text (')' :: ret.text) = byte ')' :: utf8.text ret.text := by
      rw [utf8.text_cons, encode_ascii (by decide), List.singleton_append]
    rw [List.flatMap_nil, List.nil_append, htext, validLoop, if_pos List.head?_cons, List.tail_cons,
      decide_eq_true_eq, parseFieldType_return hr]
    simp
  | cons p params ih =>
    have hwf := hp p List.mem_cons_self
    have htext : utf8.text ((p :: params).flatMap FieldType.text ++ ')' :: ret.text) =
        utf8.text p.text ++ utf8.text (params.flatMap FieldType.text ++ ')' :: ret.text) := by
      rw [List.flatMap_cons, List.append_assoc, utf8.text_append]
    have hhead := head_text_fieldType p (params.flatMap FieldType.text ++ ')' :: ret.text)
    have hrest : utf8.text (params.flatMap FieldType.text ++ ')' :: ret.text) ≠ [] := by
      intro h
      simpa using text_eq_nil h
    rw [utf8.text_append] at hhead
    have hparse := parseFieldType_text hwf false
      (utf8.text (params.flatMap FieldType.text ++ ')' :: ret.text))
    rw [htext, validLoop, if_neg hhead]
    split
    · next hnone =>
      rw [hparse] at hnone
      split at hnone
      · next hnul => simp [hnul]
      · cases hnone
    · next n hn =>
      rw [hparse] at hn
      split at hn
      · cases hn
      · next hnul =>
        cases hn
        rw [List.drop_left, if_neg (by simpa using hrest),
          ih fun q hq => hp q (List.mem_cons_of_mem _ hq)]
        simp [hnul]

theorem exists_of_validLoop {s : List Char} (h : validLoop (utf8.text s) = true) :
    ∃ params : List FieldType, ∃ ret : ReturnType,
      s = params.flatMap FieldType.text ++ ')' :: ret.text ∧ (∀ p ∈ params, p.WellFormed) ∧
        ret.WellFormed := by
  induction hlen : s.length using Nat.strongRecOn generalizing s with
  | ind n ih =>
    rw [validLoop] at h
    split at h
    · next hhead =>
      obtain ⟨t, rfl⟩ := List.head?_eq_some_iff.mp ((head_text (by decide) s).mp hhead)
      rw [utf8.text_cons, encode_ascii (by decide), List.singleton_append, List.tail_cons,
        decide_eq_true_eq] at h
      obtain ⟨ret, rfl, hret⟩ := exists_of_parseFieldType_return h
      exact ⟨[], ret, rfl, nofun, hret⟩
    · split at h
      · cases h
      · next k hk =>
        obtain ⟨t, rest, rfl, ht, rfl⟩ := exists_of_parseFieldType hk
        rw [utf8.text_append, List.drop_left] at h
        split at h
        · cases h
        · have hpos : 0 < t.text.length := by
            cases t <;> simp [FieldType.text]
          have hlt : rest.length < n := by
            rw [List.length_append] at hlen
            omega
          obtain ⟨params, ret, rfl, hparams, hret⟩ := ih _ hlt h rfl
          refine ⟨t :: params, ret, by simp, ?_, hret⟩
          intro p hp
          rcases List.mem_cons.mp hp with rfl | hp
          · exact ht
          · exact hparams p hp

/-- A well-formed descriptor is accepted unless a class name has a null character. -/
theorem accepted_methodDescriptor_iff {params : List FieldType} {ret : ReturnType}
    (hp : ∀ p ∈ params, p.WellFormed) (hr : ret.WellFormed) :
    Accepted (methodDescriptor params ret) ↔
      (∀ p ∈ params, '\x00' ∉ p.className) ∧ '\x00' ∉ ret.className := by
  rw [accepted_iff, ← validLoop_text hp hr, validMethodDescriptor, methodDescriptor,
    List.cons_append, utf8.text_cons, encode_ascii (by decide), List.singleton_append]
  simp

theorem exists_of_accepted {value : List Char} (h : Accepted value) :
    ∃ params : List FieldType, ∃ ret : ReturnType, value = methodDescriptor params ret ∧
      (∀ p ∈ params, p.WellFormed) ∧ ret.WellFormed := by
  rw [accepted_iff, validMethodDescriptor] at h
  split at h
  · cases h
  · next b rest htext =>
    obtain ⟨hb, hrest⟩ := Bool.and_eq_true_iff.mp h
    have hhead : (utf8.text value).head? = some (byte '(') := by
      rw [htext, List.head?_cons, of_decide_eq_true hb]
    obtain ⟨s, rfl⟩ := List.head?_eq_some_iff.mp ((head_text (by decide) _).mp hhead)
    rw [utf8.text_cons, encode_ascii (by decide), List.singleton_append] at htext
    rw [← (List.cons.inj htext).2] at hrest
    obtain ⟨params, ret, rfl, hp, hr⟩ := exists_of_validLoop hrest
    exact ⟨params, ret, rfl, hp, hr⟩

end ScalaRs.JvmDescriptors
