import ScalaRs.JvmDescriptors
import ScalaRs.WhileLoops

/-! # Scanners of the parameters

Four loops over the bytes and two over the characters of a descriptor, each with its
own handling of arrays and object types. The loops over characters look for a
semicolon without a bound. -/
namespace ScalaRs.JvmDescriptors

open CodeUnits WhileLoops

/-! ## Loops over bytes -/

/-- The descriptor up to the first `)`, without the parentheses in front. -/
def inner (desc : List Char) : List Char :=
  if desc.contains ')' then (desc.takeWhile (· != ')')).dropWhile (· == '(') else []

/-- Where a loop stands after the type at the front, which is not empty. -/
structure Scanner where
  after : List UInt8 → List UInt8
  shorter : ∀ b rest, (after (b :: rest)).length ≤ rest.length

/-- A slice of a string must not cut a character. -/
def isCharBoundary (rest : List UInt8) : Bool :=
  match rest with
  | [] => true
  | b :: _ => b < 0x80 || 0xc0 ≤ b

def Scanner.slices (s : Scanner) (out : List (List UInt8)) :
    List UInt8 → Option (List (List UInt8))
  | [] => some out
  | b :: rest =>
    let after := s.after (b :: rest)
    if isCharBoundary after then
      s.slices (out ++ [(b :: rest).take ((b :: rest).length - after.length)]) after
    else none
termination_by rest => rest.length
decreasing_by exact Nat.lt_succ_of_le (s.shorter b rest)

def Scanner.count (s : Scanner) (n : ℕ) : List UInt8 → ℕ
  | [] => n
  | b :: rest => s.count (n + 1) (s.after (b :: rest))
termination_by rest => rest.length
decreasing_by exact Nat.lt_succ_of_le (s.shorter b rest)

theorem length_dropWhile_le (p : UInt8 → Bool) (l : List UInt8) :
    (l.dropWhile p).length ≤ l.length := (List.dropWhile_sublist p).length_le

/-- One turn of the loop of `param_descs`. -/
def paramDescsAfter : List UInt8 → List UInt8
  | [] => []
  | b :: rest =>
    if b = byte 'L' then (rest.dropWhile (· != byte ';')).drop 1
    else if b = byte '[' then
      let rest := rest.dropWhile (· == byte '[')
      if rest.head? = some (byte 'L') then (rest.dropWhile (· != byte ';')).drop 1
      else rest.drop 1
    else rest

def paramDescsScanner : Scanner where
  after := paramDescsAfter
  shorter b rest := by
    have hbrackets := length_dropWhile_le (· == byte '[') rest
    have hname := length_dropWhile_le (· != byte ';') rest
    have hname' := length_dropWhile_le (· != byte ';') (rest.dropWhile (· == byte '['))
    unfold paramDescsAfter
    dsimp only
    split
    · rw [List.length_drop]
      omega
    · split
      · split
        · rw [List.length_drop]
          omega
        · rw [List.length_drop]
          omega
      · exact Nat.le_refl _

def paramDescs (desc : List Char) : Option (List (List UInt8)) :=
  paramDescsScanner.slices [] (utf8.text (inner desc))

/-- One turn of the loops of `param_descriptors` and `method_parameter_count`. -/
def parameterAfter (rest : List UInt8) : List UInt8 :=
  let rest := rest.dropWhile (· == byte '[')
  let rest := if rest.head? = some (byte 'L') then rest.dropWhile (· != byte ';') else rest
  rest.drop 1

def parameterScanner : Scanner where
  after := parameterAfter
  shorter b rest := by
    have hbrackets := length_dropWhile_le (· == byte '[') (b :: rest)
    have hname := length_dropWhile_le (· != byte ';') ((b :: rest).dropWhile (· == byte '['))
    unfold parameterAfter
    dsimp only
    rw [List.length_drop]
    rw [List.length_cons] at hbrackets
    split
    · omega
    · omega

/-- The bytes between the parentheses, up to the first that closes. -/
def region (desc : List Char) : Option (List UInt8) :=
  let bytes := utf8.text desc
  (bytes.findIdx? (· = byte ')')).map fun stop =>
    (bytes.take stop).drop (if bytes.head? = some (byte '(') then 1 else 0)

def paramDescriptors (desc : List Char) : Option (List (List UInt8)) :=
  match region desc with
  | none => some []
  | some rest => parameterScanner.slices [] rest

def methodParameterCount (desc : List Char) : ℕ :=
  match region desc with
  | none => 0
  | some rest => parameterScanner.count 0 rest

/-! ## Loops over characters -/

/-- `while chars.next() != Some(';') {}`: an exhausted iterator stays exhausted. -/
def skipBody : List Char → Option (Step (List Char) (List Char))
  | [] => some (.next [])
  | c :: rest => if c = ';' then some (.done rest) else some (.next rest)

/-- What is left after the type that starts with `c`. -/
def skipType (fuel : ℕ) (c : Char) (rest : List Char) : Option (List Char) :=
  if c = 'L' then run skipBody fuel rest
  else if c = '[' then
    let rest := rest.dropWhile (· == '[')
    if rest.head? = some 'L' then run skipBody fuel rest else some (rest.drop 1)
  else some rest

def countBody (weight : Char → ℕ) (fuel : ℕ) : ℕ × List Char → Option (Step ℕ (ℕ × List Char))
  | (n, []) => some (.done n)
  | (n, c :: rest) => (skipType fuel c rest).map fun rest => .next (n + weight c, rest)

def countWith (weight : Char → ℕ) (fuel : ℕ) (desc : List Char) : Option ℕ :=
  run (countBody weight fuel) fuel (0, inner desc)

def countParams : ℕ → List Char → Option ℕ := countWith fun _ => 1

def countParamSlots : ℕ → List Char → Option ℕ :=
  countWith fun c => if c = 'J' ∨ c = 'D' then 2 else 1

/-! ## One type -/

/-- The element type below all dimensions. -/
def FieldType.core : FieldType → FieldType
  | base t => base t
  | array t => t.core
  | object name => object name

def FieldType.bytes (t : FieldType) : List UInt8 := utf8.text t.text

theorem bytes_base (t : BaseType) : (FieldType.base t).bytes = [byte t.letter] := by
  rw [FieldType.bytes, FieldType.text, utf8.text_cons, utf8.text_nil, encode_ascii (letter_ascii t)]
  rfl

theorem bytes_array (t : FieldType) : (FieldType.array t).bytes = byte '[' :: t.bytes := by
  rw [FieldType.bytes, FieldType.text, utf8.text_cons, encode_ascii (by decide)]
  rfl

theorem bytes_object (name : List Char) :
    (FieldType.object name).bytes = byte 'L' :: (utf8.text name ++ [byte ';']) := by
  rw [FieldType.bytes, FieldType.text, utf8.text_append, utf8.text_cons, utf8.text_cons,
    utf8.text_nil, encode_ascii (by decide), encode_ascii (by decide)]
  rfl

theorem dropWhile_name {name : List Char} (h : ';' ∉ name) (rest : List UInt8) :
    (utf8.text name ++ byte ';' :: rest).dropWhile (· != byte ';') = byte ';' :: rest := by
  rw [List.dropWhile_append_of_pos]
  · simp
  · intro b hb
    apply bne_iff_ne.mpr
    intro hbs
    rw [hbs] at hb
    exact h ((byte_mem_text (by decide)).mp hb)

theorem dropWhile_brackets (t : FieldType) (rest : List UInt8) :
    (t.bytes ++ rest).dropWhile (· == byte '[') = t.core.bytes ++ rest := by
  induction t with
  | base t =>
    have hne : (byte t.letter == byte '[') = false := by cases t <;> decide
    rw [FieldType.core, bytes_base, List.singleton_append, List.dropWhile_cons, hne]
    rfl
  | array t ih =>
    rw [FieldType.core, bytes_array, List.cons_append, List.dropWhile_cons, if_pos (beq_self_eq_true _),
      ih]
  | object name =>
    rw [FieldType.core, bytes_object, List.cons_append, List.dropWhile_cons, if_neg (by decide)]

theorem core_cases (t : FieldType) :
    (∃ b, t.core = .base b) ∨ ∃ name, t.core = .object name ∧ t.className = name := by
  induction t with
  | base b => exact .inl ⟨b, rfl⟩
  | array t ih => exact ih
  | object name => exact .inr ⟨name, rfl, rfl⟩

theorem semi_not_mem {t : FieldType} (h : t.WellFormed) : ';' ∉ t.className := by
  induction t with
  | base => exact List.not_mem_nil
  | array t ih => exact ih h
  | object name => exact fun hmem => (h.allowed _ hmem).2.1 rfl

/-- After the dimensions, an object type is left at its semicolon and any other type
at its letter. -/
theorem after_core {t : FieldType} (h : ';' ∉ t.className) (rest : List UInt8) :
    (if (t.core.bytes ++ rest).head? = some (byte 'L') then
      (t.core.bytes ++ rest).dropWhile (· != byte ';') else t.core.bytes ++ rest).drop 1 = rest := by
  rcases core_cases t with ⟨b, hb⟩ | ⟨name, hname, hclass⟩
  · have hne : byte b.letter ≠ byte 'L' := by cases b <;> decide
    rw [hb, bytes_base, List.singleton_append, List.head?_cons, if_neg fun h => hne (Option.some.inj h)]
    rfl
  · have hL : (byte 'L' != byte ';') = true := by decide
    rw [hname, bytes_object, List.cons_append, List.append_assoc, List.singleton_append,
      if_pos List.head?_cons, List.dropWhile_cons, if_pos hL, dropWhile_name (hclass ▸ h)]
    rfl

/-- The scanner takes exactly the type at the front. -/
def Scanner.Takes (s : Scanner) (t : FieldType) : Prop := ∀ rest, s.after (t.bytes ++ rest) = rest

theorem parameterScanner_takes {t : FieldType} (h : ';' ∉ t.className) :
    parameterScanner.Takes t := by
  intro rest
  change parameterAfter _ = _
  unfold parameterAfter
  dsimp only
  rw [dropWhile_brackets]
  exact after_core h rest

theorem paramDescsScanner_takes {t : FieldType} (h : ';' ∉ t.className) :
    paramDescsScanner.Takes t := by
  intro rest
  change paramDescsAfter _ = _
  cases t with
  | base t =>
    have hL : byte t.letter ≠ byte 'L' := by cases t <;> decide
    have hbracket : byte t.letter ≠ byte '[' := by cases t <;> decide
    rw [bytes_base, List.singleton_append, paramDescsAfter, if_neg hL, if_neg hbracket]
  | array t =>
    have hcore := after_core (t := t) h rest
    rw [bytes_array, List.cons_append, paramDescsAfter, if_neg (by decide), if_pos rfl,
      dropWhile_brackets]
    dsimp only
    split
    · next hhead => rwa [if_pos hhead] at hcore
    · next hhead => rwa [if_neg hhead] at hcore
  | object name =>
    have hname : ';' ∉ name := h
    rw [bytes_object, List.cons_append, List.append_assoc, List.singleton_append, paramDescsAfter,
      if_pos rfl, dropWhile_name hname]
    rfl

theorem bytes_head (t : FieldType) : ∃ b rest, t.bytes = b :: rest ∧ b < 0x80 := by
  cases t with
  | base t => exact ⟨_, _, bytes_base t, by cases t <;> decide⟩
  | array t => exact ⟨_, _, bytes_array t, by decide⟩
  | object name => exact ⟨_, _, bytes_object name, by decide⟩

/-! ## All parameters -/

theorem text_params (params : List FieldType) :
    utf8.text (params.flatMap FieldType.text) = params.flatMap FieldType.bytes := by
  induction params with
  | nil => rfl
  | cons p params ih => rw [List.flatMap_cons, utf8.text_append, ih, List.flatMap_cons]; rfl

theorem isCharBoundary_params (params : List FieldType) :
    isCharBoundary (params.flatMap FieldType.bytes) = true := by
  cases params with
  | nil => rfl
  | cons p params =>
    obtain ⟨b, rest, hb, hlt⟩ := bytes_head p
    rw [List.flatMap_cons, hb, List.cons_append, isCharBoundary]
    simp [hlt]

theorem Scanner.slices_params {s : Scanner} {params : List FieldType}
    (h : ∀ p ∈ params, s.Takes p) (out : List (List UInt8)) :
    s.slices out (params.flatMap FieldType.bytes) = some (out ++ params.map FieldType.bytes) := by
  induction params generalizing out with
  | nil => simp [slices]
  | cons p params ih =>
    obtain ⟨b, rest, hb, -⟩ := bytes_head p
    have htake := h p List.mem_cons_self (params.flatMap FieldType.bytes)
    have htoken : (p.bytes ++ params.flatMap FieldType.bytes).take
        ((p.bytes ++ params.flatMap FieldType.bytes).length -
          (params.flatMap FieldType.bytes).length) = p.bytes := by
      rw [List.length_append, Nat.add_sub_cancel, List.take_left]
    rw [List.flatMap_cons]
    rw [hb, List.cons_append] at htake htoken ⊢
    rw [slices, htake, htoken, if_pos (isCharBoundary_params params),
      ih fun q hq => h q (List.mem_cons_of_mem _ hq), List.map_cons, List.append_assoc, hb]
    rfl

theorem Scanner.count_params {s : Scanner} {params : List FieldType}
    (h : ∀ p ∈ params, s.Takes p) (n : ℕ) :
    s.count n (params.flatMap FieldType.bytes) = n + params.length := by
  induction params generalizing n with
  | nil => simp [count]
  | cons p params ih =>
    obtain ⟨b, rest, hb, -⟩ := bytes_head p
    have htake := h p List.mem_cons_self (params.flatMap FieldType.bytes)
    rw [List.flatMap_cons]
    rw [hb, List.cons_append] at htake ⊢
    rw [count, htake, ih fun q hq => h q (List.mem_cons_of_mem _ hq), List.length_cons]
    omega

end ScalaRs.JvmDescriptors
