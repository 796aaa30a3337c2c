import Mathlib.Data.List.TakeWhile
import ScalaRs.EnoughFuel
import ScalaRs.JavaSignatures

/-! # What the reader of Java signatures gets

The value that is read from each part of a written signature, if any. Enough fuel gives it. -/
namespace ScalaRs.JavaSignatures
open CodeUnits JvmDescriptors JvmSignatures EnoughFuel Filter

/-- What an identifier is free of. -/
abbrev reserved : List Char := ['.', ';', '[', '/', '<', '>', ':']

abbrev Name := Ident reserved

def isWordChar (c : Char) : Bool := isWord (code c)

/-- The names that the reader takes. -/
def IsWord (name : List Char) : Prop := ∀ c ∈ name, isWordChar c = true

instance (name : List Char) : Decidable (IsWord name) :=
  inferInstanceAs (Decidable (∀ c ∈ name, isWordChar c = true))

/-! ## Values -/

def letterValue : BaseType → JType
  | .B => .byte
  | .C => .char
  | .D => .double
  | .F => .float
  | .I => .int
  | .J => .long
  | .S => .short
  | .Z => .boolean

def varied : Variance → JType → JType
  | .exact, t => t
  | .upper, t => .upper t
  | .lower, t => .lower t

def packageRead (package : List Name) : Option (List Char) :=
  if ∀ name ∈ package, IsWord name.text then some (packageText package) else none

mutual

def readJava : JavaType reserved → Option JType
  | .base t => some (letterValue t)
  | .ref t => readRef t

def readRef : RefType reserved → Option JType
  | .typeVar name => if IsWord name.text then some (.var name.text) else none
  | .array elem => (readJava elem).map .array
  | .cls package part => do
      let jvm ← packageRead package
      let (part, args) ← readPart [] part
      some (.cls (jvm ++ part) args)

/-- A class without arguments keeps those of the class that it is in. -/
def readPart (args : List JType) : ClassPart reserved → Option (List Char × List JType)
  | .last name targs =>
      if IsWord name.text then do
        let read ← readArgs targs
        some (name.text, if targs.isNil then args else read)
      else none
  | .outer name targs inner =>
      if IsWord name.text then do
        let read ← readArgs targs
        let (part, args) ← readPart (if targs.isNil then args else read) inner
        some (name.text ++ '$' :: part, args)
      else none

def readArgs : TypeArgs reserved → Option (List JType)
  | .nil => some []
  | .star rest => (readArgs rest).map (JType.star :: ·)
  | .arg variance t rest => do
      let t ← readRef t
      let rest ← readArgs rest
      some (varied variance t :: rest)

end

/-! ## Bytes of a text -/

section
attribute [local simp] readPart ClassPart.text parseSegments parseInner readArgs parseArgs parseTypeArg RefType.text parseRef readRef TypeArgs.items JavaType.text
end

theorem eat_same {c : Char} (hc : c.toNat < 128) (s : List Char) :
    eat c (utf8.text (c :: s)) = some (utf8.text s) := by
  rw [text_ascii hc]
  exact if_pos rfl

theorem eat_other {c d : Char} (hc : c.toNat < 128) (hd : c ≠ d) (s : List Char) :
    eat c (utf8.text (d :: s)) = none := by
  obtain ⟨u, us, heq, hu⟩ := text_cons_eq d s
  rw [heq]
  exact if_neg (hu c hc hd)

theorem isWord_other : ∀ n, 128 ≤ n → isWord n = isWord 128 := by
  intro n hn
  have hfalse : isWord 128 = false := by decide
  rw [hfalse]
  simp [isWord]
  omega

/-- The bytes of a word are its characters. -/
theorem chars_text {name : List Char} (h : IsWord name) :
    (utf8.text name).map (fun b => Char.ofNat b.toNat) = name := by
  induction name with
  | nil => rfl
  | cons c name ih =>
      have hc : c.toNat < 128 := by
        have hword : isWord c.toNat = true := h c List.mem_cons_self
        simp [isWord] at hword
        omega
      rw [text_ascii hc, List.map_cons, ih fun d hd => h d (List.mem_cons_of_mem _ hd)]
      have hbyte : (JvmDescriptors.byte c).toNat = c.toNat := by
        rw [JvmDescriptors.byte, UInt8.toNat_ofNat']
        omega
      rw [hbyte, Char.ofNat_toNat]

theorem ident_text (s : List Char) : ident (utf8.text s) =
    if s.takeWhile isWordChar = [] then none
    else some (s.takeWhile isWordChar, utf8.text (s.dropWhile isWordChar)) := by
  rw [ident, utf8.takeWhile_text isWord_other, utf8.dropWhile_text isWord_other]
  change (if utf8.text (s.takeWhile isWordChar) = [] then none else
    some ((utf8.text (s.takeWhile isWordChar)).map _, utf8.text (s.dropWhile isWordChar))) = _
  have hnil : utf8.text (s.takeWhile isWordChar) = [] ↔ s.takeWhile isWordChar = [] := by
    cases s.takeWhile isWordChar with
    | nil => simp
    | cons c cs => simp [utf8.encode_ne_nil]
  rw [if_congr hnil rfl rfl]
  split
  · rfl
  · rw [chars_text fun c hc => List.mem_takeWhile_imp hc]

/-- A name that is a word is read up to the delimiter. -/
theorem ident_word {name : List Char} (h : IsWord name) (hne : name ≠ []) {d : Char}
    (hd : isWordChar d = false) (rest : List Char) :
    ident (utf8.text (name ++ d :: rest)) = some (name, utf8.text (d :: rest)) := by
  rw [ident_text, List.takeWhile_append_of_pos h, List.dropWhile_append_of_pos h]
  simp [hd, hne]

/-- Of other names only a part is read, up to a character that is no delimiter. -/
theorem ident_other {name : Name} (h : ¬IsWord name.text) (rest : List Char) :
    ident (utf8.text (name.text ++ rest)) = none ∨ ∃ part c s, c ∉ reserved ∧
      ident (utf8.text (name.text ++ rest)) = some (part, utf8.text (c :: s)) := by
  obtain ⟨c, hc, hother⟩ : ∃ c ∈ name.text, ¬isWordChar c = true := by
    simpa [IsWord] using h
  have hdrop : name.text.dropWhile isWordChar ≠ [] := fun hnil =>
    hother (List.dropWhile_eq_nil_iff.1 hnil c hc)
  obtain ⟨d, s, heq⟩ := List.exists_cons_of_ne_nil hdrop
  have hd : d ∈ name.text := (List.dropWhile_suffix _).subset (heq ▸ List.mem_cons_self)
  have hdropAll : (name.text ++ rest).dropWhile isWordChar = d :: (s ++ rest) := by
    rw [List.dropWhile_append, heq]
    rfl
  rw [ident_text, hdropAll]
  split
  · exact .inl rfl
  · exact .inr ⟨_, d, s ++ rest, name.allowed d hd, rfl⟩

theorem isWordChar_reserved {d : Char} (hd : d ∈ reserved) :
    d.toNat < 128 ∧ isWordChar d = false := by
  simp only [reserved, List.mem_cons, List.not_mem_nil, or_false] at hd
  rcases hd with rfl | rfl | rfl | rfl | rfl | rfl | rfl <;> decide

/-- An identifier and the delimiter after it. -/
theorem ident_eat {α : Type} {name : Name} {d : Char} (hd : d ∈ reserved) (rest : List Char)
    (k : List Char → Bytes → Option α) :
    (ident (utf8.text (name.text ++ d :: rest))).bind
        (fun p => (eat d p.2).bind fun s => k p.1 s) =
      if IsWord name.text then k name.text (utf8.text rest) else none := by
  obtain ⟨hascii, hword⟩ := isWordChar_reserved hd
  by_cases h : IsWord name.text
  · rw [ident_word h name.nonempty hword, if_pos h, Option.bind_some, eat_same hascii]
    rfl
  · rw [if_neg h]
    rcases ident_other h (d :: rest) with hnone | ⟨part, c, s, hc, hsome⟩
    · rw [hnone]
      rfl
    · have hne : d ≠ c := fun heq => hc (heq ▸ hd)
      rw [hsome, Option.bind_some, eat_other hascii hne]
      rfl

/-! ## Classes -/

/-- A name that is no word, and what is left after a part of it. -/
theorem parseSegments_other {name : Name} (h : ¬IsWord name.text) (rest jvm : List Char) (n : ℕ) :
    parseSegments n jvm (utf8.text (name.text ++ rest)) = none := by
  cases n with
  | zero => rfl
  | succ n =>
      rw [parseSegments]
      rcases ident_other h rest with hnone | ⟨part, c, s, hc, hsome⟩
      · rw [hnone]
        rfl
      · obtain ⟨u, us, heq, hu⟩ := text_cons_eq c s
        simp only [reserved, List.mem_cons, List.not_mem_nil, or_false, not_or] at hc
        simp only [hsome, heq, Option.bind_eq_bind, Option.bind_some]
        rw [if_neg (hu '/' (by decide) (Ne.symm hc.2.2.2.1)), if_neg (hu '.' (by decide) (Ne.symm hc.1)),
          if_neg (hu '<' (by decide) (Ne.symm hc.2.2.2.2.1)), if_neg (hu ';' (by decide) (Ne.symm hc.2.1))]

section
variable {name : Name} (h : IsWord name.text) (rest jvm : List Char) (n : ℕ)
include h

theorem parseSegments_slash :
    parseSegments (n + 1) jvm (utf8.text (name.text ++ '/' :: rest)) =
      parseSegments n (jvm ++ name.text ++ ['/']) (utf8.text rest) := by
  rw [parseSegments, ident_word h name.nonempty (by decide), text_ascii (by decide)]
  rfl

theorem parseSegments_dot :
    parseSegments (n + 1) jvm (utf8.text (name.text ++ '.' :: rest)) =
      parseSegments n (jvm ++ name.text ++ ['$']) (utf8.text rest) := by
  rw [parseSegments, ident_word h name.nonempty (by decide), text_ascii (by decide)]
  rfl

theorem parseSegments_semicolon :
    parseSegments (n + 1) jvm (utf8.text (name.text ++ ';' :: rest)) =
      some (.cls (jvm ++ name.text) [], utf8.text rest) := by
  rw [parseSegments, ident_word h name.nonempty (by decide), text_ascii (by decide)]
  rfl

theorem parseSegments_args :
    parseSegments (n + 1) jvm (utf8.text (name.text ++ '<' :: rest)) =
      (parseTypeArgs n (utf8.text ('<' :: rest))).bind fun p =>
        parseInner n (jvm ++ name.text) p.1 p.2 := by
  rw [parseSegments, ident_word h name.nonempty (by decide), text_ascii (by decide)]
  rfl

end

theorem parseInner_semicolon (jvm : List Char) (args : List JType) (rest : List Char) (n : ℕ) :
    parseInner (n + 1) jvm args (utf8.text (';' :: rest)) =
      some (.cls jvm args, utf8.text rest) := by
  rw [parseInner, eat_other (by decide) (by decide), eat_same (by decide)]
  rfl

/-- A name that is no word, after the dot. -/
theorem parseInner_other {name : Name} (h : ¬IsWord name.text) (jvm : List Char)
    (args : List JType) (rest : List Char) (n : ℕ) :
    parseInner n jvm args (utf8.text ('.' :: (name.text ++ rest))) = none := by
  cases n with
  | zero => rfl
  | succ n =>
      rw [parseInner, eat_same (by decide)]
      dsimp only
      rcases ident_other h rest with hnone | ⟨part, c, s, hc, hsome⟩
      · rw [hnone]
        rfl
      · obtain ⟨u, us, heq, hu⟩ := text_cons_eq c s
        simp only [reserved, List.mem_cons, List.not_mem_nil, or_false, not_or] at hc
        have hargs : (utf8.text (c :: s)).head? ≠ some (JvmDescriptors.byte '<') := by
          rw [heq, List.head?_cons, ne_eq, Option.some.injEq]
          exact hu '<' (by decide) (Ne.symm hc.2.2.2.2.1)
        simp only [hsome, Option.bind_eq_bind, Option.bind_some, if_neg hargs]
        cases n with
        | zero => rfl
        | succ n =>
            rw [parseInner, eat_other (by decide) (Ne.symm hc.1),
              eat_other (by decide) (Ne.symm hc.2.1)]
            rfl

section
variable {name : Name} (h : IsWord name.text) (jvm : List Char) (args : List JType)
  (rest : List Char) (n : ℕ)
include h

theorem parseInner_raw {d : Char} (hd : d = '.' ∨ d = ';') :
    parseInner (n + 1) jvm args (utf8.text ('.' :: (name.text ++ d :: rest))) =
      parseInner n (jvm ++ '$' :: name.text) args (utf8.text (d :: rest)) := by
  have hdelim : isWordChar d = false ∧ (utf8.text (d :: rest)).head? ≠
      some (JvmDescriptors.byte '<') := by
    rcases hd with rfl | rfl <;> refine ⟨by decide, ?_⟩ <;> rw [text_ascii (by decide)] <;>
      exact fun heq => absurd (Option.some.inj heq) (by decide)
  rw [parseInner, eat_same (by decide)]
  dsimp only
  rw [ident_word h name.nonempty hdelim.1]
  simp only [Option.bind_eq_bind, Option.bind_some, if_neg hdelim.2]

theorem parseInner_args :
    parseInner (n + 1) jvm args (utf8.text ('.' :: (name.text ++ '<' :: rest))) =
      (parseTypeArgs n (utf8.text ('<' :: rest))).bind fun p =>
        parseInner n (jvm ++ '$' :: name.text) p.1 p.2 := by
  have hargs : (utf8.text ('<' :: rest)).head? = some (JvmDescriptors.byte '<') := by
    rw [text_ascii (by decide)]
    rfl
  rw [parseInner, eat_same (by decide)]
  dsimp only
  rw [ident_word h name.nonempty (by decide)]
  simp only [Option.bind_eq_bind, Option.bind_some, if_pos hargs]

end

/-- A type starts with a letter of its own. -/
theorem refText_cons (t : RefType reserved) : ∃ c s, t.text = c :: s ∧
    (c = 'T' ∨ c = '[' ∨ c = 'L') := by
  cases t with
  | typeVar name => exact ⟨'T', _, rfl, .inl rfl⟩
  | array elem => exact ⟨'[', _, rfl, .inr (.inl rfl)⟩
  | cls package part => exact ⟨'L', _, rfl, .inr (.inr rfl)⟩

theorem parseTypeArgs_eq (n : ℕ) (rest : List Char) :
    parseTypeArgs (n + 1) (utf8.text ('<' :: rest)) = parseArgs n [] (utf8.text rest) := by
  rw [parseTypeArgs, eat_same (by decide)]
  rfl

/-- One argument, from what is read of its type. -/
theorem parseTypeArg_text (variance : Variance) (t : RefType reserved) {rest : List Char}
    (h : ∀ᶠ n in atTop, parseRef n (utf8.text (t.text ++ rest)) =
      (readRef t).map fun x => (x, utf8.text rest)) :
    ∀ᶠ n in atTop, parseTypeArg n (utf8.text (variance.text ++ t.text ++ rest)) =
      (readRef t).map fun x => (varied variance x, utf8.text rest) := by
  apply eventually_succ
  filter_upwards [h] with n hn
  cases variance with
  | exact =>
      obtain ⟨c, s, hc, hletter⟩ := refText_cons t
      rw [hc, List.cons_append] at hn
      rw [Variance.text, List.nil_append, hc, List.cons_append]
      rcases hletter with rfl | rfl | rfl <;> rw [text_ascii (by decide)] at hn ⊢ <;>
        exact hn
  | upper =>
      rw [Variance.text, List.append_assoc, List.singleton_append, text_ascii (by decide),
        parseTypeArg, if_neg (by decide), if_pos rfl, hn]
      cases readRef t <;> rfl
  | lower =>
      rw [Variance.text, List.append_assoc, List.singleton_append, text_ascii (by decide),
        parseTypeArg, if_neg (by decide), if_neg (by decide), if_pos rfl, hn]
      cases readRef t <;> rfl

/-- A package and the class in it. -/
theorem parseSegments_package {package : List Name} {rest : List Char}
    {x : List Char → Option (JType × Bytes)}
    (h : ∀ jvm, ∀ᶠ n in atTop, parseSegments n jvm (utf8.text rest) = x jvm) (jvm : List Char) :
    ∀ᶠ n in atTop, parseSegments n jvm (utf8.text (packageText package ++ rest)) =
      (packageRead package).bind fun p => x (jvm ++ p) := by
  induction package generalizing jvm with
  | nil => simpa [packageRead, packageText] using h jvm
  | cons name package ih =>
      have htext : packageText (name :: package) ++ rest =
          name.text ++ '/' :: (packageText package ++ rest) := by
        simp [packageText]
      rw [htext]
      by_cases hword : IsWord name.text
      · apply eventually_succ
        filter_upwards [ih (jvm ++ name.text ++ ['/'])] with n hn
        rw [parseSegments_slash hword, hn]
        by_cases hall : ∀ name ∈ package, IsWord name.text
        · have hall' : ∀ m ∈ name :: package, IsWord m.text := List.forall_mem_cons.2 ⟨hword, hall⟩
          rw [packageRead, if_pos hall, packageRead, if_pos hall']
          simp [packageText]
        · have hnot : ¬∀ m ∈ name :: package, IsWord m.text := fun hm =>
            hall fun m hmem => hm m (List.mem_cons_of_mem _ hmem)
          rw [packageRead, if_neg hall, packageRead, if_neg hnot]
          rfl
      · have hnot : ¬∀ m ∈ name :: package, IsWord m.text := fun hm =>
          hword (hm name List.mem_cons_self)
        rw [packageRead, if_neg hnot]
        exact .of_forall fun n => parseSegments_other hword _ _ n

mutual

theorem parseJavaType_text (t : JavaType reserved) (rest : List Char) :
    ∀ᶠ n in atTop, parseJavaType n (utf8.text (t.text ++ rest)) =
      (readJava t).map fun x => (x, utf8.text rest) := by
  apply eventually_succ
  cases t with
  | base t =>
      apply Eventually.of_forall
      intro n
      cases t <;> rw [JavaType.text, List.singleton_append, text_ascii (by decide)] <;> rfl
  | ref t =>
      filter_upwards [parseRef_text t rest] with n hn
      obtain ⟨c, s, hc, hletter⟩ := refText_cons t
      rw [JavaType.text, readJava]
      rw [hc, List.cons_append] at hn ⊢
      rcases hletter with rfl | rfl | rfl <;> rw [text_ascii (by decide)] at hn ⊢ <;> exact hn

theorem parseRef_text (t : RefType reserved) (rest : List Char) :
    ∀ᶠ n in atTop, parseRef n (utf8.text (t.text ++ rest)) =
      (readRef t).map fun x => (x, utf8.text rest) := by
  apply eventually_succ
  cases t with
  | typeVar name =>
      apply Eventually.of_forall
      intro n
      simp only [RefType.text, List.cons_append, List.append_assoc, List.nil_append]
      rw [text_ascii (by decide), parseRef, if_pos rfl, readRef]
      apply (@ident_eat (JType × Bytes) name ';' (by decide) rest
        fun name s => some (.var name, s)).trans
      split <;> rfl
  | array elem =>
      filter_upwards [parseJavaType_text elem rest] with n hn
      rw [RefType.text, List.cons_append, text_ascii (by decide), parseRef, if_neg (by decide),
        if_pos rfl, hn, readRef]
      cases readJava elem <;> rfl
  | cls package part =>
      apply eventually_succ
      have hpart := @parseSegments_package package _ _
        (fun jvm => parseSegments_text part jvm rest) []
      filter_upwards [hpart] with n hn
      simp only [RefType.text, List.cons_append, List.append_assoc, List.nil_append]
      rw [text_ascii (by decide), parseRef, if_neg (by decide), if_neg (by decide), if_pos rfl,
        ← text_ascii (by decide), parseClass, eat_same (by decide)]
      apply hn.trans
      rw [readRef]
      cases packageRead package with
      | none => rfl
      | some p => cases readPart [] part <;> rfl

theorem parseSegments_text (part : ClassPart reserved) (jvm rest : List Char) :
    ∀ᶠ n in atTop, parseSegments n jvm (utf8.text (part.text ++ ';' :: rest)) =
      (readPart [] part).map fun p => (.cls (jvm ++ p.1) p.2, utf8.text rest) := by
  cases part with
  | last name targs =>
      by_cases hword : IsWord name.text
      · rw [ClassPart.text, TypeArgs.text_eq, readPart, if_pos hword]
        cases hnil : targs.isNil with
        | true =>
            apply eventually_succ
            apply Eventually.of_forall
            intro n
            obtain rfl := TypeArgs.eq_nil hnil
            simp only [if_true, List.append_nil]
            rw [parseSegments_semicolon hword]
            rfl
        | false =>
            apply eventually_succ
            apply eventually_succ
            filter_upwards [parseArgs_text targs [] (';' :: rest)] with n hn
            simp only [Bool.false_eq_true, if_false, List.append_assoc, List.cons_append,
              List.nil_append]
            rw [parseSegments_args hword, parseTypeArgs_eq, hn]
            cases readArgs targs with
            | none => rfl
            | some xs => exact parseInner_semicolon _ _ _ n
      · apply Eventually.of_forall
        intro n
        rw [ClassPart.text, List.append_assoc, parseSegments_other hword, readPart, if_neg hword]
        rfl
  | outer name targs inner =>
      by_cases hword : IsWord name.text
      · rw [ClassPart.text, TypeArgs.text_eq, readPart, if_pos hword]
        cases hnil : targs.isNil with
        | true =>
            apply eventually_succ
            filter_upwards [parseSegments_text inner (jvm ++ name.text ++ ['$']) rest] with n hn
            obtain rfl := TypeArgs.eq_nil hnil
            simp only [if_true, List.append_nil, List.append_assoc, List.cons_append,
              List.nil_append] at hn ⊢
            rw [parseSegments_dot hword, List.append_assoc, hn]
            simp only [readArgs, Option.bind_eq_bind, Option.bind_some]
            cases readPart [] inner <;> simp
        | false =>
            apply eventually_succ
            apply eventually_succ
            simp only [Bool.false_eq_true, if_false, List.append_assoc, List.cons_append,
              List.nil_append]
            have hargs := parseArgs_text targs [] ('.' :: (inner.text ++ ';' :: rest))
            cases hread : readArgs targs with
            | none =>
                filter_upwards [hargs] with n hn
                rw [parseSegments_args hword, parseTypeArgs_eq, hn, hread]
                rfl
            | some xs =>
                filter_upwards [hargs,
                  eventually_next (parseInner_text inner (jvm ++ name.text) xs rest)] with n hn hinner
                rw [parseSegments_args hword, parseTypeArgs_eq, hn, hread]
                simp only [Option.map_some, Option.bind_some, Option.bind_eq_bind, List.nil_append,
                  ← List.cons_append, hinner]
                cases readPart xs inner <;> simp
      · apply Eventually.of_forall
        intro n
        rw [ClassPart.text, List.append_assoc, List.append_assoc, parseSegments_other hword,
          readPart, if_neg hword]
        rfl

theorem parseInner_text (part : ClassPart reserved) (jvm : List Char) (args : List JType)
    (rest : List Char) :
    ∀ᶠ n in atTop, parseInner n jvm args (utf8.text ('.' :: part.text ++ ';' :: rest)) =
      (readPart args part).map fun p => (.cls (jvm ++ '$' :: p.1) p.2, utf8.text rest) := by
  cases part with
  | last name targs =>
      by_cases hword : IsWord name.text
      · rw [ClassPart.text, TypeArgs.text_eq, readPart, if_pos hword]
        apply eventually_succ
        apply eventually_succ
        cases hnil : targs.isNil with
        | true =>
            apply Eventually.of_forall
            intro n
            obtain rfl := TypeArgs.eq_nil hnil
            simp only [if_true, List.append_nil, List.cons_append]
            rw [parseInner_raw hword _ _ _ _ (.inr rfl), parseInner_semicolon]
            rfl
        | false =>
            simp only [Bool.false_eq_true, if_false, List.append_assoc, List.cons_append,
              List.nil_append]
            filter_upwards [parseArgs_text targs [] (';' :: rest)] with n hn
            rw [parseInner_args hword, parseTypeArgs_eq, hn]
            cases readArgs targs with
            | none => rfl
            | some xs => exact parseInner_semicolon _ _ _ n
      · apply Eventually.of_forall
        intro n
        rw [ClassPart.text, List.cons_append, List.append_assoc, parseInner_other hword, readPart,
          if_neg hword]
        rfl
  | outer name targs inner =>
      by_cases hword : IsWord name.text
      · rw [ClassPart.text, TypeArgs.text_eq, readPart, if_pos hword]
        cases hnil : targs.isNil with
        | true =>
            apply eventually_succ
            filter_upwards [parseInner_text inner (jvm ++ '$' :: name.text) args rest] with n hn
            obtain rfl := TypeArgs.eq_nil hnil
            simp only [if_true, List.append_nil, List.append_assoc, List.cons_append] at hn ⊢
            rw [parseInner_raw hword _ _ _ _ (.inl rfl), hn]
            simp only [readArgs, Option.bind_eq_bind, Option.bind_some]
            cases readPart args inner <;> simp
        | false =>
            apply eventually_succ
            apply eventually_succ
            simp only [Bool.false_eq_true, if_false, List.append_assoc, List.cons_append,
              List.nil_append]
            have hargs := parseArgs_text targs [] ('.' :: (inner.text ++ ';' :: rest))
            cases hread : readArgs targs with
            | none =>
                filter_upwards [hargs] with n hn
                rw [parseInner_args hword, parseTypeArgs_eq, hn, hread]
                rfl
            | some xs =>
                filter_upwards [hargs, eventually_next
                  (parseInner_text inner (jvm ++ '$' :: name.text) xs rest)] with n hn hinner
                rw [parseInner_args hword, parseTypeArgs_eq, hn, hread]
                simp only [Option.map_some, Option.bind_some, Option.bind_eq_bind, List.nil_append,
                  ← List.cons_append, hinner]
                cases readPart xs inner <;> simp
      · apply Eventually.of_forall
        intro n
        rw [ClassPart.text, List.cons_append, List.append_assoc, List.append_assoc,
          parseInner_other hword, readPart, if_neg hword]
        rfl

theorem parseArgs_text (targs : TypeArgs reserved) (args : List JType) (rest : List Char) :
    ∀ᶠ n in atTop, parseArgs n args (utf8.text (targs.items ++ '>' :: rest)) =
      (readArgs targs).map fun xs => (args ++ xs, utf8.text rest) := by
  apply eventually_succ
  cases targs with
  | nil =>
      apply Eventually.of_forall
      intro n
      rw [TypeArgs.items, List.nil_append, parseArgs, eat_same (by decide), readArgs]
      simp
  | star targs =>
      apply eventually_succ
      filter_upwards [eventually_next (parseArgs_text targs (args ++ [.star]) rest)] with n hn
      rw [TypeArgs.items, List.cons_append, parseArgs, eat_other (by decide) (by decide)]
      dsimp only
      rw [text_ascii (by decide), parseTypeArg, if_pos rfl, readArgs]
      simp only [Option.bind_eq_bind, Option.bind_some, hn]
      cases readArgs targs <;> simp
  | arg variance t targs =>
      have ht := parseTypeArg_text variance t (parseRef_text t (targs.items ++ '>' :: rest))
      have hfirst : eat '>' (utf8.text
          (variance.text ++ t.text ++ (targs.items ++ '>' :: rest))) = none := by
        obtain ⟨c, s, hc, hletter⟩ := refText_cons t
        rw [hc]
        cases variance with
        | exact => rcases hletter with rfl | rfl | rfl <;> exact eat_other (by decide) (by decide) _
        | upper => exact eat_other (by decide) (by decide) _
        | lower => exact eat_other (by decide) (by decide) _
      rw [TypeArgs.items, readArgs, List.append_assoc]
      cases hread : readRef t with
      | none =>
          filter_upwards [ht] with n hn
          rw [parseArgs, hfirst]
          dsimp only
          rw [hn, hread]
          rfl
      | some x =>
          filter_upwards [ht, parseArgs_text targs (args ++ [varied variance x]) rest] with n hn hrest
          rw [parseArgs, hfirst]
          dsimp only
          rw [hn, hread]
          simp only [Option.map_some, Option.bind_eq_bind, Option.bind_some, hrest]
          cases readArgs targs <;> simp

end

end ScalaRs.JavaSignatures
