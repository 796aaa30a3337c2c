import ScalaRs.MacroReferences
import ScalaRs.Utf16Offsets

/-! # Searching for a large needle

A leading slice of the needle, the key, locates the candidates, and each is checked in
full. Positions count bytes, and a slice off a character boundary is a panic, `none`. -/
namespace ScalaRs.KeyedSearch
open Lexing Utf16Offsets

/-- Where the first occurrence starts, with sizes for the characters before it. -/
def findBy (size : Char → ℕ) (needle : List Char) : List Char → Option ℕ
  | [] => if needle = [] then some 0 else none
  | c :: haystack =>
    if needle <+: c :: haystack then some 0
    else (findBy size needle haystack).map (size c + ·)

/-- `str::find` -/
def find (haystack needle : List Char) : Option ℕ := findBy Char.utf8Size needle haystack

def isCharBoundary (text : List Char) (pos : ℕ) : Bool := (splitBytes pos text).isSome

/-- The last boundary up to there. -/
def boundaryBelow (text : List Char) : ℕ → ℕ
  | 0 => 0
  | keyed + 1 => if isCharBoundary text (keyed + 1) then keyed + 1 else boundaryBelow text keyed

/-- `&text[from..]` -/
def sliceFrom (text : List Char) (start : ℕ) : Option (List Char) :=
  (splitBytes start text).map Prod.snd

/-- `&text[..to]` -/
def sliceTo (text : List Char) (stop : ℕ) : Option (List Char) :=
  (splitBytes stop text).map Prod.fst

section
attribute [local simp] findBy boundaryBelow
end

theorem sliceFrom_le {text rest : List Char} {start : ℕ} (h : sliceFrom text start = some rest) :
    start + byteLength rest = byteLength text := by
  obtain ⟨parts, hparts, rfl⟩ := Option.map_eq_some_iff.mp h
  obtain ⟨rfl, rfl⟩ := splitBytes_eq_some.mp hparts
  exact (byteLength_append parts.1 parts.2).symm

/-- `key.chars().next().map_or(1, char::len_utf8)` -/
def keyStep (key : List Char) : ℕ := (key.head?.map Char.utf8Size).getD 1

theorem keyStep_pos (key : List Char) : 0 < keyStep key := by
  cases key with
  | nil => exact Nat.one_pos
  | cons c key => exact c.utf8Size_pos

/-- The candidates from a position on, each checked in full. -/
def searchFrom (haystack needle key : List Char) (start : ℕ) : Option (Option ℕ) :=
  match _h : sliceFrom haystack start with
  | none => none
  | some rest =>
    match find rest key with
    | none => some none
    | some offset =>
      match sliceFrom haystack (start + offset) with
      | none => none
      | some candidate =>
        if needle <+: candidate then some (some (start + offset))
        else searchFrom haystack needle key (start + offset + keyStep key)
termination_by byteLength haystack + 1 - start
decreasing_by
  have hle := sliceFrom_le _h
  have hstep := keyStep_pos key
  omega

/-- `none` is a panic. -/
def findLarge (haystack needle : List Char) : Option (Option ℕ) :=
  if byteLength needle > byteLength haystack then some none
  else
    let keyed := boundaryBelow needle (min (byteLength needle) 48)
    if keyed = 0 then some (some 0)
    else
      match sliceTo needle keyed with
      | none => none
      | some key => searchFrom haystack needle key 0

/-! ## Occurrences -/

section Occurrences

variable {size : Char → ℕ} {needle key : List Char}

theorem findBy_of_isPrefix {text : List Char} (h : needle <+: text) :
    findBy size needle text = some 0 := by
  cases text with
  | nil => rw [findBy, if_pos (List.prefix_nil.mp h)]
  | cons c text => rw [findBy, if_pos h]

theorem findBy_cons_of_not {text : List Char} {c : Char} (h : ¬ needle <+: c :: text) :
    findBy size needle (c :: text) = (findBy size needle text).map (size c + ·) := by
  rw [findBy, if_neg h]

/-- Where a key is not found, no needle that it leads is. -/
theorem findBy_eq_none_of_key {text : List Char} (hkey : key <+: needle)
    (h : findBy size key text = none) : findBy size needle text = none := by
  induction text with
  | nil =>
      rw [findBy] at h ⊢
      split at h
      · cases h
      · rename_i hne
        rw [if_neg]
        intro hnil
        subst hnil
        exact hne (List.prefix_nil.mp hkey)
  | cons c text ih =>
      by_cases hat : key <+: c :: text
      · rw [findBy_of_isPrefix hat] at h
        cases h
      · rw [findBy_cons_of_not hat, Option.map_eq_none_iff] at h
        rw [findBy_cons_of_not fun hn => hat (hkey.trans hn), ih h]
        rfl

/-- A needle does not start before the first occurrence of a key that leads it. -/
theorem findBy_of_key {text : List Char} {offset : ℕ} (h : findBy size key text = some offset) :
    ∃ skipped rest, text = skipped ++ rest ∧ (skipped.map size).sum = offset ∧ key <+: rest ∧
      ∀ needle, key <+: needle →
        findBy size needle text = (findBy size needle rest).map (offset + ·) := by
  induction text generalizing offset with
  | nil =>
      rw [findBy] at h
      split at h
      · rename_i hnil
        cases h
        refine ⟨[], [], rfl, rfl, List.prefix_nil.mpr hnil, ?_⟩
        intro needle _
        simp
      · cases h
  | cons c text ih =>
      by_cases hat : key <+: c :: text
      · rw [findBy_of_isPrefix hat] at h
        cases h
        refine ⟨[], c :: text, rfl, rfl, hat, ?_⟩
        intro needle _
        simp
      · rw [findBy_cons_of_not hat] at h
        obtain ⟨below, hbelow, rfl⟩ := Option.map_eq_some_iff.mp h
        obtain ⟨skipped, rest, rfl, hlen, hrest, hneedle⟩ := ih hbelow
        refine ⟨c :: skipped, rest, rfl, ?_, hrest, ?_⟩
        · rw [List.map_cons, List.sum_cons, hlen]
        · intro needle hkey
          rw [findBy_cons_of_not fun hn => hat (hkey.trans hn), hneedle needle hkey,
            Option.map_map]
          congr 1
          funext p
          exact (Nat.add_assoc (size c) below p).symm

end Occurrences

theorem find_eq_none_of_longer {needle text : List Char} (h : byteLength text < byteLength needle) :
    find text needle = none := by
  by_contra hfound
  obtain ⟨offset, hoffset⟩ := Option.ne_none_iff_exists'.mp hfound
  obtain ⟨skipped, rest, rfl, -, hrest, -⟩ := findBy_of_key hoffset
  obtain ⟨after, rfl⟩ := hrest
  rw [byteLength_append, byteLength_append] at h
  omega

theorem sliceFrom_append (before after : List Char) :
    sliceFrom (before ++ after) (byteLength before) = some after := by
  rw [sliceFrom, splitBytes_append]
  rfl

/-- From any boundary the search gives the first occurrence from there on. -/
theorem searchFrom_spec {needle key : List Char} (hkey : key <+: needle) (hne : key ≠ [])
    (before after : List Char) : searchFrom (before ++ after) needle key (byteLength before) =
      some ((find after needle).map (byteLength before + ·)) := by
  induction hn : after.length using Nat.strong_induction_on generalizing before after with
  | _ n ih =>
      rw [searchFrom, sliceFrom_append]
      dsimp only
      cases hfind : find after key with
      | none =>
          have hnone : find after needle = none := findBy_eq_none_of_key hkey hfind
          rw [hnone]
          rfl
      | some offset =>
          obtain ⟨skipped, rest, rfl, rfl, hrest, hneedle⟩ := findBy_of_key hfind
          have hfirst : find (skipped ++ rest) needle =
              (find rest needle).map (byteLength skipped + ·) := hneedle needle hkey
          have hpos : byteLength before + (skipped.map Char.utf8Size).sum =
              byteLength (before ++ skipped) := (byteLength_append before skipped).symm
          dsimp only
          rw [hfirst, hpos, ← List.append_assoc, sliceFrom_append]
          dsimp only
          by_cases hat : needle <+: rest
          · have hzero : find rest needle = some 0 := findBy_of_isPrefix hat
            rw [if_pos hat, hzero, byteLength_append]
            rfl
          · rw [if_neg hat]
            -- the first character of the key is that of the candidate
            obtain ⟨c, key', rfl⟩ := List.exists_cons_of_ne_nil hne
            obtain ⟨tail, rfl⟩ := hrest
            rw [List.cons_append] at hat ⊢
            have hstep : byteLength (before ++ skipped) + keyStep (c :: key') =
                byteLength (before ++ skipped ++ [c]) := by
              rw [byteLength_append (before ++ skipped)]
              rfl
            have hsplit : before ++ skipped ++ c :: (key' ++ tail) =
                (before ++ skipped ++ [c]) ++ (key' ++ tail) := by simp
            have hshort : (key' ++ tail).length < n := by
              simp only [List.length_append, List.length_cons] at hn ⊢
              omega
            have hskip : find (c :: (key' ++ tail)) needle =
                (find (key' ++ tail) needle).map (c.utf8Size + ·) := findBy_cons_of_not hat
            rw [hstep, hsplit, ih _ hshort _ _ rfl, hskip, Option.map_map, Option.map_map]
            congr 2
            funext p
            simp only [Function.comp_apply, byteLength_append, byteLength_cons, byteLength_nil]
            omega

/-! ## The key -/

theorem isCharBoundary_boundaryBelow (text : List Char) (n : ℕ) :
    isCharBoundary text (boundaryBelow text n) = true := by
  induction n with
  | zero => cases text <;> rfl
  | succ n ih =>
      rw [boundaryBelow]
      split
      · exact ‹_›
      · exact ih

theorem le_boundaryBelow {text : List Char} {n pos : ℕ} (h : isCharBoundary text pos = true)
    (hle : pos ≤ n) : pos ≤ boundaryBelow text n := by
  induction n with
  | zero => exact hle
  | succ n ih =>
      rw [boundaryBelow]
      split
      · exact hle
      · rename_i hnot
        apply ih
        have hne : pos ≠ n + 1 := fun heq => hnot (heq ▸ h)
        omega

/-- The end of the first character is a boundary that the key does not fall short of. -/
theorem boundaryBelow_pos {needle : List Char} (h : needle ≠ []) :
    0 < boundaryBelow needle (min (byteLength needle) 48) := by
  obtain ⟨c, needle, rfl⟩ := List.exists_cons_of_ne_nil h
  have hpos := c.utf8Size_pos
  have hfour := c.utf8Size_le_four
  have hfirst : isCharBoundary (c :: needle) c.utf8Size = true := by
    have hcut : splitBytes c.utf8Size (c :: needle) = some ([c], needle) :=
      splitBytes_eq_some.mpr ⟨rfl, rfl⟩
    rw [isCharBoundary, hcut]
    rfl
  have hle := le_boundaryBelow hfirst (n := min (byteLength (c :: needle)) 48) (by
    rw [byteLength_cons]
    omega)
  omega

/-- The search never slices off a boundary, and finds what `str::find` does. -/
theorem findLarge_eq (haystack needle : List Char) :
    findLarge haystack needle = some (find haystack needle) := by
  unfold findLarge
  by_cases hlong : byteLength needle > byteLength haystack
  · rw [if_pos hlong, find_eq_none_of_longer hlong]
  · rw [if_neg hlong]
    dsimp only
    by_cases hnil : needle = []
    · subst hnil
      have hzero : find haystack [] = some 0 := findBy_of_isPrefix List.nil_prefix
      rw [hzero]
      rfl
    · have hpos := boundaryBelow_pos hnil
      rw [if_neg hpos.ne']
      obtain ⟨parts, hparts⟩ :=
        Option.isSome_iff_exists.mp (isCharBoundary_boundaryBelow needle (min (byteLength needle) 48))
      obtain ⟨hneedle, hlen⟩ := splitBytes_eq_some.mp hparts
      have hkey : sliceTo needle (boundaryBelow needle (min (byteLength needle) 48)) =
          some parts.1 := by
        rw [sliceTo, hparts]
        rfl
      have hne : parts.1 ≠ [] := by
        intro hempty
        rw [hempty, byteLength_nil] at hlen
        omega
      rw [hkey]
      have hkeyed : parts.1 <+: needle := ⟨parts.2, hneedle.symm⟩
      have hsearch := searchFrom_spec hkeyed hne [] haystack
      simpa using hsearch

/-! ## Positions in characters

The macro protocol is modelled with positions that count characters. -/

theorem protocol_find (haystack needle : List Char) :
    MacroProtocol.find haystack needle = findBy (fun _ => 1) needle haystack := by
  unfold MacroProtocol.find
  induction haystack with
  | nil => cases needle <;> rfl
  | cons c haystack ih =>
      rw [List.length_cons, List.range_succ_eq_map, List.find?_cons, findBy]
      cases hat : needle.isPrefixOf (c :: haystack) with
      | true =>
          rw [if_pos (List.isPrefixOf_iff_prefix.mp hat), List.drop_zero, hat]
      | false =>
          have hnot : ¬ needle <+: c :: haystack := by
            rw [← List.isPrefixOf_iff_prefix, hat]
            exact Bool.false_ne_true
          rw [if_neg hnot, List.drop_zero, hat, ← ih, List.find?_map]
          simp only [Nat.add_comm 1]
          rfl

theorem protocol_findKeyed {needle key : List Char} (hkey : key <+: needle) (hne : key ≠ [])
    (before after : List Char) :
    MacroProtocol.findKeyed (before ++ after) needle key before.length =
      (findBy (fun _ => 1) needle after).map (before.length + ·) := by
  induction hn : after.length using Nat.strong_induction_on generalizing before after with
  | _ n ih =>
      rw [MacroProtocol.findKeyed, List.drop_left, protocol_find]
      cases hfind : findBy (fun _ => 1) key after with
      | none =>
          rw [findBy_eq_none_of_key hkey hfind]
          rfl
      | some offset =>
          obtain ⟨skipped, rest, rfl, rfl, hrest, hneedle⟩ := findBy_of_key hfind
          have hsum : (skipped.map fun _ => 1).sum = skipped.length := by simp
          have hpos : before.length + (skipped.map fun _ => 1).sum = (before ++ skipped).length := by
            rw [hsum, List.length_append]
          dsimp only
          rw [hneedle needle hkey, hpos, ← List.append_assoc, List.drop_left]
          by_cases hat : needle <+: rest
          · rw [if_pos (List.isPrefixOf_iff_prefix.mpr hat), findBy_of_isPrefix hat]
            simp
          · obtain ⟨c, key', rfl⟩ := List.exists_cons_of_ne_nil hne
            obtain ⟨tail, rfl⟩ := hrest
            rw [List.cons_append] at hat ⊢
            have hshort : (key' ++ tail).length < n := by
              simp only [List.length_append, List.length_cons] at hn ⊢
              omega
            have hsplit : before ++ skipped ++ c :: (key' ++ tail) =
                (before ++ skipped ++ [c]) ++ (key' ++ tail) := by simp
            have hstep : (before ++ skipped).length + 1 = (before ++ skipped ++ [c]).length := by
              simp only [List.length_append, List.length_cons, List.length_nil]
            have hroom : before.length < (before ++ skipped ++ c :: (key' ++ tail)).length := by
              simp only [List.length_append, List.length_cons]
              omega
            rw [if_neg (fun h => hat (List.isPrefixOf_iff_prefix.mp h)), if_pos hroom, hstep, hsplit,
              ih _ hshort _ _ rfl, findBy_cons_of_not hat, Option.map_map, Option.map_map]
            congr 1
            funext p
            simp only [Function.comp_apply, List.length_append, hsum, List.length_cons,
              List.length_nil]
            omega

theorem leadingSlice_isPrefix (bytes : ℕ) (text : List Char) :
    MacroProtocol.leadingSlice bytes text <+: text := by
  induction text generalizing bytes with
  | nil => exact List.nil_prefix
  | cons c text ih =>
      rw [MacroProtocol.leadingSlice]
      split
      · exact List.cons_prefix_cons.mpr ⟨rfl, ih _⟩
      · exact List.nil_prefix

/-- What the two models of `str::find` find is the same. -/
theorem find_eq_protocol (haystack needle : List Char) : find haystack needle =
    (MacroProtocol.find haystack needle).map fun i => byteLength (haystack.take i) := by
  rw [protocol_find, find]
  induction haystack with
  | nil =>
      rw [findBy, findBy]
      split <;> rfl
  | cons c haystack ih =>
      rw [findBy, findBy]
      split
      · rfl
      · rw [ih, Option.map_map, Option.map_map]
        congr 1
        funext i
        rw [Function.comp_apply, Function.comp_apply, Nat.add_comm 1 i, List.take_succ_cons,
          byteLength_cons]

/-- The search of the macro protocol is this one, with positions in characters. -/
theorem findLarge_eq_protocol (haystack needle : List Char) : findLarge haystack needle =
    some ((MacroProtocol.findLarge haystack needle).map fun i => byteLength (haystack.take i)) := by
  have hprotocol : MacroProtocol.findLarge haystack needle = MacroProtocol.find haystack needle := by
    unfold MacroProtocol.findLarge
    rw [protocol_find]
    split
    · rename_i hlong
      have hnone : find haystack needle = none := find_eq_none_of_longer hlong
      rw [find_eq_protocol, Option.map_eq_none_iff, protocol_find] at hnone
      exact hnone.symm
    · split
      · rename_i hnil
        rw [MacroProtocol.eq_nil_of_leadingSlice hnil, findBy_of_isPrefix List.nil_prefix]
      · rename_i hne
        have hsearch := protocol_findKeyed (leadingSlice_isPrefix 48 needle) hne [] haystack
        simpa using hsearch
  rw [findLarge_eq, hprotocol, find_eq_protocol]

end ScalaRs.KeyedSearch
