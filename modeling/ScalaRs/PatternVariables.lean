import Mathlib.Logic.Relation
import ScalaRs.PatternParser

/-! # Variables of patterns

The parser collects the names that a pattern binds, and the capture analysis their symbols. -/
namespace ScalaRs.Parsing
open Lexing

section
variable [NameTables]

mutual

/-- Names of the variables that a pattern binds, in source order. -/
def patternBoundNames : Tree → List (List Char)
  | .ident _ _ name _ _ => if name ≠ ['_'] ∧ isVariableName name then [name] else []
  | .bind _ _ name body => name :: patternBoundNames body
  | .apply _ _ args => patternBoundNamesAll args
  | .typed _ expr _ => patternBoundNames expr
  | .star _ elem => patternBoundNames elem
  | .alternative _ (first :: _) => patternBoundNames first
  | _ => []

def patternBoundNamesAll : List Tree → List (List Char)
  | [] => []
  | t :: ts => patternBoundNames t ++ patternBoundNamesAll ts

end

mutual

/-- The symbols that a pattern introduces, as they are inserted into the set. -/
def patternBinders : Tree → List ℕ
  | .ident _ sym name stablePat _ =>
    if stablePat then [] else if isVariableName name then sym.toList else []
  | .bind _ sym _ body => sym.toList ++ patternBinders body
  | .apply _ _ args => patternBindersAll args
  | .typed _ expr _ => patternBinders expr
  | .star _ elem => patternBinders elem
  | .alternative _ trees => patternBindersAll trees
  | _ => []

def patternBindersAll : List Tree → List ℕ
  | [] => []
  | t :: ts => patternBinders t ++ patternBindersAll ts

end

/-! ## What a pattern binds -/

structure Binder where
  name : List Char
  sym : Option ℕ
deriving DecidableEq

mutual

/-- Every binder and every identifier with the name of a variable that is not written with
backquotes, in source order. -/
def binders : Tree → List Binder
  | .ident _ sym name stablePat _ =>
    if stablePat = false ∧ isVariableName name then [⟨name, sym⟩] else []
  | .bind _ sym name body => ⟨name, sym⟩ :: binders body
  | .apply _ _ args => bindersAll args
  | .typed _ expr _ => binders expr
  | .star _ elem => binders elem
  | .alternative _ trees => bindersAll trees
  | _ => []

def bindersAll : List Tree → List Binder
  | [] => []
  | t :: ts => binders t ++ bindersAll ts

end

/-- The names of the variables among them; `_` is none. -/
def variableNames (t : Tree) : List (List Char) :=
  ((binders t).map Binder.name).filter (· ≠ ['_'])

/-- The names are those of the variables that the pattern binds, and the capture analysis collects
the symbols of the same binders. -/
def NamesVariables (t : Tree) : Prop :=
  patternBoundNames t = variableNames t ∧
    ∀ sym, sym ∈ patternBinders t ↔ ∃ b ∈ binders t, b.sym = some sym

/-! ## Patterns inside a pattern -/

/-- A tree right inside a pattern that is a pattern too. -/
inductive Inside : Tree → Tree → Prop
  | body (span : Span) (sym : Option ℕ) (name : List Char) (t : Tree) :
      Inside (.bind span sym name t) t
  | arg (span : Span) (func : Tree) (args : List Tree) (t : Tree) (mem : t ∈ args) :
      Inside (.apply span func args) t
  | expr (span : Span) (t tpt : Tree) : Inside (.typed span t tpt) t
  | elem (span : Span) (t : Tree) : Inside (.star span t) t
  | alternative (span : Span) (trees : List Tree) (t : Tree) (mem : t ∈ trees) :
      Inside (.alternative span trees) t

abbrev Subpattern (t u : Tree) : Prop := Relation.ReflTransGen Inside t u

/-- A backquoted name is not spelled like a variable, a binder is not called `_`, and only the
first of some alternatives binds variables. -/
def Countable : Tree → Prop
  | .ident _ _ name stablePat _ => stablePat = true → name = ['_'] ∨ isVariableName name = false
  | .bind _ _ name _ => name ≠ ['_']
  | .alternative _ trees => ∀ t ∈ trees.tail, variableNames t = []
  | _ => True

mutual

theorem patternBinders_eq (t : Tree) :
    patternBinders t = (binders t).filterMap Binder.sym := by
  cases t with
  | ident span sym name stablePat scalaRef =>
    rw [patternBinders, binders]
    cases stablePat with
    | true => rfl
    | false =>
      rw [if_neg Bool.false_ne_true]
      by_cases hname : isVariableName name = true
      · rw [if_pos hname, if_pos ⟨rfl, hname⟩]
        cases sym <;> rfl
      · rw [if_neg hname, if_neg fun h => hname h.2]
        rfl
  | bind span sym name body =>
    rw [patternBinders, binders, patternBinders_eq body]
    cases sym <;> rfl
  | apply span func args =>
    rw [patternBinders, binders]
    exact patternBindersAll_eq args
  | typed span expr tpt =>
    rw [patternBinders, binders]
    exact patternBinders_eq expr
  | star span elem =>
    rw [patternBinders, binders]
    exact patternBinders_eq elem
  | alternative span trees =>
    rw [patternBinders, binders]
    exact patternBindersAll_eq trees
  | _ => rfl

theorem patternBindersAll_eq (ts : List Tree) :
    patternBindersAll ts = (bindersAll ts).filterMap Binder.sym := by
  cases ts with
  | nil => rfl
  | cons t ts =>
    rw [patternBindersAll, bindersAll, List.filterMap_append, patternBinders_eq t,
      patternBindersAll_eq ts]

end

theorem mem_patternBinders (t : Tree) (sym : ℕ) :
    sym ∈ patternBinders t ↔ ∃ b ∈ binders t, b.sym = some sym := by
  rw [patternBinders_eq, List.mem_filterMap]

/-! ## The names of a pattern -/

theorem variableNames_ident (span : Span) (sym : Option ℕ) (name : List Char)
    (stablePat scalaRef : Bool) : variableNames (.ident span sym name stablePat scalaRef) =
      if stablePat = false ∧ name ≠ ['_'] ∧ isVariableName name then [name] else [] := by
  unfold variableNames
  rw [binders]
  by_cases h : stablePat = false ∧ isVariableName name = true
  · rw [if_pos h]
    by_cases hname : name = ['_']
    · rw [if_neg fun h => h.2.1 hname, hname]
      rfl
    · rw [if_pos ⟨h.1, hname, h.2⟩, List.map_singleton, List.filter_cons_of_pos (by simpa using hname)]
      rfl
  · rw [if_neg h, if_neg fun h' => h ⟨h'.1, h'.2.2⟩]
    rfl

theorem variableNames_stable (span : Span) (sym : Option ℕ) (name : List Char) (scalaRef : Bool) :
    variableNames (.ident span sym name true scalaRef) = [] := rfl

theorem variableNames_bind (span : Span) (sym : Option ℕ) (name : List Char) (body : Tree) :
    variableNames (.bind span sym name body) =
      (if name = ['_'] then [] else [name]) ++ variableNames body := by
  unfold variableNames
  rw [binders, List.map_cons]
  by_cases h : name = ['_']
  · rw [if_pos h, List.filter_cons_of_neg (by simpa using h), List.nil_append]
  · rw [if_neg h, List.filter_cons_of_pos (by simpa using h), List.singleton_append]

/-- The names that the patterns in a list bind. -/
def variableNamesAll (ts : List Tree) : List (List Char) :=
  ((bindersAll ts).map Binder.name).filter (· ≠ ['_'])

theorem variableNamesAll_cons (t : Tree) (ts : List Tree) :
    variableNamesAll (t :: ts) = variableNames t ++ variableNamesAll ts := by
  rw [variableNamesAll, bindersAll, List.map_append, List.filter_append]
  rfl

theorem variableNamesAll_eq_nil_iff (ts : List Tree) :
    variableNamesAll ts = [] ↔ ∀ t ∈ ts, variableNames t = [] := by
  induction ts with
  | nil => exact iff_of_true rfl (by simp)
  | cons t ts ih =>
    rw [variableNamesAll_cons, List.append_eq_nil_iff, ih, List.forall_mem_cons]

mutual

/-- When every pattern inside is countable, the names are those of the variables. -/
theorem patternBoundNames_eq (t : Tree) (h : ∀ u, Subpattern t u → Countable u) :
    patternBoundNames t = variableNames t := by
  have hhere := h t .refl
  have hinside : ∀ u, Inside t u → ∀ v, Subpattern u v → Countable v :=
    fun u hu v hv => h v (.head hu hv)
  cases t with
  | ident span sym name stablePat scalaRef =>
    cases stablePat with
    | false =>
      rw [patternBoundNames, variableNames_ident]
      simp
    | true =>
      rw [patternBoundNames, variableNames_stable]
      apply if_neg
      rintro ⟨hne, hname⟩
      rcases hhere rfl with heq | hfalse
      · exact hne heq
      · rw [hname] at hfalse
        cases hfalse
  | bind span sym name body =>
    rw [patternBoundNames, variableNames_bind, if_neg hhere,
      patternBoundNames_eq body (hinside body (.body ..))]
    rfl
  | apply span func args =>
    rw [patternBoundNames, patternBoundNamesAll_eq args fun t ht => hinside t (.arg _ _ _ _ ht)]
    rfl
  | typed span expr tpt =>
    rw [patternBoundNames, patternBoundNames_eq expr (hinside expr (.expr ..))]
    rfl
  | star span elem =>
    rw [patternBoundNames, patternBoundNames_eq elem (hinside elem (.elem ..))]
    rfl
  | alternative span trees =>
    cases trees with
    | nil => rfl
    | cons first later =>
      have hlater : variableNamesAll later = [] := (variableNamesAll_eq_nil_iff later).mpr hhere
      have hnames : variableNames (.alternative span (first :: later)) =
          variableNamesAll (first :: later) := rfl
      rw [patternBoundNames, hnames, variableNamesAll_cons, hlater, List.append_nil,
        patternBoundNames_eq first (hinside first (.alternative _ _ _ List.mem_cons_self))]
  | _ => rfl

theorem patternBoundNamesAll_eq (ts : List Tree)
    (h : ∀ t ∈ ts, ∀ u, Subpattern t u → Countable u) :
    patternBoundNamesAll ts = variableNamesAll ts := by
  cases ts with
  | nil => rfl
  | cons t ts =>
    rw [patternBoundNamesAll, variableNamesAll_cons,
      patternBoundNames_eq t (h t List.mem_cons_self),
      patternBoundNamesAll_eq ts fun u hu => h u (List.mem_cons_of_mem t hu)]

end

/-- A pattern whose names, and those of the patterns right inside, are right is countable. -/
theorem countable_of_names {t : Tree} (ht : patternBoundNames t = variableNames t)
    (hinside : ∀ u, Inside t u → patternBoundNames u = variableNames u) : Countable t := by
  cases t with
  | ident span sym name stablePat scalaRef =>
    rintro rfl
    rw [patternBoundNames, variableNames_stable] at ht
    by_contra hname
    rw [not_or, Bool.not_eq_false] at hname
    rw [if_pos hname] at ht
    cases ht
  | bind span sym name body =>
    intro hname
    rw [patternBoundNames, variableNames_bind, if_pos hname, List.nil_append,
      hinside body (.body ..)] at ht
    exact absurd ht (List.cons_ne_self _ _)
  | alternative span trees =>
    cases trees with
    | nil => exact fun t ht => by cases ht
    | cons first later =>
      have hnames : variableNames (.alternative span (first :: later)) =
          variableNamesAll (first :: later) := rfl
      rw [patternBoundNames, hnames, variableNamesAll_cons,
        hinside first (.alternative _ _ _ List.mem_cons_self)] at ht
      exact (variableNamesAll_eq_nil_iff later).mp (List.append_right_eq_self.mp ht.symm)
  | _ => trivial

/-- The names of a pattern and of the patterns inside it are those of their variables exactly when
all of these patterns are countable. -/
theorem namesVariables_iff (t : Tree) :
    (∀ u, Subpattern t u → NamesVariables u) ↔ ∀ u, Subpattern t u → Countable u := by
  constructor
  · intro h u hu
    exact countable_of_names (h u hu).1 fun v hv => (h v (.tail hu hv)).1
  · intro h u hu
    exact ⟨patternBoundNames_eq u fun v hv => h v (hu.trans hv), mem_patternBinders u⟩

end
/-- The parser in front of `src`, as these tokens. -/
def inFrontOf (src : List Char) (tokens : List Token) (last : UInt32) : Parser Unit where
  src
  fileIndex := 0
  tokens := tokens ++ [⟨.eof, ⟨last, last⟩, false, false⟩]
  ends := by simp
  pos := 0
  diags := []
  others := ()

attribute [local instance] asciiNames plainTables in
/-- Of ``Some(`x`)`` the parser counts `x` as bound. -/
theorem not_namesVariables_backquoted :
    ¬∀ (prods : PatternProductions Unit) (source3 : Bool) (fuel : ℕ) (p p' : Parser Unit) (t : Tree),
      parsePattern prods source3 fuel p = some (t, p') → NamesVariables t := by
  intro h
  have hparsed : ((parsePattern ⟨fun _ => none, fun _ _ => none⟩ false 20
      (inFrontOf "Some(`x`)".toList [⟨.ident "Some".toList, ⟨0, 4⟩, false, false⟩,
        ⟨.lParen, ⟨4, 5⟩, false, false⟩, ⟨.ident ['x'], ⟨5, 8⟩, false, false⟩,
        ⟨.rParen, ⟨8, 9⟩, false, false⟩] 9)).map fun r =>
          (patternBoundNames r.1, variableNames r.1)) = some ([['x']], []) := by
    decide
  obtain ⟨⟨t, p'⟩, hrun, hnames⟩ := Option.map_eq_some_iff.mp hparsed
  obtain ⟨hbound, hvariables⟩ := Prod.mk.inj hnames
  have heq := (h _ _ _ _ _ _ hrun).1
  rw [hbound, hvariables] at heq
  cases heq

end ScalaRs.Parsing
