import Mathlib.Data.List.Basic
import ScalaRs.SyntaxTrees
import ScalaRs.TyperTypes

/-! # Trees of the compiler

The trees that the passes after the typer walk: every kind of node with all the trees below it.
Modifiers are left out. -/
namespace ScalaRs.CompilerTrees
open Unification (Ty SymbolId)

abbrev Literal := Unification.Lit

/-- `SymbolId::NONE` -/
def noSymbol : SymbolId := 0

/-- The fields of a tree that do not depend on its kind. -/
structure Info where
  id : ℕ
  span : Lexing.Span
  ty : Ty
  sym : SymbolId
  stablePat : Bool
  bynameThunk : Bool

/-- `Tree::dummy` -/
def Info.dummy : Info := ⟨0, ⟨0, 0⟩, .noType, noSymbol, false, false⟩

structure Template (τ : Type) where
  parents : List τ
  selfName : Option String
  selfTpt : Option τ
  body : List τ

structure CaseDef (τ : Type) where
  pat : τ
  guard : τ
  body : τ

inductive TreeKind (τ : Type)
  | empty
  | packageDef (pid : τ) (stats : List τ)
  | importClause (expr : τ) (selectors : List (String × Option String))
  | classDef (name : String) (tparams : List τ) (vparamss : List (List τ)) (impl : Template τ)
  | moduleDef (name : String) (impl : Template τ)
  | valDef (name : String) (tpt rhs : τ)
  | defDef (name : String) (tparams : List τ) (vparamss : List (List τ)) (tpt rhs : τ)
  | macroRhs (implRef : τ)
  | typeDef (name : String) (tparams : List τ) (rhs : τ) (lo hi : Option τ)
      (views ctxBounds : List τ)
  | labelDef (name : String) (params : List τ) (rhs : τ)
  | block (stats : List τ) (expr : τ)
  | ifElse (cond thenp elsep : τ)
  | matchOn (selector : τ) (cases : List (CaseDef τ))
  | function (vparams : List τ) (body : τ)
  | assign (lhs rhs : τ)
  | whileLoop (cond body : τ)
  | doWhile (body cond : τ)
  | returnValue (expr : τ)
  | throw (expr : τ)
  | tryCatch (body : τ) (catches : List (CaseDef τ)) (finalizer : τ)
  | new (tpt : τ)
  | typed (expr tpt : τ)
  | typeApply (func : τ) (args : List τ)
  | apply (func : τ) (args : List τ)
  | super (qual mix : Option String)
  | this (qual : Option String)
  | select (qual : τ) (name : String)
  | ident (name : String)
  | literal (lit : Literal)
  | bind (name : String) (body : τ)
  | star (elem : τ)
  | alternative (trees : List τ)
  | unApply (func : τ) (args : List τ)
  | appliedTypeTree (tpt : τ) (args : List τ)
  | singletonTypeTree (ref : τ)
  | annotatedTypeTree (tpt annot : τ)
  | selectFromTypeTree (qual : τ) (name : String) (hash : Bool)
  | compoundTypeTree (parents refinements : List τ)
  | existentialTypeTree (tpt : τ) (clauses : List τ)
  | wildcard
  | interpolatedString (interpolator : String) (parts : List String) (args : List τ)
  | unimplemented (what : String)

inductive Tree
  | mk (info : Info) (kind : TreeKind Tree)

namespace Tree

def info : Tree → Info
  | mk info _ => info

def kind : Tree → TreeKind Tree
  | mk _ kind => kind

def sym (t : Tree) : SymbolId := t.info.sym

def ty (t : Tree) : Ty := t.info.ty

/-- `Tree::dummy` -/
def dummy (kind : TreeKind Tree) : Tree := mk Info.dummy kind

end Tree

def CaseDef.trees {τ : Type} (c : CaseDef τ) : List τ := [c.pat, c.guard, c.body]

/-- The trees directly below a node. -/
def TreeKind.trees {τ : Type} : TreeKind τ → List τ
  | .packageDef pid stats => pid :: stats
  | .importClause expr _ => [expr]
  | .classDef _ tparams vparamss impl =>
      tparams ++ vparamss.flatten ++ impl.parents ++ impl.selfTpt.toList ++ impl.body
  | .moduleDef _ impl => impl.parents ++ impl.selfTpt.toList ++ impl.body
  | .valDef _ tpt rhs => [tpt, rhs]
  | .defDef _ tparams vparamss tpt rhs => tparams ++ vparamss.flatten ++ [tpt, rhs]
  | .macroRhs implRef => [implRef]
  | .typeDef _ tparams rhs lo hi views ctxBounds =>
      tparams ++ rhs :: (lo.toList ++ hi.toList ++ views ++ ctxBounds)
  | .labelDef _ params rhs => params ++ [rhs]
  | .block stats expr => stats ++ [expr]
  | .ifElse cond thenp elsep => [cond, thenp, elsep]
  | .matchOn selector cases => selector :: cases.flatMap CaseDef.trees
  | .function vparams body => vparams ++ [body]
  | .assign lhs rhs => [lhs, rhs]
  | .whileLoop cond body => [cond, body]
  | .doWhile body cond => [body, cond]
  | .returnValue expr | .throw expr => [expr]
  | .tryCatch body catches finalizer => body :: (catches.flatMap CaseDef.trees ++ [finalizer])
  | .new tpt => [tpt]
  | .typed expr tpt => [expr, tpt]
  | .typeApply func args | .apply func args | .unApply func args => func :: args
  | .select qual _ => [qual]
  | .bind _ body => [body]
  | .star elem => [elem]
  | .alternative trees => trees
  | .appliedTypeTree tpt args => tpt :: args
  | .singletonTypeTree ref => [ref]
  | .annotatedTypeTree tpt annot => [tpt, annot]
  | .selectFromTypeTree qual _ _ => [qual]
  | .compoundTypeTree parents refinements => parents ++ refinements
  | .existentialTypeTree tpt clauses => tpt :: clauses
  | .interpolatedString _ _ args => args
  | .empty | .super _ _ | .this _ | .ident _ | .literal _ | .wildcard | .unimplemented _ => []

/-! ## Recursion -/

section
variable {τ : Type} [SizeOf τ]

theorem sizeOf_lt_of_mem_flatten {t : τ} {tss : List (List τ)} (h : t ∈ tss.flatten) :
    sizeOf t < sizeOf tss := by
  obtain ⟨ts, hts, ht⟩ := List.mem_flatten.1 h
  exact Nat.lt_trans (List.sizeOf_lt_of_mem ht) (List.sizeOf_lt_of_mem hts)

theorem sizeOf_lt_of_mem_cases {t : τ} {cases : List (CaseDef τ)}
    (h : t ∈ cases.flatMap CaseDef.trees) : sizeOf t < sizeOf cases := by
  obtain ⟨c, hc, ht⟩ := List.mem_flatMap.1 h
  have hcase := List.sizeOf_lt_of_mem hc
  have hpart : sizeOf t < sizeOf c := by
    cases c with
    | mk pat guard body =>
        simp only [CaseDef.trees, List.mem_cons, List.not_mem_nil, or_false] at ht
        rcases ht with rfl | rfl | rfl <;> simp <;> omega
  omega

theorem sizeOf_lt_of_mem_toList {t : τ} {o : Option τ} (h : t ∈ o.toList) :
    sizeOf t < sizeOf o := by
  cases o with
  | none => cases h
  | some u =>
      rw [Option.toList_some, List.mem_singleton] at h
      subst h
      simp

theorem sizeOf_lt_of_mem_kind {t : τ} {kind : TreeKind τ} (h : t ∈ kind.trees) :
    sizeOf t < sizeOf kind := by
  have hlist {ts : List τ} (ht : t ∈ ts) : sizeOf t < sizeOf ts := List.sizeOf_lt_of_mem ht
  have hflat {tss : List (List τ)} (ht : t ∈ tss.flatten) : sizeOf t < sizeOf tss :=
    sizeOf_lt_of_mem_flatten ht
  have hcases {cs : List (CaseDef τ)} (ht : t ∈ cs.flatMap CaseDef.trees) :
      sizeOf t < sizeOf cs := sizeOf_lt_of_mem_cases ht
  have hoption {o : Option τ} (ht : t ∈ o.toList) : sizeOf t < sizeOf o :=
    sizeOf_lt_of_mem_toList ht
  have htemplate {impl : Template τ}
      (ht : t ∈ impl.parents ++ impl.selfTpt.toList ++ impl.body) : sizeOf t < sizeOf impl := by
    cases impl
    simp only [List.mem_append] at ht
    simp only [Template.mk.sizeOf_spec]
    grind
  cases kind <;>
    simp only [TreeKind.trees, List.mem_append, List.mem_cons, List.not_mem_nil, or_false,
      List.append_assoc] at h htemplate <;>
    simp <;> grind

end

theorem Tree.sizeOf_lt_of_mem {t c : Tree} (h : c ∈ t.kind.trees) : sizeOf c < sizeOf t := by
  cases t with
  | mk info kind =>
      have hkind : sizeOf c < sizeOf kind := sizeOf_lt_of_mem_kind h
      rw [Tree.mk.sizeOf_spec]
      omega

/-- What holds of a tree when it holds of the trees directly below holds of every tree. -/
theorem Tree.induction {P : Tree → Prop} (step : ∀ t, (∀ c ∈ t.kind.trees, P c) → P t)
    (t : Tree) : P t :=
  step t fun c _ => Tree.induction step c
termination_by sizeOf t
decreasing_by exact Tree.sizeOf_lt_of_mem ‹_›

end ScalaRs.CompilerTrees
