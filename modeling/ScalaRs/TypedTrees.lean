import ScalaRs.TyperTypes
import ScalaRs.SyntaxTrees

/-! # Typed trees

What the passes between the typer and `uncurry` look at: trees with a type and a symbol on every
node, the symbol table, and the walk that the passes over applications share. -/
namespace ScalaRs.TypedTrees
open Unification (Ty SymbolId)

abbrev Literal := Unification.Lit

/-- `SymbolId::NONE` -/
def noSymbol : SymbolId := 0

/-- The fields of a tree that do not depend on its kind. -/
structure Info where
  id : ℕ
  span : Lexing.Span
  ty : Ty
  sym : SymbolId
  /-- An argument for a by-name parameter, which is a function without parameters. -/
  bynameThunk : Bool

/-- `Tree::dummy` -/
def Info.dummy : Info := ⟨0, ⟨0, 0⟩, .noType, noSymbol, false⟩

/-- A pattern, of which only the symbols it binds are looked at. -/
structure Pat where
  shape : ℕ
  binders : List SymbolId

mutual

/-- A type argument is not evaluated, so `typeApply` and `typed` leave the type trees out. -/
inductive Tree
  | empty (info : Info)
  | literal (info : Info) (value : Literal)
  | this (info : Info)
  | ident (info : Info) (name : String)
  | select (info : Info) (qual : Tree) (name : String)
  | apply (info : Info) (func : Tree) (args : List Tree)
  | typeApply (info : Info) (func : Tree)
  | typed (info : Info) (expr : Tree)
  | new (info : Info)
  | function (info : Info) (params : List SymbolId) (body : Tree)
  | block (info : Info) (stats : List Tree) (expr : Tree)
  | ifElse (info : Info) (cond thenp elsep : Tree)
  | matchOn (info : Info) (selector : Tree) (cases : Cases)
  | assign (info : Info) (lhs rhs : Tree)
  | throw (info : Info) (expr : Tree)
  | valDef (info : Info) (name : String) (rhs : Tree)

inductive Cases
  | nil
  | cons (pat : Pat) (guard body : Tree) (rest : Cases)

end

def Cases.binders : Cases → List SymbolId
  | .nil => []
  | .cons pat _ _ rest => pat.binders ++ rest.binders

namespace Tree

def info : Tree → Info
  | empty i | literal i _ | this i | ident i _ | select i _ _ | apply i _ _ | typeApply i _
  | typed i _ | new i | function i _ _ | block i _ _ | ifElse i _ _ _ | matchOn i _ _
  | assign i _ _ | throw i _ | valDef i _ _ => i

def sym (t : Tree) : SymbolId := t.info.sym
def ty (t : Tree) : Ty := t.info.ty
def span (t : Tree) : Lexing.Span := t.info.span

/-- The symbols that a node binds for the trees below it. -/
def binders : Tree → List SymbolId
  | function _ params _ => params
  | matchOn _ _ cases => cases.binders
  | _ => []

end Tree

/-! ## Properties of every node -/

mutual

def All (p : Tree → Prop) : Tree → Prop
  | .empty i => p (.empty i)
  | .literal i v => p (.literal i v)
  | .this i => p (.this i)
  | .ident i n => p (.ident i n)
  | .select i q n => p (.select i q n) ∧ All p q
  | .apply i f args => p (.apply i f args) ∧ All p f ∧ AllArgs p args
  | .typeApply i f => p (.typeApply i f) ∧ All p f
  | .typed i e => p (.typed i e) ∧ All p e
  | .new i => p (.new i)
  | .function i ps b => p (.function i ps b) ∧ All p b
  | .block i stats e => p (.block i stats e) ∧ AllArgs p stats ∧ All p e
  | .ifElse i c t e => p (.ifElse i c t e) ∧ All p c ∧ All p t ∧ All p e
  | .matchOn i s cs => p (.matchOn i s cs) ∧ All p s ∧ AllCases p cs
  | .assign i l r => p (.assign i l r) ∧ All p l ∧ All p r
  | .throw i e => p (.throw i e) ∧ All p e
  | .valDef i n r => p (.valDef i n r) ∧ All p r

def AllArgs (p : Tree → Prop) : List Tree → Prop
  | [] => True
  | t :: ts => All p t ∧ AllArgs p ts

def AllCases (p : Tree → Prop) : Cases → Prop
  | .nil => True
  | .cons _ g b rest => All p g ∧ All p b ∧ AllCases p rest

end

/-- The property holds at every node below `t`. -/
def Below (p : Tree → Prop) : Tree → Prop
  | .select _ q _ => All p q
  | .apply _ f args => All p f ∧ AllArgs p args
  | .typeApply _ f => All p f
  | .typed _ e => All p e
  | .function _ _ b => All p b
  | .block _ stats e => AllArgs p stats ∧ All p e
  | .ifElse _ c t e => All p c ∧ All p t ∧ All p e
  | .matchOn _ s cs => All p s ∧ AllCases p cs
  | .assign _ l r => All p l ∧ All p r
  | .throw _ e => All p e
  | .valDef _ _ r => All p r
  | _ => True

theorem all_iff {p : Tree → Prop} {t : Tree} : All p t ↔ p t ∧ Below p t := by
  cases t <;> simp [All, Below]

theorem All.here {p : Tree → Prop} {t : Tree} (h : All p t) : p t := (all_iff.1 h).1

theorem All.below {p : Tree → Prop} {t : Tree} (h : All p t) : Below p t := (all_iff.1 h).2

mutual

/-- What follows at a node once it holds everywhere below holds at every node. -/
theorem all_of_below {p q : Tree → Prop} (step : ∀ t, q t → Below p t → p t) (t : Tree)
    (h : All q t) : All p t := by
  have hbelow : Below p t := by
    cases t with
    | select i r n => exact all_of_below step r h.2
    | apply i f args => exact ⟨all_of_below step f h.2.1, allArgs_of_below step args h.2.2⟩
    | typeApply i f => exact all_of_below step f h.2
    | typed i e => exact all_of_below step e h.2
    | function i ps b => exact all_of_below step b h.2
    | block i stats e => exact ⟨allArgs_of_below step stats h.2.1, all_of_below step e h.2.2⟩
    | ifElse i c u e =>
        exact ⟨all_of_below step c h.2.1, all_of_below step u h.2.2.1,
          all_of_below step e h.2.2.2⟩
    | matchOn i s cs => exact ⟨all_of_below step s h.2.1, allCases_of_below step cs h.2.2⟩
    | assign i l r => exact ⟨all_of_below step l h.2.1, all_of_below step r h.2.2⟩
    | throw i e => exact all_of_below step e h.2
    | valDef i n r => exact all_of_below step r h.2
    | _ => trivial
  exact all_iff.2 ⟨step t h.here hbelow, hbelow⟩

theorem allArgs_of_below {p q : Tree → Prop} (step : ∀ t, q t → Below p t → p t)
    (ts : List Tree) (h : AllArgs q ts) : AllArgs p ts := by
  cases ts with
  | nil => trivial
  | cons t ts => exact ⟨all_of_below step t h.1, allArgs_of_below step ts h.2⟩

theorem allCases_of_below {p q : Tree → Prop} (step : ∀ t, q t → Below p t → p t)
    (cs : Cases) (h : AllCases q cs) : AllCases p cs := by
  cases cs with
  | nil => trivial
  | cons pat g b rest =>
      exact ⟨all_of_below step g h.1, all_of_below step b h.2.1,
        allCases_of_below step rest h.2.2⟩

end

theorem All.imp {p q : Tree → Prop} (h : ∀ t, q t → p t) {t : Tree} (ht : All q t) : All p t :=
  all_of_below (fun t hq _ => h t hq) t ht

theorem AllArgs.imp {p q : Tree → Prop} (h : ∀ t, q t → p t) {ts : List Tree}
    (hts : AllArgs q ts) : AllArgs p ts :=
  allArgs_of_below (fun t hq _ => h t hq) ts hts

theorem AllCases.imp {p q : Tree → Prop} (h : ∀ t, q t → p t) {cs : Cases}
    (hcs : AllCases q cs) : AllCases p cs :=
  allCases_of_below (fun t hq _ => h t hq) cs hcs

theorem Below.imp {p q : Tree → Prop} (h : ∀ t, q t → p t) {t : Tree} (ht : Below q t) :
    Below p t := by
  cases t with
  | select _ _ _ | typeApply _ _ | typed _ _ | function _ _ _ | throw _ _ | valDef _ _ _ =>
      exact All.imp h ht
  | apply _ _ _ => exact ⟨ht.1.imp h, ht.2.imp h⟩
  | block _ _ _ => exact ⟨ht.1.imp h, ht.2.imp h⟩
  | ifElse _ _ _ _ => exact ⟨ht.1.imp h, ht.2.1.imp h, ht.2.2.imp h⟩
  | matchOn _ _ _ => exact ⟨ht.1.imp h, ht.2.imp h⟩
  | assign _ _ _ => exact ⟨ht.1.imp h, ht.2.imp h⟩
  | _ => trivial

/-- At every node the property holds of the node and of all that is below it. -/
theorem All.all {p : Tree → Prop} {t : Tree} (h : All p t) : All (All p) t :=
  all_of_below (fun _ hp hbelow => all_iff.2 ⟨hp, hbelow.imp fun _ => All.here⟩) t h

mutual

theorem All.and {p q : Tree → Prop} {t : Tree} (hp : All p t) (hq : All q t) :
    All (fun t => p t ∧ q t) t := by
  have hhere := And.intro hp.here hq.here
  cases t with
  | select _ _ _ | typeApply _ _ | typed _ _ | function _ _ _ | throw _ _ | valDef _ _ _ =>
      exact ⟨hhere, hp.2.and hq.2⟩
  | apply _ _ _ => exact ⟨hhere, hp.2.1.and hq.2.1, hp.2.2.and hq.2.2⟩
  | block _ _ _ => exact ⟨hhere, hp.2.1.and hq.2.1, hp.2.2.and hq.2.2⟩
  | ifElse _ _ _ _ =>
      exact ⟨hhere, hp.2.1.and hq.2.1, hp.2.2.1.and hq.2.2.1, hp.2.2.2.and hq.2.2.2⟩
  | matchOn _ _ _ => exact ⟨hhere, hp.2.1.and hq.2.1, hp.2.2.and hq.2.2⟩
  | assign _ _ _ => exact ⟨hhere, hp.2.1.and hq.2.1, hp.2.2.and hq.2.2⟩
  | _ => exact hhere

theorem AllArgs.and {p q : Tree → Prop} {ts : List Tree} (hp : AllArgs p ts)
    (hq : AllArgs q ts) : AllArgs (fun t => p t ∧ q t) ts := by
  cases ts with
  | nil => trivial
  | cons t ts => exact ⟨hp.1.and hq.1, hp.2.and hq.2⟩

theorem AllCases.and {p q : Tree → Prop} {cs : Cases} (hp : AllCases p cs)
    (hq : AllCases q cs) : AllCases (fun t => p t ∧ q t) cs := by
  cases cs with
  | nil => trivial
  | cons pat g b rest => exact ⟨hp.1.and hq.1, hp.2.1.and hq.2.1, hp.2.2.and hq.2.2⟩

end

theorem Below.and {p q : Tree → Prop} {t : Tree} (hp : Below p t) (hq : Below q t) :
    Below (fun t => p t ∧ q t) t := by
  cases t with
  | select _ _ _ | typeApply _ _ | typed _ _ | function _ _ _ | throw _ _ | valDef _ _ _ =>
      exact All.and hp hq
  | apply _ _ _ => exact ⟨hp.1.and hq.1, hp.2.and hq.2⟩
  | block _ _ _ => exact ⟨hp.1.and hq.1, hp.2.and hq.2⟩
  | ifElse _ _ _ _ => exact ⟨hp.1.and hq.1, hp.2.1.and hq.2.1, hp.2.2.and hq.2.2⟩
  | matchOn _ _ _ => exact ⟨hp.1.and hq.1, hp.2.and hq.2⟩
  | assign _ _ _ => exact ⟨hp.1.and hq.1, hp.2.and hq.2⟩
  | _ => trivial

/-! ## Symbols -/

inductive SymKind
  | noSymbol | package | cls | module | moduleClass | method | term | typeParam | typeMember
deriving DecidableEq

/-- The flags are those that the passes here set or test. -/
structure Symbol where
  name : String
  owner : SymbolId
  kind : SymKind
  synthetic : Bool
  mutable : Bool
  ty : Ty
  paramss : List (List SymbolId)

instance : Inhabited Symbol := ⟨⟨"", noSymbol, .noSymbol, false, false, .noType, []⟩⟩

abbrev SymbolTable := List Symbol

def SymbolTable.get (st : SymbolTable) (id : SymbolId) : Symbol := st.getD id default

/-- What a pass threads through its walk. -/
structure Pass where
  st : SymbolTable
  gensym : ℕ

def isByName : Ty → Bool
  | .byName _ => true
  | _ => false

/-- A call without parentheses, or the use of a by-name parameter. -/
def namesMethod (st : SymbolTable) (i : Info) : Bool :=
  i.sym != noSymbol && (st.get i.sym).kind == .method

def namesByName (st : SymbolTable) (i : Info) : Bool :=
  i.sym != noSymbol && (isByName (st.get i.sym).ty || isByName i.ty)

/-! ## The walk -/

variable (rewrite : SymbolId → Tree × Pass → Tree × Pass)

mutual

/-- The walk below `t`. What stands as the function of an application is left as it is, and every
other tree is rewritten once its parts are; `owner` is the definition around `t`. -/
def descend (owner : SymbolId) : Tree → Pass → Tree × Pass
  | .empty i, p => (.empty i, p)
  | .literal i v, p => (.literal i v, p)
  | .this i, p => (.this i, p)
  | .ident i n, p => (.ident i n, p)
  | .select i q n, p =>
      let (q, p) := rewrite owner (descend owner q p)
      (.select i q n, p)
  | .apply i f args, p =>
      let (f, p) := descend owner f p
      let (args, p) := descendAll owner args p
      (.apply i f args, p)
  | .typeApply i f, p =>
      let (f, p) := descend owner f p
      (.typeApply i f, p)
  | .typed i e, p =>
      let (e, p) := rewrite owner (descend owner e p)
      (.typed i e, p)
  | .new i, p => (.new i, p)
  | .function i ps b, p =>
      let (b, p) := rewrite owner (descend owner b p)
      (.function i ps b, p)
  | .block i stats e, p =>
      let (stats, p) := descendAll owner stats p
      let (e, p) := rewrite owner (descend owner e p)
      (.block i stats e, p)
  | .ifElse i c t e, p =>
      let (c, p) := rewrite owner (descend owner c p)
      let (t, p) := rewrite owner (descend owner t p)
      let (e, p) := rewrite owner (descend owner e p)
      (.ifElse i c t e, p)
  | .matchOn i s cs, p =>
      let (s, p) := rewrite owner (descend owner s p)
      let (cs, p) := descendCases owner cs p
      (.matchOn i s cs, p)
  | .assign i l r, p =>
      let (l, p) := rewrite owner (descend owner l p)
      let (r, p) := rewrite owner (descend owner r p)
      (.assign i l r, p)
  | .throw i e, p =>
      let (e, p) := rewrite owner (descend owner e p)
      (.throw i e, p)
  | .valDef i n r, p =>
      let owner := if i.sym = noSymbol then owner else i.sym
      let (r, p) := rewrite owner (descend owner r p)
      (.valDef i n r, p)

def descendAll (owner : SymbolId) : List Tree → Pass → List Tree × Pass
  | [], p => ([], p)
  | t :: ts, p =>
      let (t, p) := rewrite owner (descend owner t p)
      let (ts, p) := descendAll owner ts p
      (t :: ts, p)

def descendCases (owner : SymbolId) : Cases → Pass → Cases × Pass
  | .nil, p => (.nil, p)
  | .cons pat g b rest, p =>
      let (g, p) := rewrite owner (descend owner g p)
      let (b, p) := rewrite owner (descend owner b p)
      let (rest, p) := descendCases owner rest p
      (.cons pat g b rest, p)

end

/-- The walk of a tree that is not the function of an application. -/
def walk (owner : SymbolId) (t : Tree) (p : Pass) : Tree × Pass :=
  rewrite owner (descend rewrite owner t p)

/-! ## Known symbols -/

/-- The symbols of a node are below `n`. -/
def KnownAt (n : ℕ) (t : Tree) : Prop := t.sym < n ∧ ∀ x ∈ t.binders, x < n

abbrev Known (n : ℕ) : Tree → Prop := All (KnownAt n)

theorem KnownAt.mono {n k : ℕ} (hnk : n ≤ k) {t : Tree} (h : KnownAt n t) : KnownAt k t :=
  ⟨lt_of_lt_of_le h.1 hnk, fun x hx => lt_of_lt_of_le (h.2 x hx) hnk⟩

theorem KnownAt.of_binders {n : ℕ} {t u : Tree} (h : KnownAt n t) (hsym : u.sym = t.sym)
    (hbinders : u.binders = t.binders) : KnownAt n u :=
  ⟨hsym ▸ h.1, fun x hx => h.2 x (hbinders ▸ hx)⟩

theorem Known.mono {n k : ℕ} (hnk : n ≤ k) {t : Tree} (h : Known n t) : Known k t :=
  h.imp fun _ => KnownAt.mono hnk

def SymbolTable.AgreeBelow (n : ℕ) (st₁ st₂ : SymbolTable) : Prop :=
  ∀ x < n, st₁.get x = st₂.get x

/-- A longer table has the symbols of the shorter one. -/
theorem SymbolTable.agreeBelow_of_isPrefix {st₁ st₂ : SymbolTable} (h : st₁ <+: st₂) :
    SymbolTable.AgreeBelow st₁.length st₁ st₂ := by
  obtain ⟨more, rfl⟩ := h
  intro x hx
  simp only [SymbolTable.get, List.getD_eq_getElem?_getD, List.getElem?_append_left hx]

theorem KnownArgs.mono {n k : ℕ} (hnk : n ≤ k) {ts : List Tree} (h : AllArgs (KnownAt n) ts) :
    AllArgs (KnownAt k) ts := h.imp fun _ => KnownAt.mono hnk

theorem KnownCases.mono {n k : ℕ} (hnk : n ≤ k) {cs : Cases} (h : AllCases (KnownAt n) cs) :
    AllCases (KnownAt k) cs := h.imp fun _ => KnownAt.mono hnk

/-- What a pass makes of `t` adds symbols to the table, and knows no others. -/
structure Extends {α : Type} (known : ℕ → α → Prop) (t : α) (p : Pass) (r : α × Pass) :
    Prop where
  table : p.st <+: r.2.st
  known : known p.st.length t → known r.2.st.length r.1

section
variable {α β : Type} {known₁ : ℕ → α → Prop} {known₂ : ℕ → β → Prop} {a : α} {b : β} {p : Pass}
  {r₁ : α × Pass} {r₂ : β × Pass}

theorem Extends.le (h : Extends known₁ a p r₁) : p.st.length ≤ r₁.2.st.length := h.table.length_le

theorem Extends.pair (h₁ : Extends known₁ a p r₁)
    (mono₁ : ∀ {n k : ℕ}, n ≤ k → ∀ {a : α}, known₁ n a → known₁ k a)
    (h₂ : Extends known₂ b r₁.2 r₂)
    (mono₂ : ∀ {n k : ℕ}, n ≤ k → ∀ {b : β}, known₂ n b → known₂ k b) :
    Extends (fun n x => known₁ n x.1 ∧ known₂ n x.2) (a, b) p ((r₁.1, r₂.1), r₂.2) where
  table := h₁.table.trans h₂.table
  known h := ⟨mono₁ h₂.le (h₁.known h.1), h₂.known (mono₂ h₁.le h.2)⟩

end

section
variable {rewrite : SymbolId → Tree × Pass → Tree × Pass}

mutual

theorem descendCases_binders (owner : SymbolId) (cs : Cases) (p : Pass) :
    (descendCases rewrite owner cs p).1.binders = cs.binders := by
  cases cs with
  | nil => simp only [descendCases]
  | cons pat g b rest =>
      simp only [descendCases, Cases.binders]
      exact congrArg _ (descendCases_binders owner rest _)

end

/-- Rewriting adds symbols to the table, and knows no others. -/
def Keeps (rewrite : SymbolId → Tree × Pass → Tree × Pass) : Prop :=
  ∀ owner r, Extends Known r.1 r.2 (rewrite owner r)

theorem Extends.rewritten {t : Tree} {p : Pass} {r : Tree × Pass} (h : Extends Known t p r)
    (hrewrite : Keeps rewrite) (owner : SymbolId) : Extends Known t p (rewrite owner r) where
  table := h.table.trans (hrewrite owner r).table
  known ht := (hrewrite owner r).known (h.known ht)

mutual

theorem descend_extends (hrewrite : Keeps rewrite) (owner : SymbolId) (t : Tree) (p : Pass) :
    Extends Known t p (descend rewrite owner t p) := by
  cases t with
  | select i q n =>
      have x := (descend_extends hrewrite owner q p).rewritten hrewrite owner
      exact ⟨x.table, fun h => ⟨h.1.mono x.le, x.known h.2⟩⟩
  | apply i f args =>
      have x := (descend_extends hrewrite owner f p).pair Known.mono
        (descendAll_extends hrewrite owner args _) KnownArgs.mono
      exact ⟨x.table, fun h => ⟨h.1.mono x.le, x.known h.2⟩⟩
  | typeApply i f =>
      have x := descend_extends hrewrite owner f p
      exact ⟨x.table, fun h => ⟨h.1.mono x.le, x.known h.2⟩⟩
  | typed i e | throw i e | function i _ e =>
      have x := (descend_extends hrewrite owner e p).rewritten hrewrite owner
      exact ⟨x.table, fun h => ⟨h.1.mono x.le, x.known h.2⟩⟩
  | block i stats e =>
      have x := (descendAll_extends hrewrite owner stats p).pair KnownArgs.mono
        ((descend_extends hrewrite owner e _).rewritten hrewrite owner) Known.mono
      exact ⟨x.table, fun h => ⟨h.1.mono x.le, x.known h.2⟩⟩
  | ifElse i c u e =>
      have x := ((descend_extends hrewrite owner c p).rewritten hrewrite owner).pair Known.mono
        (((descend_extends hrewrite owner u _).rewritten hrewrite owner).pair Known.mono
          ((descend_extends hrewrite owner e _).rewritten hrewrite owner) Known.mono)
        fun h _ hx => ⟨hx.1.mono h, hx.2.mono h⟩
      exact ⟨x.table, fun h => ⟨h.1.mono x.le, x.known h.2⟩⟩
  | matchOn i s cs =>
      have x := ((descend_extends hrewrite owner s p).rewritten hrewrite owner).pair Known.mono
        (descendCases_extends hrewrite owner cs _) KnownCases.mono
      exact ⟨x.table, fun h => ⟨(h.1.mono x.le).of_binders rfl (descendCases_binders owner cs _),
        x.known h.2⟩⟩
  | assign i l r =>
      have x := ((descend_extends hrewrite owner l p).rewritten hrewrite owner).pair Known.mono
        ((descend_extends hrewrite owner r _).rewritten hrewrite owner) Known.mono
      exact ⟨x.table, fun h => ⟨h.1.mono x.le, x.known h.2⟩⟩
  | valDef i n r =>
      have x := (descend_extends hrewrite (if i.sym = noSymbol then owner else i.sym) r p).rewritten
        hrewrite (if i.sym = noSymbol then owner else i.sym)
      exact ⟨x.table, fun h => ⟨h.1.mono x.le, x.known h.2⟩⟩
  | _ => exact ⟨List.prefix_refl _, id⟩

theorem descendAll_extends (hrewrite : Keeps rewrite) (owner : SymbolId) (ts : List Tree)
    (p : Pass) :
    Extends (fun n => AllArgs (KnownAt n)) ts p (descendAll rewrite owner ts p) := by
  cases ts with
  | nil => exact ⟨List.prefix_refl _, id⟩
  | cons t ts =>
      have x := ((descend_extends hrewrite owner t p).rewritten hrewrite owner).pair Known.mono
        (descendAll_extends hrewrite owner ts _) KnownArgs.mono
      exact ⟨x.table, x.known⟩

theorem descendCases_extends (hrewrite : Keeps rewrite) (owner : SymbolId) (cs : Cases)
    (p : Pass) :
    Extends (fun n => AllCases (KnownAt n)) cs p (descendCases rewrite owner cs p) := by
  cases cs with
  | nil => exact ⟨List.prefix_refl _, id⟩
  | cons pat g b rest =>
      have x := ((descend_extends hrewrite owner g p).rewritten hrewrite owner).pair Known.mono
        (((descend_extends hrewrite owner b _).rewritten hrewrite owner).pair Known.mono
          (descendCases_extends hrewrite owner rest _) KnownCases.mono)
        fun h _ hx => ⟨hx.1.mono h, KnownCases.mono h hx.2⟩
      exact ⟨x.table, x.known⟩

end

/-- A walk adds symbols to the table, and leaves a tree that knows no others. -/
theorem walk_extends (hrewrite : Keeps rewrite) (owner : SymbolId) (t : Tree) (p : Pass) :
    Extends Known t p (walk rewrite owner t p) :=
  (descend_extends hrewrite owner t p).rewritten hrewrite owner

end

end ScalaRs.TypedTrees
