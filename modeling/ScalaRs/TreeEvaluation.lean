import ScalaRs.TypedTrees
import ScalaRs.EvaluationOrder

/-! # Evaluation of typed trees

Trees run over an environment of values and a state that holds the variables and the fields.
What calls, allocations and reads do is a parameter; the order in which the parts of a tree run
is given here. An application runs its function first, unless it is one of those that are
evaluated operand first. -/
namespace ScalaRs.TypedTrees
open Effects
open Unification (Ty SymbolId)

/-- What the members of a program do. -/
structure Meaning (V S : Type) where
  unit : V
  this : V
  literal : Literal → V
  /-- The value of a mutable local. -/
  mutableLocal : SymbolId → S → Option V
  /-- A field of an object, which fails for `null`. -/
  field : SymbolId → V → S → Option V
  /-- Sets a mutable local, or a field of the object given. -/
  assign : SymbolId → List V → V → Run S V
  invoke : SymbolId → List V → Run S V
  /-- Applies a function value. -/
  applied : V → List V → Run S V
  force : V → Run S V
  closure : (List V → Run S V) → V
  new : Ty → Run S V
  truth : V → Bool
  /-- The values for the binders of a pattern that matches. -/
  matching : Pat → V → Run S (Option (List V))
  matchError : V → Run S V
  throw : V → Run S V

inductive Callee (V : Type)
  | value (v : V)
  | method (sym : SymbolId)

/-- What a tree has come to: a value, or a call that further argument clauses may extend. -/
inductive Pending (V : Type)
  | ready (v : V)
  | call (callee : Callee V) (values : List V)

abbrev Env (V : Type) := SymbolId → Option V

namespace Env
variable {V : Type}

def set (ρ : Env V) (x : SymbolId) (v : V) : Env V := fun y => if y = x then some v else ρ y

def bind (ρ : Env V) : List SymbolId → List V → Env V
  | x :: xs, v :: vs => bind (ρ.set x v) xs vs
  | _, _ => ρ

@[simp] theorem set_same (ρ : Env V) (x : SymbolId) (v : V) : ρ.set x v x = some v := by
  simp [set]

theorem set_of_ne (ρ : Env V) {x y : SymbolId} (v : V) (h : y ≠ x) : ρ.set x v y = ρ y := by
  simp [set, h]

end Env

def Pending.clause {V : Type} : Pending V → List V → Pending V
  | .ready v, vs => .call (.value v) vs
  | .call c ws, vs => .call c (ws ++ vs)

/-- Whether a tree of this type still waits for a clause. -/
def isMethodType : Ty → Bool
  | .method _ _ => true
  | _ => false

def isMutable (st : SymbolTable) (x : SymbolId) : Bool := (st.get x).mutable

/-- A by-name parameter is forced where it is used, unless it is handed on to another one. -/
def forces (st : SymbolTable) (i : Info) : Bool :=
  i.sym != noSymbol && isByName (st.get i.sym).ty && !isByName i.ty

/-- The environment after a statement of a block. -/
def Env.after {V : Type} (st : SymbolTable) (ρ : Env V) : Tree → V → Env V
  | .valDef i _ _, v => if isMutable st i.sym then ρ else ρ.set i.sym v
  | _, _ => ρ

section
variable {V S : Type} (m : Meaning V S) (st : SymbolTable)

def finish : Pending V → Run S V
  | .ready v => pure v
  | .call (.value v) vs => m.applied v vs
  | .call (.method x) vs => m.invoke x vs

@[simp] theorem finish_ready (v : V) : finish m (.ready v) = pure v := rfl

/-- A call is made when its last clause is there. -/
def settle (i : Info) (p : Pending V) : Run S (Pending V) :=
  if isMethodType i.ty then pure p else do
    let v ← finish m p
    pure (.ready v)

/-- The use of a name or a selection that is not a method. -/
def reference (i : Info) (o : S → Option V) : Run S (Pending V) := do
  let v ← Run.reads o
  if forces st i then do
    let w ← m.force v
    pure (.ready w)
  else pure (.ready v)

def isEmptyTree : Tree → Bool
  | .empty _ => true
  | _ => false

variable (first : Tree → Tree → Bool)

mutual

/-- What `t` comes to. The application of `f` to an argument `a` runs the argument before the
function where `first f a` holds. -/
def head : Tree → Env V → Run S (Pending V)
  | .empty _, _ => pure (.ready m.unit)
  | .literal _ c, _ => pure (.ready (m.literal c))
  | .this _, _ => pure (.ready m.this)
  | .ident i _, ρ =>
      if namesMethod st i then pure (.call (.method i.sym) [])
      else reference m st i (if isMutable st i.sym then m.mutableLocal i.sym else fun _ => ρ i.sym)
  | .select i q _, ρ => do
      let p ← head q ρ
      let v ← finish m p
      if namesMethod st i then pure (.call (.method i.sym) [v])
      else reference m st i (m.field i.sym v)
  | .apply i f [], ρ => do
      let p ← head f ρ
      settle m i (p.clause [])
  | .apply i f (a :: args), ρ =>
      if first f a then do
        let q ← head a ρ
        let v ← finish m q
        let p ← head f ρ
        let vs ← values args ρ
        settle m i (p.clause (v :: vs))
      else do
        let p ← head f ρ
        let q ← head a ρ
        let v ← finish m q
        let vs ← values args ρ
        settle m i (p.clause (v :: vs))
  | .typeApply _ f, ρ => head f ρ
  | .typed _ e, ρ => do
      let p ← head e ρ
      let v ← finish m p
      pure (.ready v)
  | .new i, _ => do
      let v ← m.new i.ty
      pure (.ready v)
  | .function _ ps b, ρ =>
      pure (.ready (m.closure fun vs => head b (ρ.bind ps vs) >>= finish m))
  | .block _ stats e, ρ => do
      let ρ' ← runStats stats ρ
      let p ← head e ρ'
      let v ← finish m p
      pure (.ready v)
  | .ifElse _ c t e, ρ => do
      let p ← head c ρ
      let v ← finish m p
      let q ← if m.truth v then head t ρ else head e ρ
      let w ← finish m q
      pure (.ready w)
  | .matchOn _ s cs, ρ => do
      let p ← head s ρ
      let v ← finish m p
      let w ← runCases cs v ρ
      pure (.ready w)
  | .assign _ l r, ρ => do
      let us ← place l ρ
      let p ← head r ρ
      let v ← finish m p
      let w ← m.assign l.sym us v
      pure (.ready w)
  | .throw _ e, ρ => do
      let p ← head e ρ
      let v ← finish m p
      let w ← m.throw v
      pure (.ready w)
  | .valDef i _ r, ρ => do
      let p ← head r ρ
      let v ← finish m p
      if isMutable st i.sym then do
        let _ ← m.assign i.sym [] v
        pure (.ready v)
      else pure (.ready v)

def values : List Tree → Env V → Run S (List V)
  | [], _ => pure []
  | t :: ts, ρ => do
      let p ← head t ρ
      let v ← finish m p
      let vs ← values ts ρ
      pure (v :: vs)

def runStats : List Tree → Env V → Run S (Env V)
  | [], ρ => pure ρ
  | t :: ts, ρ => do
      let p ← head t ρ
      let v ← finish m p
      runStats ts (ρ.after st t v)

/-- The first case whose pattern matches and whose guard holds. -/
def runCases : Cases → V → Env V → Run S V
  | .nil, v, _ => m.matchError v
  | .cons pat g b rest, v, ρ => do
      let r ← m.matching pat v
      match r with
      | none => runCases rest v ρ
      | some vs => do
          let p ← head g (ρ.bind pat.binders vs)
          let w ← finish m p
          if isEmptyTree g || m.truth w then head b (ρ.bind pat.binders vs) >>= finish m
          else runCases rest v ρ

/-- The object whose field an assignment sets. -/
def place : Tree → Env V → Run S (List V)
  | .select _ q _, ρ => do
      let p ← head q ρ
      let v ← finish m p
      pure [v]
  | _, _ => pure []

end

/-- The value of `t`. -/
def eval (t : Tree) (ρ : Env V) : Run S V := head m st first t ρ >>= finish m

end

/-! ## What evaluation depends on -/

def Env.AgreeBelow {V : Type} (n : ℕ) (ρ₁ ρ₂ : Env V) : Prop := ∀ x < n, ρ₁ x = ρ₂ x

section
variable {V : Type} {n : ℕ} {ρ₁ ρ₂ : Env V}

theorem Env.AgreeBelow.set (h : ρ₁.AgreeBelow n ρ₂) (x : SymbolId) (v : V) :
    (ρ₁.set x v).AgreeBelow n (ρ₂.set x v) := by
  intro y hy
  by_cases hyx : y = x
  · simp [Env.set, hyx]
  · simp [Env.set, hyx, h y hy]

theorem Env.AgreeBelow.bind (h : ρ₁.AgreeBelow n ρ₂) (xs : List SymbolId) (vs : List V) :
    (ρ₁.bind xs vs).AgreeBelow n (ρ₂.bind xs vs) := by
  induction xs generalizing vs ρ₁ ρ₂ with
  | nil => cases vs <;> exact h
  | cons x xs ih =>
      cases vs with
      | nil => exact h
      | cons v vs => exact ih (h.set x v) vs

/-- A symbol that no tree knows can be bound freely. -/
theorem Env.agreeBelow_set (ρ : Env V) {x : SymbolId} (v : V) (hx : n ≤ x) :
    (ρ.set x v).AgreeBelow n ρ := by
  intro y hy
  have hyx : y ≠ x := fun h => absurd (h ▸ hx) (Nat.not_le_of_lt hy)
  exact ρ.set_of_ne v hyx

variable {st₁ st₂ : SymbolTable}

theorem namesMethod_congr (hst : st₁.AgreeBelow n st₂) {i : Info} (hi : i.sym < n) :
    namesMethod st₁ i = namesMethod st₂ i := by
  simp only [namesMethod, hst i.sym hi]

theorem namesByName_congr (hst : st₁.AgreeBelow n st₂) {i : Info} (hi : i.sym < n) :
    namesByName st₁ i = namesByName st₂ i := by
  simp only [namesByName, hst i.sym hi]

theorem forces_congr (hst : st₁.AgreeBelow n st₂) {i : Info} (hi : i.sym < n) :
    forces st₁ i = forces st₂ i := by
  simp only [forces, hst i.sym hi]

theorem isMutable_congr (hst : st₁.AgreeBelow n st₂) {x : SymbolId} (hx : x < n) :
    isMutable st₁ x = isMutable st₂ x := by
  simp only [isMutable, hst x hx]

theorem Env.AgreeBelow.after (hst : st₁.AgreeBelow n st₂) (h : ρ₁.AgreeBelow n ρ₂) {t : Tree}
    (ht : KnownAt n t) (v : V) :
    (ρ₁.after st₁ t v).AgreeBelow n (ρ₂.after st₂ t v) := by
  cases t with
  | valDef i name rhs =>
      have hi : isMutable st₁ i.sym = isMutable st₂ i.sym := isMutable_congr hst ht.1
      simp only [Env.after, hi]
      split
      · exact h
      · exact h.set i.sym v
  | _ => exact h

variable {S : Type} (m : Meaning V S) (first : Tree → Tree → Bool)

theorem reference_congr (hst : st₁.AgreeBelow n st₂) {i : Info} (hi : i.sym < n)
    (o : S → Option V) : reference m st₁ i o = reference m st₂ i o := by
  simp only [reference, forces_congr hst hi]

mutual

/-- Evaluation only looks at the symbols that the tree knows. -/
theorem head_congr (hst : st₁.AgreeBelow n st₂) (t : Tree) (ht : Known n t) {ρ₁ ρ₂ : Env V}
    (h : ρ₁.AgreeBelow n ρ₂) :
    head m st₁ first t ρ₁ = head m st₂ first t ρ₂ := by
  cases t with
  | empty i => simp only [head]
  | literal i c => simp only [head]
  | this i => simp only [head]
  | ident i name =>
      have hi : i.sym < n := ht.here.1
      simp only [head, namesMethod_congr hst hi, isMutable_congr hst hi, h i.sym hi,
        reference_congr m hst hi]
  | select i q name =>
      have hi : i.sym < n := ht.here.1
      simp only [head, head_congr hst q ht.2 h, namesMethod_congr hst hi, reference_congr m hst hi]
  | apply i f args =>
      cases args with
      | nil => simp only [head, head_congr hst f ht.2.1 h]
      | cons a args =>
          have hf := head_congr hst f ht.2.1 h
          have ha := head_congr hst a ht.2.2.1 h
          have hargs := values_congr hst args ht.2.2.2 h
          simp only [head, hf, ha, hargs]
  | typeApply i f => simp only [head, head_congr hst f ht.2 h]
  | typed i e => simp only [head, head_congr hst e ht.2 h]
  | new i => simp only [head]
  | function i ps b =>
      have hb : ∀ vs, head m st₁ first b (ρ₁.bind ps vs) = head m st₂ first b (ρ₂.bind ps vs) :=
        fun vs => head_congr hst b ht.2 (h.bind ps vs)
      simp only [head, hb]
  | block i stats e =>
      simp only [head]
      apply runStats_congr hst stats ht.2.1 h
      intro ρ₁ ρ₂ h'
      rw [head_congr hst e ht.2.2 h']
  | ifElse i c t e =>
      have hc := head_congr hst c ht.2.1 h
      have ht' := head_congr hst t ht.2.2.1 h
      have he := head_congr hst e ht.2.2.2 h
      simp only [head, hc, ht', he]
  | matchOn i s cs =>
      have hcs : ∀ v, runCases m st₁ first cs v ρ₁ = runCases m st₂ first cs v ρ₂ :=
        fun v => runCases_congr hst cs ht.2.2 v h
      simp only [head, head_congr hst s ht.2.1 h, hcs]
  | assign i l r =>
      simp only [head, place_congr hst l ht.2.1 h, head_congr hst r ht.2.2 h]
  | throw i e => simp only [head, head_congr hst e ht.2 h]
  | valDef i name r =>
      have hi : i.sym < n := ht.here.1
      simp only [head, head_congr hst r ht.2 h, isMutable_congr hst hi]

theorem values_congr (hst : st₁.AgreeBelow n st₂) (ts : List Tree)
    (hts : AllArgs (KnownAt n) ts) {ρ₁ ρ₂ : Env V} (h : ρ₁.AgreeBelow n ρ₂) :
    values m st₁ first ts ρ₁ = values m st₂ first ts ρ₂ := by
  cases ts with
  | nil => simp only [values]
  | cons t ts => simp only [values, head_congr hst t hts.1 h, values_congr hst ts hts.2 h]

theorem runStats_congr (hst : st₁.AgreeBelow n st₂) (ts : List Tree)
    (hts : AllArgs (KnownAt n) ts) {ρ₁ ρ₂ : Env V} (h : ρ₁.AgreeBelow n ρ₂) {β : Type}
    {k₁ k₂ : Env V → Run S β} (hk : ∀ ρ₁ ρ₂, ρ₁.AgreeBelow n ρ₂ → k₁ ρ₁ = k₂ ρ₂) :
    (runStats m st₁ first ts ρ₁ >>= k₁) = runStats m st₂ first ts ρ₂ >>= k₂ := by
  cases ts with
  | nil => simpa only [runStats, Run.pure_bind] using hk ρ₁ ρ₂ h
  | cons t ts =>
      simp only [runStats, Run.bind_assoc, head_congr hst t hts.1 h]
      apply Run.bind_congr
      intro p
      apply Run.bind_congr
      intro v
      exact runStats_congr hst ts hts.2 (h.after hst hts.1.here v) hk

theorem runCases_congr (hst : st₁.AgreeBelow n st₂) (cs : Cases)
    (hcs : AllCases (KnownAt n) cs) (v : V) {ρ₁ ρ₂ : Env V} (h : ρ₁.AgreeBelow n ρ₂) :
    runCases m st₁ first cs v ρ₁ = runCases m st₂ first cs v ρ₂ := by
  cases cs with
  | nil => simp only [runCases]
  | cons pat g b rest =>
      have hg : ∀ vs, head m st₁ first g (ρ₁.bind pat.binders vs) =
          head m st₂ first g (ρ₂.bind pat.binders vs) :=
        fun vs => head_congr hst g hcs.1 (h.bind pat.binders vs)
      have hb : ∀ vs, head m st₁ first b (ρ₁.bind pat.binders vs) =
          head m st₂ first b (ρ₂.bind pat.binders vs) :=
        fun vs => head_congr hst b hcs.2.1 (h.bind pat.binders vs)
      simp only [runCases, hg, hb, runCases_congr hst rest hcs.2.2 v h]

theorem place_congr (hst : st₁.AgreeBelow n st₂) (t : Tree) (ht : Known n t) {ρ₁ ρ₂ : Env V}
    (h : ρ₁.AgreeBelow n ρ₂) :
    place m st₁ first t ρ₁ = place m st₂ first t ρ₂ := by
  cases t with
  | select i q name => simp only [place, head_congr hst q ht.2 h]
  | _ => simp only [place]

end

end

end ScalaRs.TypedTrees
