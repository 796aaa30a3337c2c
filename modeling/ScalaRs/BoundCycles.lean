import Mathlib.Data.Fintype.Pigeonhole
import Mathlib.Data.Fintype.EquivFin
import Mathlib.Data.Set.Finite.Lemmas
import ScalaRs.Explorations
import ScalaRs.TyperTypes

/-! # Bounds that lead back to what they bound

A bound leads to the abstract types at its heads: type arguments are not entered, and for a
lower bound neither is an application. -/
namespace ScalaRs.BoundCycles
open Relation Explorations
open Unification (SymbolId Ty)

/-! ## Heads -/

mutual

/-- The abstract types a bound leads to. -/
def heads : Ty → List SymbolId
  | .typeParam id => [id]
  | .typeMember id => [id]
  | .applied ctor _ => heads ctor
  | .annotated tpe _ => heads tpe
  | .refined parents _ => headsOfAll parents
  | _ => []

def headsOfAll : List Ty → List SymbolId
  | [] => []
  | p :: parents => heads p ++ headsOfAll parents

end

mutual

/-- `heads` without the step through an application. -/
def bareHeads : Ty → List SymbolId
  | .typeParam id => [id]
  | .typeMember id => [id]
  | .annotated tpe _ => bareHeads tpe
  | .refined parents _ => bareHeadsOfAll parents
  | _ => []

def bareHeadsOfAll : List Ty → List SymbolId
  | [] => []
  | p :: parents => bareHeads p ++ bareHeadsOfAll parents

end

/-- What a type leads to, through applications only if `applications` holds. -/
inductive LeadsTo (applications : Prop) : Ty → SymbolId → Prop
  | typeParam (id : SymbolId) : LeadsTo applications (.typeParam id) id
  | typeMember (id : SymbolId) : LeadsTo applications (.typeMember id) id
  | applied {ctor : Ty} {id : SymbolId} (args : List Ty) (happ : applications)
      (h : LeadsTo applications ctor id) : LeadsTo applications (.applied ctor args) id
  | annotated {tpe : Ty} {id : SymbolId} (annot : String) (h : LeadsTo applications tpe id) :
      LeadsTo applications (.annotated tpe annot) id
  | parent {p : Ty} {parents : List Ty} {id : SymbolId} (decls : List Unification.RefineDecl)
      (hp : p ∈ parents) (h : LeadsTo applications p id) :
      LeadsTo applications (.refined parents decls) id

theorem mem_headsOfAll {id : SymbolId} {parents : List Ty} :
    id ∈ headsOfAll parents ↔ ∃ p ∈ parents, id ∈ heads p := by
  induction parents with
  | nil => simp [headsOfAll]
  | cons p parents ih => simp [headsOfAll, ih]

theorem mem_bareHeadsOfAll {id : SymbolId} {parents : List Ty} :
    id ∈ bareHeadsOfAll parents ↔ ∃ p ∈ parents, id ∈ bareHeads p := by
  induction parents with
  | nil => simp [bareHeadsOfAll]
  | cons p parents ih => simp [bareHeadsOfAll, ih]

theorem leadsTo_of_mem_heads {id : SymbolId} : ∀ {t : Ty}, id ∈ heads t → LeadsTo True t id
  | .typeParam x, h => by
      obtain rfl := List.mem_singleton.mp h
      exact .typeParam id
  | .typeMember x, h => by
      obtain rfl := List.mem_singleton.mp h
      exact .typeMember id
  | .applied ctor args, h => .applied args trivial (leadsTo_of_mem_heads h)
  | .annotated tpe annot, h => .annotated annot (leadsTo_of_mem_heads h)
  | .refined parents decls, h => by
      obtain ⟨p, hp, hid⟩ := mem_headsOfAll.mp h
      exact .parent decls hp (leadsTo_of_mem_heads hid)

theorem LeadsTo.mem_heads {applications : Prop} {t : Ty} {id : SymbolId}
    (h : LeadsTo applications t id) : id ∈ heads t := by
  induction h with
  | typeParam id => exact List.mem_singleton_self id
  | typeMember id => exact List.mem_singleton_self id
  | applied args _ _ ih => exact ih
  | annotated annot _ ih => exact ih
  | parent decls hp _ ih => exact mem_headsOfAll.mpr ⟨_, hp, ih⟩

theorem mem_heads {id : SymbolId} {t : Ty} : id ∈ heads t ↔ LeadsTo True t id :=
  ⟨leadsTo_of_mem_heads, LeadsTo.mem_heads⟩

theorem leadsTo_of_mem_bareHeads {id : SymbolId} : ∀ {t : Ty}, id ∈ bareHeads t → LeadsTo False t id
  | .typeParam x, h => by
      obtain rfl := List.mem_singleton.mp h
      exact .typeParam id
  | .typeMember x, h => by
      obtain rfl := List.mem_singleton.mp h
      exact .typeMember id
  | .annotated tpe annot, h => .annotated annot (leadsTo_of_mem_bareHeads h)
  | .refined parents decls, h => by
      obtain ⟨p, hp, hid⟩ := mem_bareHeadsOfAll.mp h
      exact .parent decls hp (leadsTo_of_mem_bareHeads hid)

theorem mem_bareHeads {id : SymbolId} {t : Ty} : id ∈ bareHeads t ↔ LeadsTo False t id := by
  constructor
  · exact leadsTo_of_mem_bareHeads
  · intro h
    induction h with
    | typeParam id => exact List.mem_singleton_self id
    | typeMember id => exact List.mem_singleton_self id
    | applied args happ _ _ => exact happ.elim
    | annotated annot _ ih => exact ih
    | parent decls hp _ ih => exact mem_bareHeadsOfAll.mpr ⟨_, hp, ih⟩

/-! ## The table -/

structure Symbol where
  name : String
  ty : Ty
  boundLo : Option Ty
  boundHi : Option Ty

def NONE : SymbolId := 0

/-- The right-hand side that a symbol's own type is, unless it stands for the symbol. -/
def Symbol.aliasRhs (s : Symbol) (id : SymbolId) : Option Ty :=
  match s.ty with
  | .noType => none
  | .error => none
  | .typeMember x => if x = id then none else some s.ty
  | .typeParam x => if x = id then none else some s.ty
  | other => some other

def Symbol.bound (s : Symbol) (upper : Bool) : Option Ty := if upper then s.boundHi else s.boundLo

/-- The symbols of a run. The heads of their types are symbols too. -/
structure SymbolTable where
  symbols : List Symbol
  closed : ∀ s ∈ symbols, ∀ t, t = s.ty ∨ s.boundLo = some t ∨ s.boundHi = some t →
    ∀ id ∈ heads t, id < symbols.length

/-- An index that is out of bounds is a panic, `none`. -/
def SymbolTable.get (st : SymbolTable) (id : SymbolId) : Option Symbol := st.symbols[id]?

/-- The `edge` of an upper and of a lower bound. -/
def edge (upper : Bool) (t : Ty) : List SymbolId := if upper then heads t else bareHeads t

/-- What a symbol leads to: through its right-hand side if it is an alias, and otherwise
through its bound. -/
def Symbol.step (s : Symbol) (upper : Bool) (id : SymbolId) : List SymbolId :=
  match s.aliasRhs id with
  | some rhs => edge upper rhs
  | none =>
    match s.bound upper with
    | some b => edge upper b
    | none => []

def step (st : SymbolTable) (upper : Bool) (id : SymbolId) : Option (List SymbolId) := do
  let s ← st.get id
  some (s.step upper id)

/-- The symbols of the table that are not seen yet. -/
def unseen (st : SymbolTable) (seen : List SymbolId) : List SymbolId :=
  (List.range st.symbols.length).filter fun id => id ∉ seen

theorem length_unseen_lt {st : SymbolTable} {seen : List SymbolId} {id : SymbolId} {s : Symbol}
    (hs : st.get id = some s) (hid : id ∉ seen) :
    (unseen st (id :: seen)).length < (unseen st seen).length := by
  have hlt : id < st.symbols.length := (List.getElem?_eq_some_iff.mp hs).1
  have hsub : unseen st (id :: seen) = (unseen st seen).filter fun x => x ≠ id := by
    rw [unseen, unseen, List.filter_filter]
    apply List.filter_congr
    intro x _
    simp
  rw [hsub]
  apply List.length_filter_lt_length_iff_exists.mpr
  refine ⟨id, ?_, by simp⟩
  exact List.mem_filter.mpr ⟨List.mem_range.mpr hlt, by simpa using hid⟩

/-- The loop of `cycles_through`; the head of the stack is its top. -/
def walk (st : SymbolTable) (start : SymbolId) (upper : Bool) (seen stack : List SymbolId) :
    Option Bool :=
  match stack with
  | [] => some false
  | id :: stack =>
    if id = start then some true
    else if _hseen : id ∈ seen then walk st start upper seen stack
    else
      match _hs : st.get id with
      | none => none
      | some s => walk st start upper (id :: seen) ((s.step upper id).reverse ++ stack)
termination_by ((unseen st seen).length, stack.length)
decreasing_by
  · exact Prod.Lex.right _ (Nat.lt_succ_self _)
  · exact Prod.Lex.left _ _ (length_unseen_lt _hs _hseen)

def cyclesThrough (st : SymbolTable) (start : SymbolId) (upper : Bool) : Option Bool := do
  let stack ← step st upper start
  walk st start upper [] stack.reverse

/-- What is reported of one symbol, if anything. -/
def boundCycle (st : SymbolTable) (id : SymbolId) : Option (Option (SymbolId × String)) := do
  let info ← st.get id
  let upper ← (if info.boundHi.isSome then cyclesThrough st id true else some false : Option Bool)
  if upper then
    some (some (id, "cyclic aliasing or subtyping involving type " ++ info.name))
  else
    let lower ← (if info.boundLo.isSome then cyclesThrough st id false else some false : Option Bool)
    if lower then some (some (id, "illegal cyclic reference involving type " ++ info.name))
    else some none

def boundCycles (st : SymbolTable) : List SymbolId → Option (List (SymbolId × String))
  | [] => some []
  | id :: ids =>
    if id = NONE then boundCycles st ids
    else do
      let report ← boundCycle st id
      let reports ← boundCycles st ids
      some (report.toList ++ reports)

/-! ## Head steps -/

/-- One symbol leads to another through heads, or through bare heads for lower bounds. -/
inductive HeadStep (st : SymbolTable) (upper : Bool) : SymbolId → SymbolId → Prop
  | rhs {a b : SymbolId} {s : Symbol} {rhs : Ty} (hs : st.get a = some s)
      (hrhs : s.aliasRhs a = some rhs) (h : LeadsTo (upper = true) rhs b) : HeadStep st upper a b
  | bound {a b : SymbolId} {s : Symbol} {t : Ty} (hs : st.get a = some s)
      (hrhs : s.aliasRhs a = none) (ht : s.bound upper = some t)
      (h : LeadsTo (upper = true) t b) : HeadStep st upper a b

theorem mem_edge {upper : Bool} {t : Ty} {id : SymbolId} :
    id ∈ edge upper t ↔ LeadsTo (upper = true) t id := by
  cases upper with
  | true => simpa [edge] using mem_heads
  | false => simpa [edge] using mem_bareHeads

theorem mem_step {st : SymbolTable} {upper : Bool} {a b : SymbolId} {s : Symbol}
    (hs : st.get a = some s) : b ∈ s.step upper a ↔ HeadStep st upper a b := by
  unfold Symbol.step
  cases hrhs : s.aliasRhs a with
  | some rhs =>
      dsimp only
      rw [mem_edge]
      constructor
      · exact .rhs hs hrhs
      · intro h
        cases h with
        | rhs hs' hrhs' h =>
            cases hs.symm.trans hs'
            cases hrhs.symm.trans hrhs'
            exact h
        | bound hs' hrhs' _ _ =>
            cases hs.symm.trans hs'
            cases hrhs.symm.trans hrhs'
  | none =>
      dsimp only
      constructor
      · intro h
        cases ht : s.bound upper with
        | none => simp [ht] at h
        | some t =>
            rw [ht] at h
            exact .bound hs hrhs ht (mem_edge.mp h)
      · intro h
        cases h with
        | rhs hs' hrhs' _ =>
            cases hs.symm.trans hs'
            cases hrhs.symm.trans hrhs'
        | bound hs' _ ht h =>
            cases hs.symm.trans hs'
            rw [ht]
            exact mem_edge.mpr h

theorem Symbol.ty_of_aliasRhs {s : Symbol} {id : SymbolId} {rhs : Ty}
    (h : s.aliasRhs id = some rhs) : rhs = s.ty := by
  unfold aliasRhs at h
  split at h
  · cases h
  · cases h
  · split at h
    · cases h
    · exact (Option.some.inj h).symm
  · split at h
    · cases h
    · exact (Option.some.inj h).symm
  · exact (Option.some.inj h).symm

variable {st : SymbolTable} {upper : Bool}

/-- A head step comes to a symbol of the table. -/
theorem HeadStep.lt {a b : SymbolId} (h : HeadStep st upper a b) : b < st.symbols.length := by
  cases h with
  | rhs hs hrhs h =>
      exact st.closed _ (List.mem_of_getElem? hs) _ (.inl (Symbol.ty_of_aliasRhs hrhs)) b h.mem_heads
  | bound hs _ ht h =>
      apply st.closed _ (List.mem_of_getElem? hs) _ _ b h.mem_heads
      cases upper with
      | true => exact .inr (.inr ht)
      | false => exact .inr (.inl ht)

theorem exists_get {id : SymbolId} (h : id < st.symbols.length) : ∃ s, st.get id = some s :=
  ⟨st.symbols[id], List.getElem?_eq_getElem h⟩

/-! ## The walk -/

/-- The walk finds the start again exactly if it is reached from where the walk begins. -/
theorem walk_spec {start : SymbolId} {roots seen stack : List SymbolId}
    (hexplored : Exploration (HeadStep st upper) roots seen stack) (hstart : start ∉ seen)
    (hlt : ∀ b ∈ stack, b < st.symbols.length) :
    ∃ r, walk st start upper seen stack = some r ∧
      (r = true ↔ ∃ x ∈ roots, ReflTransGen (HeadStep st upper) x start) := by
  induction seen, stack using walk.induct st start upper with
  | case1 seen =>
      refine ⟨false, by rw [walk], ?_⟩
      rw [← hexplored.mem_seen_iff]
      simp [hstart]
  | case2 seen stack =>
      refine ⟨true, by rw [walk, if_pos rfl], ?_⟩
      simpa using hexplored.reached start (.inr List.mem_cons_self)
  | case3 seen id stack hne hseen ih =>
      rw [walk, if_neg hne, dif_pos hseen]
      exact ih (hexplored.skip hseen) hstart fun b hb => hlt b (List.mem_cons_of_mem id hb)
  | case4 seen id stack hne hseen hs =>
      obtain ⟨s, hs'⟩ := exists_get (hlt id List.mem_cons_self)
      cases hs.symm.trans hs'
  | case5 seen id stack hne hseen s hs ih =>
      rw [walk, if_neg hne, dif_neg hseen]
      have hmatch : (match _hs : st.get id with
          | none => none
          | some s => walk st start upper (id :: seen) ((s.step upper id).reverse ++ stack)) =
          walk st start upper (id :: seen) ((s.step upper id).reverse ++ stack) := by
        split
        · rename_i hnone
          cases hs.symm.trans hnone
        · rename_i s' hs'
          cases hs.symm.trans hs'
          rfl
      rw [hmatch]
      apply ih
      · apply hexplored.visit
        intro m
        rw [List.mem_append, List.mem_reverse, mem_step hs, or_comm]
      · intro hmem
        cases List.mem_cons.mp hmem with
        | inl heq => exact hne heq.symm
        | inr hold => exact hstart hold
      · intro b hb
        cases List.mem_append.mp hb with
        | inl hnext => exact ((mem_step hs).mp (List.mem_reverse.mp hnext)).lt
        | inr hold => exact hlt b (List.mem_cons_of_mem id hold)

theorem cyclesThrough_spec {start : SymbolId} (h : start < st.symbols.length) :
    ∃ r, cyclesThrough st start upper = some r ∧
      (r = true ↔ TransGen (HeadStep st upper) start start) := by
  obtain ⟨s, hs⟩ := exists_get h
  have hrun : cyclesThrough st start upper =
      walk st start upper [] (s.step upper start).reverse := by
    rw [cyclesThrough, step, hs]
    rfl
  rw [hrun]
  have hrange : ∀ b ∈ (s.step upper start).reverse, b < st.symbols.length :=
    fun b hb => ((mem_step hs).mp (List.mem_reverse.mp hb)).lt
  obtain ⟨r, hr, hiff⟩ :=
    walk_spec (Exploration.start (s.step upper start).reverse) List.not_mem_nil hrange
  refine ⟨r, hr, hiff.trans ?_⟩
  rw [TransGen.head'_iff]
  constructor
  · intro hx
    obtain ⟨x, hx, hreach⟩ := hx
    exact ⟨x, (mem_step hs).mp (List.mem_reverse.mp hx), hreach⟩
  · intro hx
    obtain ⟨x, hx, hreach⟩ := hx
    exact ⟨x, List.mem_reverse.mpr ((mem_step hs).mpr hx), hreach⟩

/-! ## Reports -/

open Classical in
/-- What has to be reported of a symbol: that its upper bound leads back to it, or else that
its lower bound does. -/
noncomputable def verdict (st : SymbolTable) (id : SymbolId) : Option (SymbolId × String) :=
  match st.get id with
  | none => none
  | some s =>
    if s.boundHi ≠ none ∧ TransGen (HeadStep st true) id id then
      some (id, "cyclic aliasing or subtyping involving type " ++ s.name)
    else if s.boundLo ≠ none ∧ TransGen (HeadStep st false) id id then
      some (id, "illegal cyclic reference involving type " ++ s.name)
    else none

/-- A test that is made only where there is a bound. -/
theorem test_spec {id : SymbolId} (h : id < st.symbols.length) (b : Option Ty) :
    ∃ r, (if b.isSome then cyclesThrough st id upper else some false) = some r ∧
      (r = true ↔ b ≠ none ∧ TransGen (HeadStep st upper) id id) := by
  cases b with
  | none => exact ⟨false, rfl, by simp⟩
  | some t =>
      obtain ⟨r, hr, hiff⟩ := @cyclesThrough_spec st upper _ h
      exact ⟨r, hr, by simp [hiff]⟩

theorem boundCycle_eq {id : SymbolId} {s : Symbol} (hs : st.get id = some s) :
    boundCycle st id = some (verdict st id) := by
  have hlt : id < st.symbols.length := (List.getElem?_eq_some_iff.mp hs).1
  obtain ⟨up, hup, hupper⟩ := @test_spec st true id hlt s.boundHi
  obtain ⟨low, hlow, hlower⟩ := @test_spec st false id hlt s.boundLo
  unfold boundCycle verdict
  simp only [hs, Option.bind_eq_bind, Option.bind_some, hup, hlow, ← hupper, ← hlower]
  cases up with
  | true => rfl
  | false =>
      cases low with
      | true => rfl
      | false => rfl

/-- A type parameter or an abstract type member of the table: its own type, if it has one,
stands for itself. -/
def IsAbstract (st : SymbolTable) (id : SymbolId) : Prop :=
  id ≠ NONE ∧ ∃ s, st.get id = some s ∧ s.aliasRhs id = none

theorem boundCycles_eq {ids : List SymbolId} (h : ∀ id ∈ ids, IsAbstract st id) :
    boundCycles st ids = some (ids.filterMap (verdict st)) := by
  induction ids with
  | nil => rfl
  | cons id ids ih =>
      obtain ⟨hne, s, hs, -⟩ := h id List.mem_cons_self
      rw [boundCycles, if_neg hne, boundCycle_eq hs, ih fun x hx => h x (List.mem_cons_of_mem id hx)]
      cases hverdict : verdict st id with
      | none => simp [hverdict]
      | some report => simp [hverdict]

/-! ## Without the reported bounds -/

def Symbol.dropBounds (s : Symbol) : Symbol := { s with boundLo := none, boundHi := none }

/-- The table after the bounds of these symbols are dropped. -/
def SymbolTable.dropBounds (st : SymbolTable) (ids : List SymbolId) : SymbolTable where
  symbols := st.symbols.mapIdx fun i s => if i ∈ ids then s.dropBounds else s
  closed := by
    intro s hs t ht id hid
    obtain ⟨i, hi, rfl⟩ := List.mem_mapIdx.mp hs
    rw [List.length_mapIdx]
    apply st.closed _ (List.getElem_mem hi) t _ id hid
    split at ht
    · exact ht.imp_right fun h => nomatch h
    · exact ht

/-- A head step that is left was there before, and not from a symbol without bounds. -/
theorem HeadStep.of_dropBounds {ids : List SymbolId} {a b : SymbolId}
    (ha : IsAbstract st a) (h : HeadStep (st.dropBounds ids) upper a b) :
    HeadStep st upper a b ∧ a ∉ ids ∧ ∃ s, st.get a = some s ∧ s.bound upper ≠ none := by
  obtain ⟨-, s, hs, hrhs⟩ := ha
  have hget : (st.dropBounds ids).get a = some (if a ∈ ids then s.dropBounds else s) := by
    change (List.mapIdx _ st.symbols)[a]? = _
    rw [List.getElem?_mapIdx]
    exact congrArg (Option.map _) hs
  have hdropped : s.dropBounds.aliasRhs a = none := hrhs
  by_cases hmem : a ∈ ids
  · rw [if_pos hmem] at hget
    cases h with
    | rhs hs' hrhs' _ =>
        cases hget.symm.trans hs'
        cases hdropped.symm.trans hrhs'
    | bound hs' _ ht _ =>
        cases hget.symm.trans hs'
        cases upper <;> cases ht
  · rw [if_neg hmem] at hget
    cases h with
    | rhs hs' hrhs' _ =>
        cases hget.symm.trans hs'
        cases hrhs.symm.trans hrhs'
    | bound hs' _ ht h =>
        cases hget.symm.trans hs'
        exact ⟨.bound hs hrhs ht h, hmem, s, hs, by simp [ht]⟩

/-- A symbol whose bound leads back to it is reported. -/
theorem reported_of_cycle {ids : List SymbolId} {a : SymbolId} {s : Symbol} (ha : a ∈ ids)
    (hs : st.get a = some s) (hbound : s.bound upper ≠ none)
    (hcycle : TransGen (HeadStep st upper) a a) :
    a ∈ (ids.filterMap (verdict st)).map Prod.fst := by
  have hverdict : ∃ message, verdict st a = some (a, message) := by
    unfold verdict
    rw [hs]
    dsimp only
    split
    · exact ⟨_, rfl⟩
    · rename_i hupper
      split
      · exact ⟨_, rfl⟩
      · rename_i hlower
        cases upper with
        | true => exact absurd ⟨hbound, hcycle⟩ hupper
        | false => exact absurd ⟨hbound, hcycle⟩ hlower
  obtain ⟨message, hmessage⟩ := hverdict
  exact List.mem_map.mpr ⟨(a, message), List.mem_filterMap.mpr ⟨a, ha, hmessage⟩, rfl⟩

/-- Some symbol of an endless chain through a list leads back to itself. -/
theorem exists_cycle {α : Type} {R : α → α → Prop} {l : List α} {chain : ℕ → α}
    (hmem : ∀ n, chain n ∈ l) (hstep : ∀ n, R (chain n) (chain (n + 1))) :
    ∃ n, TransGen R (chain n) (chain n) := by
  have hfinite : Finite {x // x ∈ l} := l.finite_toSet.to_subtype
  have hmany : ∀ n k, TransGen R (chain n) (chain (n + k + 1)) := by
    intro n k
    induction k with
    | zero => exact .single (hstep n)
    | succ k ih => exact .tail ih (hstep (n + k + 1))
  obtain ⟨n, m, hne, heq⟩ :=
    Finite.exists_ne_map_eq_of_infinite fun n => (⟨chain n, hmem n⟩ : {x // x ∈ l})
  have hsame : chain n = chain m := congrArg Subtype.val heq
  cases Nat.lt_or_gt_of_ne hne with
  | inl hlt =>
      obtain ⟨k, rfl⟩ := Nat.exists_eq_add_of_lt hlt
      refine ⟨n, ?_⟩
      have hcycle := hmany n k
      rwa [← hsame] at hcycle
  | inr hgt =>
      obtain ⟨k, rfl⟩ := Nat.exists_eq_add_of_lt hgt
      refine ⟨m, ?_⟩
      have hcycle := hmany m k
      rwa [hsame] at hcycle

/-- Exactly the symbols with a bound that leads back to them are reported, and without their
bounds no chain of head steps among the listed symbols is endless. -/
theorem boundCycles_exact (st : SymbolTable) {ids : List SymbolId}
    (h : ∀ id ∈ ids, IsAbstract st id) :
    boundCycles st ids = some (ids.filterMap (verdict st)) ∧
      ∀ upper, ¬ ∃ chain : ℕ → SymbolId, (∀ n, chain n ∈ ids) ∧ ∀ n,
        HeadStep (st.dropBounds ((ids.filterMap (verdict st)).map Prod.fst)) upper
          (chain n) (chain (n + 1)) := by
  refine ⟨boundCycles_eq h, ?_⟩
  intro upper hchain
  obtain ⟨chain, hmem, hstep⟩ := hchain
  have hleft := fun n => (hstep n).of_dropBounds (h _ (hmem n))
  obtain ⟨n, hcycle⟩ := exists_cycle hmem fun n => (hleft n).1
  obtain ⟨-, hkept, s, hs, hbound⟩ := hleft n
  exact hkept (reported_of_cycle (hmem n) hs hbound hcycle)

/-- `T <: T` -/
def selfBounded : SymbolTable where
  symbols := [⟨"<none>", .noType, none, none⟩, ⟨"T", .typeParam 1, none, some (.typeParam 1)⟩]
  closed := by
    intro s hs t ht id hid
    simp only [List.mem_cons, List.not_mem_nil, or_false] at hs
    obtain rfl | rfl := hs
    · obtain rfl | ht | ht := ht
      · cases hid
      · cases ht
      · cases ht
    · have htype : t = .typeParam 1 := by simpa [eq_comm] using ht
      subst htype
      obtain rfl := List.mem_singleton.mp hid
      exact Nat.lt_succ_self 1

theorem isAbstract_selfBounded : ∀ id ∈ [1], IsAbstract selfBounded id := by
  intro id hid
  obtain rfl := List.mem_singleton.mp hid
  exact ⟨Nat.one_ne_zero, _, rfl, rfl⟩

theorem boundCycles_exact_selfBounded :
    boundCycles selfBounded [1] = some ([1].filterMap (verdict selfBounded)) ∧
      ∀ upper, ¬ ∃ chain : ℕ → SymbolId, (∀ n, chain n ∈ [1]) ∧ ∀ n,
        HeadStep (selfBounded.dropBounds (([1].filterMap (verdict selfBounded)).map Prod.fst)) upper
          (chain n) (chain (n + 1)) :=
  boundCycles_exact selfBounded isAbstract_selfBounded

end ScalaRs.BoundCycles
