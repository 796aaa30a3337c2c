import ScalaRs.LinearizationQueries

/-! # Linearizations while the symbol table changes

A change of a symbol moves the generation, and with it everything published is
dropped. Names entered in a scope and symbols allocated move nothing: what
survives them are the linearizations of classes below which every parent clause
names its class outright. -/
namespace ScalaRs.Linearization

universe u

variable {α : Type u}

/-! ## How a parent clause resolves -/

/-- What resolving a parent clause reads besides the scopes. -/
structure Graph (α : Type u) where
  symbols : α → Symbol α
  /-- The index of the classes by their binary names. -/
  classByJvm : String → Option α
  intSym : α
  byteSym : α
  shortSym : α
  longSym : α
  floatSym : α
  doubleSym : α
  charSym : α
  booleanSym : α
  unitSym : α
  stringSym : α
  anySym : α
  anyrefSym : α
  anyvalSym : α
  arraySym : α
  graphGen : UInt64

/-- The answers of the forms that are looked up in scopes or chase bounds. -/
abbrev Scopes (α : Type u) := Ty α → Option α

namespace Graph

variable (g : Graph α) (scopes : Scopes α)

def functionClassForm : Ty α → Option (Ty α)
  | .function params ret =>
    (g.classByJvm ("scala/Function" ++ toString params.length)).map fun sym =>
      .cls sym (params ++ [ret])
  | _ => none

def classSymOf : Ty α → Option α
  | .cls sym _ | .moduleRef sym | .thisType sym => some sym
  | .int => some g.intSym
  | .byte => some g.byteSym
  | .short => some g.shortSym
  | .long => some g.longSym
  | .float => some g.floatSym
  | .double => some g.doubleSym
  | .char => some g.charSym
  | .boolean => some g.booleanSym
  | .unit => some g.unitSym
  | .string => some g.stringSym
  | .any => some g.anySym
  | .anyRef | .javaObject | .null => some g.anyrefSym
  | .anyVal => some g.anyvalSym
  | .array _ => some g.arraySym
  | .function _ _ | .nothing => none
  | .annotated tpe _ => classSymOf tpe
  -- a fully applied type lambda is the class its body names
  | .applied (.typeMember sym) args => scopes (.applied (.typeMember sym) args)
  | .applied ctor _ => classSymOf ctor
  | .refined parents => ((parents.map classSymOf).findSome? id).or (some g.anyrefSym)
  | t => scopes t

def table : SymbolTable α where
  get := g.symbols
  functionClassForm := g.functionClassForm
  classSymOf := g.classSymOf scopes
  graphGen := g.graphGen.toNat

/-- The class that a parent clause stands for. -/
def parentClass (p : Ty α) : Option α := g.classSymOf scopes ((g.functionClassForm p).getD p)

variable {g} {scopes}

theorem classSymOf_applied {ctor : Ty α} (h : parentNamesItsClass ctor = true) (args : List (Ty α)) :
    g.classSymOf scopes (.applied ctor args) = g.classSymOf scopes ctor := by
  cases ctor with
  | typeMember sym => simp only [parentNamesItsClass, Bool.false_eq_true] at h
  | _ => simp only [classSymOf]

/-- A clause that names its class outright does not read the scopes. -/
theorem classSymOf_named {t : Ty α} (h : parentNamesItsClass t = true) (scopes' : Scopes α) :
    g.classSymOf scopes' t = g.classSymOf scopes t := by
  fun_induction parentNamesItsClass t
  case case22 tpe annot ih =>
    simp only [classSymOf]
    exact ih h
  case case23 ctor args ih =>
    rw [classSymOf_applied h, classSymOf_applied h]
    exact ih h
  case case24 parents ih =>
    have hmap : parents.map (g.classSymOf scopes') = parents.map (g.classSymOf scopes) := by
      apply List.map_congr_left
      intro p hp
      apply ih p hp
      exact List.all_eq_true.mp h _ (List.mem_map_of_mem hp)
    simp only [classSymOf, hmap]
  case case25 => cases h
  all_goals simp only [classSymOf]

theorem functionClassForm_named {p q : Ty α} (h : parentNamesItsClass p = true)
    (hq : g.functionClassForm p = some q) : parentNamesItsClass q = true := by
  cases p with
  | function params ret =>
    obtain ⟨sym, -, rfl⟩ := Option.map_eq_some_iff.mp hq
    simp only [parentNamesItsClass]
  | _ => cases hq

theorem parentClass_named {p : Ty α} (h : parentNamesItsClass p = true) (scopes' : Scopes α) :
    g.parentClass scopes' p = g.parentClass scopes p := by
  unfold parentClass
  cases hform : g.functionClassForm p with
  | none => exact classSymOf_named h scopes'
  | some q => exact classSymOf_named (functionClassForm_named h hform) scopes'

theorem parentsOf_table (c : α) :
    (g.table scopes).parentsOf c =
      ((g.symbols c).parents.filterMap (g.parentClass scopes)).filter
        fun p => !(g.table scopes).skipParent p := rfl

variable [DecidableEq α]

/-- A new symbol has no parents yet, and its binary name is its own unless another class
has it. -/
def alloc (g : Graph α) (sym : α) (name : String) (jvmName : Option String) : Graph α :=
  { g with
    symbols := Function.update g.symbols sym ⟨name, []⟩
    classByJvm := fun jvm =>
      if jvmName = some jvm then (g.classByJvm jvm).or (some sym) else g.classByJvm jvm }

/-- Nothing names the symbol so far. -/
structure Fresh (g : Graph α) (scopes : Scopes α) (sym : α) : Prop where
  parents : (g.symbols sym).parents = []
  unnamed : ∀ c, ∀ p ∈ (g.symbols c).parents, g.parentClass scopes p ≠ some sym

/-- The classes of function types that get a class with this name have one already. -/
def FunctionsLoaded (g : Graph α) (jvmName : Option String) : Prop :=
  ∀ n : ℕ, jvmName = some ("scala/Function" ++ toString n) →
    (g.classByJvm ("scala/Function" ++ toString n)).isSome

variable {sym : α} {name : String} {jvmName : Option String}

theorem functionClassForm_alloc (hloaded : g.FunctionsLoaded jvmName) (p : Ty α) :
    (g.alloc sym name jvmName).functionClassForm p = g.functionClassForm p := by
  cases p with
  | function params ret =>
    simp only [functionClassForm, alloc]
    split
    · next hname =>
      obtain ⟨sym, hsym⟩ := Option.isSome_iff_exists.mp (hloaded _ hname)
      rw [hsym, Option.some_or]
    · rfl
  | _ => rfl

theorem classSymOf_alloc (t : Ty α) :
    (g.alloc sym name jvmName).classSymOf scopes t = g.classSymOf scopes t := by
  fun_induction g.classSymOf scopes t
  case case25 parents ih =>
    simp only [classSymOf, List.map_congr_left ih]
    rfl
  all_goals simp_all only [classSymOf, alloc]

theorem symbols_alloc_of_ne {c : α} (hc : c ≠ sym) :
    (g.alloc sym name jvmName).symbols c = g.symbols c := Function.update_of_ne hc _ _

theorem parents_alloc (hfresh : g.Fresh scopes sym) (c : α) :
    ((g.alloc sym name jvmName).symbols c).parents = (g.symbols c).parents := by
  by_cases hc : c = sym
  · rw [hc, hfresh.parents]
    simp only [alloc, Function.update_self]
  · rw [symbols_alloc_of_ne hc]

theorem parentsOf_alloc (hfresh : g.Fresh scopes sym) (hloaded : g.FunctionsLoaded jvmName)
    (c : α) :
    ((g.alloc sym name jvmName).table scopes).parentsOf c = (g.table scopes).parentsOf c := by
  have hclass : (g.alloc sym name jvmName).parentClass scopes = g.parentClass scopes := by
    funext p
    simp only [parentClass, functionClassForm_alloc hloaded, classSymOf_alloc]
  rw [parentsOf_table, parentsOf_table, parents_alloc hfresh, hclass]
  apply List.filter_congr
  intro p hp
  obtain ⟨t, ht, hp⟩ := List.mem_filterMap.mp hp
  have hne : p ≠ sym := by
    rintro rfl
    exact hfresh.unnamed c t ht hp
  simp only [SymbolTable.skipParent, table, symbols_alloc_of_ne hne]
  rfl

end Graph

/-! ## Changes that a settled linearization does not see -/

namespace SymbolTable

variable {st st' : SymbolTable α}

/-- No class below `c` has a parent clause that is looked up in the scopes. -/
def Named (st : SymbolTable α) (c : α) : Prop :=
  ∀ x, st.Reachable c x → st.hasUnresolvedParent x = false

theorem Named.parent {c p : α} (h : st.Named c) (hp : p ∈ st.parentsOf c) : st.Named p :=
  fun x hx => h x (hx.head hp)

structure Quiet (st st' : SymbolTable α) : Prop where
  graphGen : st'.graphGen = st.graphGen
  parents : ∀ c, st.hasUnresolvedParent c = false → st'.parentsOf c = st.parentsOf c
  unresolved : ∀ c, st'.hasUnresolvedParent c = st.hasUnresolvedParent c

theorem quiet_scopes (g : Graph α) (scopes scopes' : Scopes α) :
    Quiet (g.table scopes) (g.table scopes') where
  graphGen := rfl
  parents := by
    intro c hc
    rw [Graph.parentsOf_table, Graph.parentsOf_table]
    congr 1
    apply List.filterMap_congr
    intro p hp
    apply Graph.parentClass_named
    simpa using List.any_eq_false.mp hc p hp
  unresolved := fun _ => rfl

theorem quiet_alloc [DecidableEq α] {g : Graph α} {scopes : Scopes α} {sym : α} {name : String}
    {jvmName : Option String} (hfresh : g.Fresh scopes sym)
    (hloaded : g.FunctionsLoaded jvmName) :
    Quiet (g.table scopes) ((g.alloc sym name jvmName).table scopes) where
  graphGen := rfl
  parents := fun c _ => Graph.parentsOf_alloc hfresh hloaded c
  unresolved := by
    intro c
    simp only [hasUnresolvedParent, Graph.table, Graph.parents_alloc hfresh]

theorem Quiet.reachable (h : Quiet st st') {c x : α} (hx : st'.Reachable c x)
    (hc : st.Named c) : st.Reachable c x := by
  induction hx using Relation.ReflTransGen.head_induction_on with
  | refl => exact .refl
  | head hp _ ih =>
    rw [Parent, h.parents _ (hc _ .refl)] at hp
    exact (ih (hc.parent hp)).head hp

theorem Quiet.named (h : Quiet st st') {c : α} (hc : st.Named c) : st'.Named c := by
  intro x hx
  rw [h.unresolved]
  exact hc x (h.reachable hx hc)

variable [DecidableEq α] [Fintype α]

theorem Quiet.pureLin (h : Quiet st st') {cls : α} (path : List α) (hc : st.Named cls) :
    st'.pureLin cls path = st.pureLin cls path := by
  fun_induction st.pureLin cls path with
  | case1 cls path hmem => rw [SymbolTable.pureLin, dif_pos hmem]
  | case2 cls path hmem ih =>
    rw [pureLin_notMem hmem, h.parents cls (hc cls .refl)]
    congr 1
    apply List.map_congr_left
    intro p hp
    exact ih p (hc.parent hp)

theorem Quiet.truncationCount (h : Quiet st st') {cls : α} (path : List α) (hc : st.Named cls) :
    st'.truncationCount cls path = st.truncationCount cls path := by
  fun_induction st.truncationCount cls path with
  | case1 cls path hmem => rw [truncationCount_mem hmem]
  | case2 cls path hmem ih =>
    rw [truncationCount_notMem hmem, h.parents cls (hc cls .refl)]
    congr 1
    apply List.map_congr_left
    intro p hp
    exact ih p (hc.parent hp)

theorem Quiet.acyclicFrom (h : Quiet st st') {c : α} (hc : st.Named c)
    (hacyclic : st.AcyclicFrom c) : st'.AcyclicFrom c := by
  have hzero : st'.truncationCount c [] = 0 := by
    rw [h.truncationCount [] hc]
    exact Chain.truncationCount_eq_zero (by simp [Chain]) hacyclic
  exact ((truncationCount_eq_zero c []).mp hzero).1

/-- A table that remembers only what quiet changes leave right. -/
structure Lasting (st : SymbolTable α) (m : Linearizations α) : Prop where
  settled : st.Settled m
  named : ∀ c v, m c = some v → st.Named c

theorem Quiet.lasting (h : Quiet st st') {m : Linearizations α} (hm : st.Lasting m) :
    st'.Lasting m where
  settled := by
    intro c v hv
    obtain ⟨hacyclic, rfl⟩ := hm.settled c v hv
    have hc := hm.named c _ hv
    exact ⟨h.acyclicFrom hc hacyclic, (h.pureLin [] hc).symm⟩
  named := fun c v hv => h.named (hm.named c v hv)

end SymbolTable
end ScalaRs.Linearization
