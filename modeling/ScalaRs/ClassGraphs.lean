import Mathlib.Data.Fintype.Card
import Mathlib.Logic.Relation

/-! # The parent graph of a symbol table

Types keep the forms that the parent walk tells apart. How a type resolves to a
class reads scopes and projections of the table, which no query changes: it is a
field here. -/
namespace ScalaRs.Linearization

universe u

/-- `SymbolId`s are the elements of `α`. -/
inductive Ty (α : Type u) where
  | cls (sym : α) (args : List (Ty α))
  | moduleRef (sym : α)
  | thisType (sym : α)
  | function (params : List (Ty α)) (ret : Ty α)
  | array (elem : Ty α)
  | any | anyRef | anyVal | javaObject | null | nothing | unit | boolean | byte | short | int
  | long | float | double | char | string
  | annotated (tpe : Ty α) (annot : String)
  | applied (ctor : Ty α) (args : List (Ty α))
  | refined (parents : List (Ty α))
  | named (name : String) (args : List (Ty α))
  | tuple (elems : List (Ty α))
  | typeParam (sym : α)
  | typeMember (sym : α)
  | singleType (pre : Ty α) (sym : α)
  /-- The forms that are never a parent clause. -/
  | other

structure Symbol (α : Type u) where
  name : String
  parents : List (Ty α)

structure SymbolTable (α : Type u) where
  get : α → Symbol α
  functionClassForm : Ty α → Option (Ty α)
  classSymOf : Ty α → Option α
  /-- The mutation generation. -/
  graphGen : ℕ

variable {α : Type u}

/-- The parent clause names its class outright. -/
def parentNamesItsClass : Ty α → Bool
  | .cls _ _ | .moduleRef _ | .thisType _ | .function _ _ | .array _ | .any | .anyRef | .anyVal
  | .javaObject | .null | .nothing | .unit | .boolean | .byte | .short | .int | .long | .float
  | .double | .char | .string => true
  | .annotated tpe _ => parentNamesItsClass tpe
  | .applied ctor _ => parentNamesItsClass ctor
  | .refined parents => (parents.map parentNamesItsClass).all id
  | _ => false

namespace SymbolTable

variable (st : SymbolTable α)

def skipParent (p : α) : Bool := (st.get p).name ∈ ["Any", "AnyRef", "AnyVal", "Object"]

def parentsOf (cls : α) : List α :=
  ((st.get cls).parents.filterMap fun p =>
    st.classSymOf ((st.functionClassForm p).getD p)).filter fun p => !st.skipParent p

/-- The parent clauses of a class that do not name their class outright. -/
def hasUnresolvedParent (cls : α) : Bool :=
  (st.get cls).parents.any fun p => !parentNamesItsClass p

/-- `p` is a parent of `c`. -/
def Parent (c p : α) : Prop := p ∈ st.parentsOf c

/-- `a` is a proper ancestor of `c`. -/
def Ancestor : α → α → Prop := Relation.TransGen st.Parent

def Reachable : α → α → Prop := Relation.ReflTransGen st.Parent

/-- No cycle is reachable from `c`. -/
def AcyclicFrom (c : α) : Prop := ∀ x, st.Reachable c x → ¬ st.Ancestor x x

def Acyclic : Prop := ∀ x, ¬ st.Ancestor x x

variable {st}

theorem AcyclicFrom.parent {c p : α} (h : st.AcyclicFrom c) (hp : p ∈ st.parentsOf c) :
    st.AcyclicFrom p := fun x hx => h x (hx.head hp)

theorem Acyclic.from (h : st.Acyclic) (c : α) : st.AcyclicFrom c := fun x _ => h x

theorem reachable_iff {c x : α} :
    st.Reachable c x ↔ x = c ∨ ∃ p ∈ st.parentsOf c, st.Reachable p x := by
  rw [Reachable, Relation.ReflTransGen.cases_head_iff]
  exact or_congr eq_comm Iff.rfl

theorem ancestor_iff {c x : α} : st.Ancestor c x ↔ ∃ p ∈ st.parentsOf c, st.Reachable p x :=
  Relation.TransGen.head'_iff

/-- Every class on the path has the class as a proper ancestor. -/
def Chain (st : SymbolTable α) (path : List α) (cls : α) : Prop := ∀ x ∈ path, st.Ancestor x cls

theorem Chain.concat {path : List α} {cls p : α} (hchain : st.Chain path cls)
    (hp : p ∈ st.parentsOf cls) : st.Chain (path ++ [cls]) p := by
  intro x hx
  rcases List.mem_append.mp hx with hx | hx
  · exact (hchain x hx).tail hp
  · rw [List.mem_singleton.mp hx]
    exact .single hp

theorem acyclic_of_rank (rank : α → ℕ) (h : ∀ c, ∀ p ∈ st.parentsOf c, rank p < rank c) :
    st.Acyclic := by
  have hlt : ∀ {x y}, st.Ancestor x y → rank y < rank x := by
    intro x y hxy
    induction hxy with
    | single hp => exact h x _ hp
    | tail _ hp ih => exact (h _ _ hp).trans ih
  exact fun x hx => lt_irrefl _ (hlt hx)

/-- A table whose classes name the given parents outright. -/
def ofParents (parents : α → List α) : SymbolTable α where
  get c := ⟨"C", (parents c).map fun p => .cls p []⟩
  functionClassForm _ := none
  classSymOf
    | .cls sym _ => some sym
    | _ => none
  graphGen := 0

theorem parentsOf_ofParents (parents : α → List α) (c : α) :
    (ofParents parents).parentsOf c = parents c := by
  simp [parentsOf, ofParents, skipParent, List.filterMap_map]

theorem hasUnresolvedParent_ofParents (parents : α → List α) (c : α) :
    (ofParents parents).hasUnresolvedParent c = false := by
  simp [hasUnresolvedParent, ofParents, parentNamesItsClass]

end SymbolTable
end ScalaRs.Linearization
