import ScalaRs.ClassGraphs
import ScalaRs.ReplacingConcatenation

/-! # The linearization walk, with its path, its memo and the published cache

Both counters are `u32`s: they wrap in a release build, and a build with
overflow checks panics where they do. -/
namespace ScalaRs.Linearization
open ReplacingConcatenation

universe u

variable {α : Type u} [DecidableEq α]

/-- A hash map from classes to linearizations. -/
abbrev Linearizations (α : Type u) := α → Option (List α)

def Linearizations.insert (m : Linearizations α) (c : α) (v : List α) : Linearizations α :=
  Function.update m c (some v)

/-- What a walk carries besides its path. -/
structure Lin (α : Type u) where
  memo : Linearizations α
  truncations : UInt32
  unresolved : UInt32

/-- The cache kept on the symbol table, valid for one mutation generation. -/
structure LinCache (α : Type u) where
  gen : ℕ
  map : Linearizations α

namespace SymbolTable

variable (st : SymbolTable α)

def cachedLinearization (cache : LinCache α) (cls : α) : Option (List α) :=
  if cache.gen ≠ st.graphGen then none else cache.map cls

/-- Entries already published are kept. -/
def publishLinearizations [Fintype α] (cache : LinCache α) (entries : Linearizations α) :
    LinCache α :=
  if ∀ c, entries c = none then cache
  else
    let map := if cache.gen ≠ st.graphGen then fun _ => none else cache.map
    ⟨st.graphGen, fun c => (map c).or (entries c)⟩

/-- The classes a walk along this path has not entered yet. -/
def offPath [Fintype α] (path : List α) : ℕ := (Finset.univ.filter (· ∉ path)).card

theorem offPath_concat [Fintype α] {path : List α} {cls : α} (h : cls ∉ path) :
    offPath (path ++ [cls]) < offPath path := by
  apply Finset.card_lt_card
  refine ⟨fun x hx => ?_, fun hsub => ?_⟩
  · simp only [Finset.mem_filter, Finset.mem_univ, true_and, List.mem_append, not_or] at hx ⊢
    exact hx.1
  · have hmem := hsub (Finset.mem_filter.mpr ⟨Finset.mem_univ cls, h⟩)
    simp at hmem

/-- The linearization of `cls` from those of its parents. -/
def headed (cls : α) (lins : List (List α)) : List α :=
  cls :: (foldReplacing lins).filter (· ≠ cls)

theorem nodup_headed (cls : α) {lins : List (List α)} (h : ∀ l ∈ lins, l.Nodup) :
    (headed cls lins).Nodup := by
  apply List.nodup_cons.mpr ⟨by simp, (nodup_foldReplacing h).filter _⟩

variable (cache : LinCache α)

mutual
def lin [Fintype α] (cls : α) (path : List α) (w : Lin α) : List α × Lin α :=
  match w.memo cls with
  | some v => (v, w)
  | none =>
    match st.cachedLinearization cache cls with
    | some v => (v, { w with memo := w.memo.insert cls v })
    | none =>
      if _h : cls ∈ path then
        ([cls], { w with truncations := w.truncations + 1 })
      else
        let start := if st.hasUnresolvedParent cls then
          { w with unresolved := w.unresolved + 1 } else w
        let (lins, after) := linAll (st.parentsOf cls) (path ++ [cls]) start
        let out := headed cls lins
        if (after.truncations, after.unresolved) = (w.truncations, w.unresolved) then
          (out, { after with memo := after.memo.insert cls out })
        else (out, after)
termination_by (offPath path, 0)
decreasing_by exact Prod.Lex.left _ _ (offPath_concat _h)

/-- The walks of the parents, in source order. -/
def linAll [Fintype α] (parents : List α) (path : List α) (w : Lin α) : List (List α) × Lin α :=
  match parents with
  | [] => ([], w)
  | p :: parents =>
    let (l, w) := lin p path w
    let (ls, w) := linAll parents path w
    (l :: ls, w)
termination_by (offPath path, parents.length + 1)
end

variable [Fintype α]

/-- The linearization, whether it may be remembered, and the cache afterwards. -/
def linearizeSettled (cls : α) : (List α × Bool) × LinCache α :=
  match st.cachedLinearization cache cls with
  | some v => ((v, true), cache)
  | none =>
    let (out, walk) := st.lin cache cls [] ⟨fun _ => none, 0, 0⟩
    ((out, (walk.memo cls).isSome), st.publishLinearizations cache walk.memo)

def linearize (cls : α) : List α × LinCache α :=
  let (answer, cache) := st.linearizeSettled cache cls
  (answer.1, cache)

/-- The answers of a sequence of queries, and the cache after them. -/
def linearizeQueries : LinCache α → List α → List (List α) × LinCache α
  | cache, [] => ([], cache)
  | cache, cls :: queries =>
    let (answer, cache) := st.linearize cache cls
    let (answers, cache) := linearizeQueries cache queries
    (answer :: answers, cache)

end SymbolTable
end ScalaRs.Linearization
