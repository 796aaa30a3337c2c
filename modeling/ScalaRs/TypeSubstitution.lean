import Mathlib.Data.List.AList
import ScalaRs.SigTypes

/-! # Substitution in types

The names of type parameters are replaced by types. A binder whose name is mentioned in the
replacements gets a fresh one. Every function that calls itself has fuel. -/
namespace ScalaRs.SigTypes

/-- A `HashMap` from names to types. -/
abbrev Subst := AList fun _ : Name => SigType

def Subst.isEmpty (map : Subst) : Bool := map.entries.isEmpty

def Subst.values (map : Subst) : List SigType := map.entries.map fun e => e.2

/-- The types below that `bare_names` looks into: not the prefixes of members. -/
def SigKind.mentioned {ν τ : Type} : SigKind ν τ → List τ
  | .refined parents decls => parents ++ decls.map (·.ty)
  | kind => kind.children

theorem SigKind.mem_children_of_mentioned {ν τ : Type} {kind : SigKind ν τ} {c : τ}
    (h : c ∈ kind.mentioned) : c ∈ kind.children := by
  cases kind with
  | refined parents decls =>
      rcases List.mem_append.1 h with h | h
      · exact List.mem_append_left _ h
      · obtain ⟨d, hd, rfl⟩ := List.mem_map.1 h
        exact List.mem_append_right _ (List.mem_flatMap.2 ⟨d, hd, List.mem_cons_self⟩)
  | _ => exact h

/-- The name of a reference, if it is not dotted. -/
def SigKind.bareName {τ : Type} : SigKind Name τ → List Name
  | .ref sym _ => if '.' ∈ sym then [] else [sym]
  | _ => []

/-- Every undotted name that a type mentions. -/
def bareNames : SigType → List Name
  | .mk kind => kind.bareName ++ kind.mentioned.attach.flatMap fun c => bareNames c.1
  termination_by t => sizeOf t
  decreasing_by
    have hlt := sizeOf_lt_of_mem_children (SigKind.mem_children_of_mentioned c.2)
    simp only [SigType.mk.sizeOf_spec]
    omega

/-- `{name}${n}` -/
def suffixed (name : Name) (n : ℕ) : Name := name ++ '$' :: Nat.toDigits 10 n

attribute [local instance] lawfulNames

/-- The first of the suffixed names from `k` on that is not taken. -/
def freshName (taken : List Name) (name : Name) : ℕ → ℕ → Option Name
  | 0, _ => none
  | n + 1, k =>
      if suffixed name k ∈ taken then freshName taken name n (k + 1) else some (suffixed name k)

def without (map : Subst) (bound : List (TParam SigType)) : Subst :=
  bound.foldl (fun m tp => m.erase tp.name) map

/-- One binder: it is renamed if its name is free in the replacements. -/
def renameBinder (n : ℕ) (free names : List Name) (acc : List (TParam SigType) × Subst)
    (tp : TParam SigType) : Option (List (TParam SigType) × Subst) :=
  if tp.name ∈ free then do
    let fresh ← freshName (free ++ names) tp.name n 1
    some (acc.1 ++ [⟨fresh, tp.bounds, tp.variance⟩], acc.2.insert tp.name (.ref fresh []))
  else some (acc.1 ++ [tp], acc.2)

/-- Rename the binders whose names are free in the range of the map, where `apply` is
`apply_subst`. -/
def avoidCapture (apply : SigType → Subst → Option SigType) (n : ℕ)
    (tparams : List (TParam SigType)) (result : SigType) (map : Subst) :
    Option (List (TParam SigType) × SigType) :=
  if map.isEmpty then some (tparams, result)
  else do
    let free := map.values.flatMap bareNames
    let (out, rename) ← tparams.foldlM (renameBinder n free (tparams.map (·.name))) ([], ∅)
    if rename.isEmpty then some (out, result)
    else do
      let out ← out.mapM (TParam.traverse fun t => apply t rename)
      let result ← apply result rename
      some (out, result)

/-- The parameters of a type lambda with its arguments. -/
def bindings (tparams : List (TParam SigType)) (args : List SigType) : Subst :=
  (tparams.zip args).foldl (fun m p => m.insert p.1.name p.2) ∅

/-- What `apply_subst` does to the parameters and the result of a binder. -/
def applyBinder (apply : SigType → Subst → Option SigType) (n : ℕ)
    (tparams : List (TParam SigType)) (result : SigType) (map : Subst) :
    Option (List (TParam SigType) × SigType) := do
  let inner := without map tparams
  let (tparams, result) ← avoidCapture apply n tparams result inner
  let tparams ← tparams.mapM (TParam.traverse fun t => apply t inner)
  let result ← apply result inner
  some (tparams, result)

/-- Replace type-parameter references by name. -/
def applySubst : ℕ → SigType → Subst → Option SigType
  | 0, _, _ => none
  | n + 1, .mk kind, map =>
      if map.isEmpty then some (.mk kind)
      else
        match kind with
        | .ref sym args => do
            let args ← args.mapM fun a => applySubst n a map
            match map.lookup sym with
            | some (.mk (.ref sym' [])) => some (.ref sym' args)
            | some (.mk (.poly tparams result)) =>
                if args ≠ [] ∧ tparams.length = args.length then
                  applySubst n result (bindings tparams args)
                else if args = [] then some (.poly tparams result)
                else some (.ref sym args)
            | some other => if args = [] then some other else some (.ref sym args)
            | none => some (.ref sym args)
        | .poly tparams result => do
            let (tparams, result) ← applyBinder (applySubst n) n tparams result map
            some (.mk (.poly tparams result))
        | .existential quantified result => do
            let (quantified, result) ← applyBinder (applySubst n) n quantified result map
            some (.mk (.existential quantified result))
        | kind => (kind.traverse fun t => applySubst n t map).map .mk

end ScalaRs.SigTypes
