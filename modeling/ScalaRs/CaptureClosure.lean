import ScalaRs.CompilerTrees
import ScalaRs.GrowingFamilies
import ScalaRs.WhileLoops

/-! # The captures of lifted defs

A def that calls another lifted def gets the captures of that def, except those that it binds
itself. -/
namespace ScalaRs.LambdaLift
open CompilerTrees GrowingFamilies WhileLoops
open Unification (SymbolId)

def childTrees (t : Tree) : List Tree :=
  match t.kind with
  | .packageDef pid stats => pid :: stats
  | .classDef _ tparams vparamss impl => tparams ++ vparamss.flatten ++ impl.parents ++ impl.body
  | .moduleDef _ impl => impl.parents ++ impl.body
  | .valDef _ tpt rhs => [tpt, rhs]
  | .defDef _ tparams vparamss tpt rhs => tparams ++ vparamss.flatten ++ [tpt, rhs]
  | .block stats expr => stats ++ [expr]
  | .ifElse cond thenp elsep => [cond, thenp, elsep]
  | .matchOn selector cases => selector :: cases.flatMap CaseDef.trees
  | .function vparams body => vparams ++ [body]
  | .assign lhs rhs => [lhs, rhs]
  | .whileLoop cond body | .doWhile body cond => [cond, body]
  | .returnValue expr | .throw expr => [expr]
  | .tryCatch body catches finalizer => body :: (catches.flatMap CaseDef.trees ++ [finalizer])
  | .new tpt => [tpt]
  | .typed expr tpt => [expr, tpt]
  | .typeApply func args | .apply func args | .unApply func args => func :: args
  | .select qual _ => [qual]
  | .bind _ body => [body]
  | .star elem => [elem]
  | .alternative trees => trees
  | .labelDef _ params rhs => params ++ [rhs]
  | .interpolatedString _ _ args => args
  | _ => []

theorem mem_trees_of_mem_childTrees {t c : Tree} (h : c ∈ childTrees t) : c ∈ t.kind.trees := by
  cases t with
  | mk info kind =>
      cases kind <;>
        simp only [childTrees, Tree.kind, TreeKind.trees, List.mem_append, List.mem_cons,
          List.not_mem_nil] at h ⊢ <;> grind

theorem sizeOf_childTrees {t c : Tree} (h : c ∈ childTrees t) : sizeOf c < sizeOf t :=
  Tree.sizeOf_lt_of_mem (mem_trees_of_mem_childTrees h)

/-- A node that introduces its symbol. -/
def introduces (t : Tree) : Bool :=
  match t.kind with
  | .valDef .. | .defDef .. | .classDef .. | .moduleDef .. | .bind .. | .labelDef .. =>
      t.sym != noSymbol
  | _ => false

/-- Every symbol `tree` introduces below its own head. -/
def collectBound (t : Tree) (out : Finset SymbolId) : Finset SymbolId :=
  (childTrees t).attach.foldl (fun out c => collectBound c.1 out)
    (if introduces t then insert t.sym out else out)
termination_by sizeOf t
decreasing_by exact sizeOf_childTrees c.2

/-- Hoisted defs named anywhere below `tree`. -/
def collectCallees (known : List SymbolId) (t : Tree) (out : List SymbolId) : List SymbolId :=
  (childTrees t).attach.foldl (fun out c => collectCallees known c.1 out)
    (if t.sym != noSymbol && known.contains t.sym && !out.contains t.sym then out ++ [t.sym]
    else out)
termination_by sizeOf t
decreasing_by exact sizeOf_childTrees c.2

abbrev CapMap := Family SymbolId SymbolId

def boundOf (params : SymbolId → List SymbolId) (d : Tree) : Finset SymbolId :=
  collectBound d (insert d.sym (params d.sym).toFinset)

def boundTable (params : SymbolId → List SymbolId) (nested : List Tree) :
    AList fun _ : SymbolId => Finset SymbolId :=
  nested.foldl (fun bound d =>
    if d.sym = noSymbol then bound else bound.insert d.sym (boundOf params d)) ∅

def calleeTable (known : List SymbolId) (nested : List Tree) :
    AList fun _ : SymbolId => List SymbolId :=
  nested.foldl (fun callees d =>
    if d.sym = noSymbol then callees else callees.insert d.sym (collectCallees known d [])) ∅

/-- One capture of a callee. Looking up what is not there fails. -/
def addCapture (bound : AList fun _ : SymbolId => Finset SymbolId) (capMap : CapMap)
    (d : SymbolId) (add : List SymbolId) (c : SymbolId) : Option (List SymbolId) := do
  let own ← bound.lookup d
  if c ∈ own then some add
  else
    let captures ← capMap.lookup d
    some (if captures.contains c || add.contains c then add else add ++ [c])

/-- What one def gets from the defs it calls. -/
def addFrom (bound : AList fun _ : SymbolId => Finset SymbolId)
    (callees : AList fun _ : SymbolId => List SymbolId) (capMap : CapMap) (d : SymbolId) :
    Option (List SymbolId) :=
  ((callees.lookup d).getD []).foldlM (fun add callee =>
    if callee = d then some add
    else (valuesAt capMap callee).foldlM (addCapture bound capMap d) add) []

/-- `cap_map.get_mut(&d.sym).expect("cap_map").extend(add)` -/
def extend (capMap : CapMap) (d : SymbolId) (add : List SymbolId) : Option CapMap := do
  let captures ← capMap.lookup d
  some (capMap.insert d (captures ++ add))

/-- One def in a pass, which keeps whether it has changed anything. -/
def closeDef (bound : AList fun _ : SymbolId => Finset SymbolId)
    (callees : AList fun _ : SymbolId => List SymbolId) (state : CapMap × Bool) (d : Tree) :
    Option (CapMap × Bool) :=
  if d.sym = noSymbol then some state
  else do
    let add ← addFrom bound callees state.1 d.sym
    if add.isEmpty then some state
    else do
      let capMap ← extend state.1 d.sym add
      some (capMap, true)

def closeBody (bound : AList fun _ : SymbolId => Finset SymbolId)
    (callees : AList fun _ : SymbolId => List SymbolId) (nested : List Tree)
    (capMap : CapMap) : Option (Step CapMap CapMap) := do
  let (capMap, changed) ← nested.foldlM (closeDef bound callees) (capMap, false)
  some (if changed then .next capMap else .done capMap)

/-- `close_over_callees`, with at most `fuel` passes. The parameters of a symbol are those of the
symbol table. -/
def closeOverCallees (params : SymbolId → List SymbolId) (nested : List Tree) (capMap : CapMap)
    (fuel : ℕ) : Option CapMap :=
  if capMap.keys.length < 2 then some capMap
  else run (closeBody (boundTable params nested) (calleeTable capMap.keys nested) nested)
    fuel capMap

/-! ## What is below a tree -/

/-- `u` is `t` or below it. -/
def Within (t u : Tree) : Prop := Relation.ReflTransGen (fun t c => c ∈ childTrees t) t u

theorem within_iff {t u : Tree} : Within t u ↔ u = t ∨ ∃ c ∈ childTrees t, Within c u := by
  constructor
  · intro h
    rcases Relation.ReflTransGen.cases_head h with heq | ⟨c, hc, h⟩
    · exact .inl heq.symm
    · exact .inr ⟨c, hc, h⟩
  · rintro (rfl | ⟨c, hc, h⟩)
    · exact .refl
    · exact .head hc h

theorem childInduction {P : Tree → Prop} (step : ∀ t, (∀ c ∈ childTrees t, P c) → P t)
    (t : Tree) : P t :=
  Tree.induction (fun t ih => step t fun c hc => ih c (mem_trees_of_mem_childTrees hc)) t

theorem collectBound_eq (t : Tree) (out : Finset SymbolId) :
    collectBound t out = (childTrees t).foldl (fun out c => collectBound c out)
      (if introduces t then insert t.sym out else out) := by
  rw [collectBound]
  exact List.foldl_attach (f := fun out c => collectBound c out)

theorem collectCallees_eq (known : List SymbolId) (t : Tree) (out : List SymbolId) :
    collectCallees known t out = (childTrees t).foldl (fun out c => collectCallees known c out)
      (if t.sym != noSymbol && known.contains t.sym && !out.contains t.sym then out ++ [t.sym]
      else out) := by
  rw [collectCallees]
  exact List.foldl_attach (f := fun out c => collectCallees known c out)

/-- A collection that goes on below each node collects what is found within. -/
theorem mem_collect {β : Type} {collect head : Tree → β → β} (mem : β → Prop)
    {here : Tree → Prop}
    (hcollect : ∀ t out, collect t out =
      (childTrees t).foldl (fun out c => collect c out) (head t out))
    (hhead : ∀ t out, mem (head t out) ↔ mem out ∨ here t) (t : Tree) (out : β) :
    mem (collect t out) ↔ mem out ∨ ∃ u, Within t u ∧ here u := by
  induction t using childInduction generalizing out with
  | step t ih =>
      have hfold (ts : List Tree) (hts : ∀ c ∈ ts, c ∈ childTrees t) (out : β) :
          mem (ts.foldl (fun out c => collect c out) out) ↔
            mem out ∨ ∃ c ∈ ts, ∃ u, Within c u ∧ here u := by
        induction ts generalizing out with
        | nil => simp
        | cons c ts ihts =>
            rw [List.foldl_cons, ihts fun d hd => hts d (List.mem_cons_of_mem _ hd),
              ih c (hts c List.mem_cons_self), or_assoc]
            simp
      rw [hcollect, hfold _ fun _ h => h, hhead, or_assoc]
      apply or_congr_right
      constructor
      · rintro (h | ⟨c, hc, u, hu, h⟩)
        · exact ⟨t, .refl, h⟩
        · exact ⟨u, within_iff.2 (.inr ⟨c, hc, hu⟩), h⟩
      · rintro ⟨u, hu, h⟩
        rcases within_iff.1 hu with rfl | ⟨c, hc, hu⟩
        · exact .inl h
        · exact .inr ⟨c, hc, u, hu, h⟩

theorem mem_collectBound {t : Tree} {out : Finset SymbolId} {c : SymbolId} :
    c ∈ collectBound t out ↔ c ∈ out ∨ ∃ u, Within t u ∧ introduces u = true ∧ u.sym = c := by
  apply mem_collect (fun out => c ∈ out) collectBound_eq
  intro t out
  split
  · rename_i h
    rw [Finset.mem_insert]
    simp [h, or_comm, eq_comm]
  · rename_i h
    simp [h]

theorem mem_collectCallees {known : List SymbolId} {t : Tree} {out : List SymbolId}
    {f : SymbolId} : f ∈ collectCallees known t out ↔
      f ∈ out ∨ ∃ u, Within t u ∧ f ≠ noSymbol ∧ f ∈ known ∧ u.sym = f := by
  apply mem_collect (fun out => f ∈ out) (collectCallees_eq known)
  intro t out
  by_cases hf : t.sym = f
  · subst hf
    split <;> grind
  · split <;> simp [hf, Ne.symm hf]

/-! ## The tables -/

/-- The def of a symbol: the last one, if there are several. -/
def defOf (nested : List Tree) (s : SymbolId) : Option Tree :=
  nested.reverse.find? fun d => d.sym = s

theorem lookup_foldl_insert {β : Type} (value : Tree → β) {s : SymbolId} (hs : s ≠ noSymbol)
    (nested : List Tree) : (nested.foldl (fun m d =>
      if d.sym = noSymbol then m else m.insert d.sym (value d))
        (∅ : AList fun _ : SymbolId => β)).lookup s = (defOf nested s).map value := by
  induction nested using List.reverseRecOn with
  | nil => simp [defOf]
  | append_singleton nested d ih =>
      rw [List.foldl_append, List.foldl_cons, List.foldl_nil, defOf, List.reverse_append]
      by_cases hd : d.sym = s
      · subst hd
        simp [hs]
      · split
        · rw [ih]
          simp [hd, defOf]
        · rw [AList.lookup_insert_ne (Ne.symm hd), ih]
          simp [hd, defOf]

theorem defOf_mem {nested : List Tree} {s : SymbolId} {d : Tree} (h : defOf nested s = some d) :
    d ∈ nested ∧ d.sym = s :=
  ⟨List.mem_reverse.1 (List.mem_of_find?_eq_some h), by simpa using List.find?_some h⟩

theorem defOf_of_mem {nested : List Tree} {d : Tree} (h : d ∈ nested) :
    ∃ d', defOf nested d.sym = some d' := by
  apply Option.isSome_iff_exists.1
  rw [defOf, List.find?_isSome]
  exact ⟨d, List.mem_reverse.2 h, by simp⟩

/-! ## What is passed on -/

/-- The def binds the symbol itself. -/
def Binds (params : SymbolId → List SymbolId) (d : Tree) (c : SymbolId) : Prop :=
  c = d.sym ∨ c ∈ params d.sym ∨ ∃ u, Within d u ∧ introduces u = true ∧ u.sym = c

/-- The def names the other lifted def. -/
def Names (first : CapMap) (d : Tree) (f : SymbolId) : Prop :=
  f ∈ first ∧ f ≠ noSymbol ∧ f ≠ d.sym ∧ ∃ u, Within d u ∧ u.sym = f

/-- The def of a symbol gets a capture of another one. -/
def Passes (params : SymbolId → List SymbolId) (nested : List Tree) (first : CapMap)
    (s f c : SymbolId) : Prop :=
  s ≠ noSymbol ∧ ∃ d, defOf nested s = some d ∧ Names first d f ∧ ¬Binds params d c

theorem mem_boundOf {params : SymbolId → List SymbolId} {d : Tree} {c : SymbolId} :
    c ∈ boundOf params d ↔ Binds params d c := by
  rw [boundOf, mem_collectBound, Finset.mem_insert, List.mem_toFinset, or_assoc]
  rfl

section
variable {params : SymbolId → List SymbolId} {nested : List Tree} {first capMap : CapMap}

theorem addCapture_eq {bound : AList fun _ : SymbolId => Finset SymbolId} {d : SymbolId}
    {own : Finset SymbolId} (hbound : bound.lookup d = some own) (hmem : d ∈ capMap)
    (add : List SymbolId) (c : SymbolId) : addCapture bound capMap d add c =
      some (if decide (c ∉ own ∧ c ∉ valuesAt capMap d) && !add.contains c then add ++ [c]
        else add) := by
  simp only [addCapture, hbound, lookup_eq_valuesAt hmem, Option.bind_eq_bind, Option.bind_some]
  split
  · rename_i hown
    simp [hown]
  · rename_i hown
    simp only [hown, not_false_eq_true, true_and]
    congr 1
    grind

theorem foldlM_some {α β : Type} {f : β → α → Option β} {g : β → α → β}
    (h : ∀ b a, f b a = some (g b a)) (xs : List α) (b : β) :
    xs.foldlM f b = some (xs.foldl g b) := by
  induction xs generalizing b with
  | nil => rfl
  | cons a xs ih =>
      rw [List.foldlM_cons, h, Option.bind_eq_bind, Option.bind_some, ih]
      rfl

/-- What a def gets: the captures of the defs it calls that it neither binds nor has. -/
theorem addFrom_eq {bound : AList fun _ : SymbolId => Finset SymbolId}
    {callees : AList fun _ : SymbolId => List SymbolId} {d : SymbolId}
    {own : Finset SymbolId} {cs : List SymbolId} (hbound : bound.lookup d = some own)
    (hcallees : callees.lookup d = some cs) (hmem : d ∈ capMap) :
    addFrom bound callees capMap d =
      some (pushNew (fun c => decide (c ∉ own ∧ c ∉ valuesAt capMap d))
        ((cs.filter (· ≠ d)).flatMap (valuesAt capMap)) []) := by
  have hcallee (add : List SymbolId) (f : SymbolId) :
      (if f = d then some add
        else (valuesAt capMap f).foldlM (addCapture bound capMap d) add) =
      some (if f = d then add else
        pushNew (fun c => decide (c ∉ own ∧ c ∉ valuesAt capMap d)) (valuesAt capMap f) add) := by
    split
    · rfl
    · exact foldlM_some (addCapture_eq hbound hmem) _ _
  rw [addFrom, hcallees, Option.getD_some, foldlM_some hcallee]
  congr 1
  clear hcallees
  generalize ([] : List SymbolId) = acc
  induction cs generalizing acc with
  | nil => rfl
  | cons f cs ih =>
      rw [List.foldl_cons, ih]
      by_cases hf : f = d
      · simp [hf]
      · simp [hf, pushNew]

/-- What a def gets in a pass. -/
structure Gets (params : SymbolId → List SymbolId) (nested : List Tree) (first capMap : CapMap)
    (s : SymbolId) (add : List SymbolId) : Prop where
  nodup : add.Nodup
  mem : ∀ c, c ∈ add ↔ c ∉ valuesAt capMap s ∧
    ∃ f, Passes params nested first s f c ∧ c ∈ valuesAt capMap f

theorem addFrom_spec {d : Tree} (hd : d ∈ nested) (hsym : d.sym ≠ noSymbol)
    (hmem : d.sym ∈ capMap) :
    ∃ add, addFrom (boundTable params nested) (calleeTable first.keys nested) capMap d.sym =
      some add ∧ Gets params nested first capMap d.sym add := by
  obtain ⟨d', hdef⟩ := defOf_of_mem hd
  have hsym' : d'.sym = d.sym := (defOf_mem hdef).2
  have hbound : (boundTable params nested).lookup d.sym = some (boundOf params d') := by
    rw [boundTable, lookup_foldl_insert (boundOf params) hsym, hdef]
    rfl
  have hcallees : (calleeTable first.keys nested).lookup d.sym =
      some (collectCallees first.keys d' []) := by
    rw [calleeTable, lookup_foldl_insert (fun d => collectCallees first.keys d []) hsym, hdef]
    rfl
  refine ⟨_, addFrom_eq hbound hcallees hmem, nodup_pushNew List.nodup_nil, fun c => ?_⟩
  have hnames (f : SymbolId) : f ∈ (collectCallees first.keys d' []).filter (· ≠ d.sym) ↔
      Names first d' f := by
    rw [List.mem_filter, mem_collectCallees, Names, hsym', AList.mem_keys]
    simp only [List.not_mem_nil, false_or, decide_eq_true_eq]
    constructor
    · rintro ⟨⟨u, hu, hf, hknown, heq⟩, hne⟩
      exact ⟨hknown, hf, hne, u, hu, heq⟩
    · rintro ⟨hknown, hf, hne, u, hu, heq⟩
      exact ⟨⟨u, hu, hf, hknown, heq⟩, hne⟩
  rw [mem_pushNew, List.mem_flatMap]
  simp only [List.not_mem_nil, false_or, hnames, decide_eq_true_eq, mem_boundOf]
  constructor
  · rintro ⟨⟨f, hf, hc⟩, hbinds, hnew⟩
    exact ⟨hnew, f, ⟨hsym, d', hdef, hf, hbinds⟩, hc⟩
  · rintro ⟨hnew, f, ⟨-, d'', hdef', hf, hbinds⟩, hc⟩
    rw [hdef, Option.some.injEq] at hdef'
    subst hdef'
    exact ⟨⟨f, hf, hc⟩, hbinds, hnew⟩

theorem Gets.addable {s : SymbolId} {add : List SymbolId}
    (h : Gets params nested first capMap s add) (hmem : s ∈ capMap) :
    Addable (Passes params nested first) capMap s add :=
  ⟨hmem, h.nodup, fun c hc => ((h.mem c).1 hc).1, fun c hc => ((h.mem c).1 hc).2⟩

/-! ## Passes -/

/-- What a pass over some of the defs does: it changes nothing, since there is nothing to add, or
there is less to add afterwards. -/
structure Pass (params : SymbolId → List SymbolId) (nested : List Tree) (first : CapMap)
    (ds : List Tree) (capMap : CapMap) (changed : Bool) (capMap' : CapMap) (changed' : Bool) :
    Prop where
  grown : Grown first (Passes params nested first) capMap'
  unchanged : changed' = false → changed = false ∧ capMap' = capMap ∧
    ∀ d ∈ ds, d.sym ≠ noSymbol → Gets params nested first capMap d.sym []
  missing : missing first capMap' ≤ missing first capMap
  missing_lt : changed = false → changed' = true → GrowingFamilies.missing first capMap' <
    GrowingFamilies.missing first capMap

theorem Pass.cons {d : Tree} {ds : List Tree} {capMap₁ capMap₂ capMap₃ : CapMap}
    {changed₁ changed₂ changed₃ : Bool}
    (h : Pass params nested first [d] capMap₁ changed₁ capMap₂ changed₂)
    (h' : Pass params nested first ds capMap₂ changed₂ capMap₃ changed₃) :
    Pass params nested first (d :: ds) capMap₁ changed₁ capMap₃ changed₃ := by
  refine ⟨h'.grown, fun hchanged => ?_, Nat.le_trans h'.missing h.missing, fun h₁ h₃ => ?_⟩
  · obtain ⟨h₂, rfl, hds⟩ := h'.unchanged hchanged
    obtain ⟨h₁, rfl, hd⟩ := h.unchanged h₂
    refine ⟨h₁, rfl, fun e he hsym => ?_⟩
    rcases List.mem_cons.1 he with rfl | he
    · exact hd e (List.mem_singleton_self e) hsym
    · exact hds e he hsym
  · cases hchanged : changed₂ with
    | false => exact Nat.lt_of_lt_of_le (h'.missing_lt hchanged h₃) h.missing
    | true => exact Nat.lt_of_le_of_lt h'.missing (h.missing_lt h₁ hchanged)

/-- A def that has all it gets makes the family closed at its symbol. -/
theorem closed_of_gets (hgrown : Grown first (Passes params nested first) capMap)
    (h : ∀ d ∈ nested, d.sym ≠ noSymbol → Gets params nested first capMap d.sym []) :
    Closed first (Passes params nested first) fun s => {c | c ∈ valuesAt capMap s} := by
  refine ⟨fun s c hc => (hgrown.stem s).subset hc, fun s f c hpass hc => ?_⟩
  obtain ⟨d, hdef, -⟩ := hpass.2
  obtain ⟨hd, hsym⟩ := defOf_mem hdef
  by_contra hnew
  have hgets := h d hd (hsym ▸ hpass.1)
  rw [hsym] at hgets
  exact absurd ((hgets.mem c).2 ⟨hnew, f, hpass, hc⟩) List.not_mem_nil

variable (hfirst : ∀ d ∈ nested, d.sym ≠ noSymbol → d.sym ∈ first)
include hfirst

/-- One def: what it gets, if there is something, is added to its captures. -/
theorem closeDef_spec {d : Tree} (hd : d ∈ nested)
    (hgrown : Grown first (Passes params nested first) capMap) (changed : Bool) :
    ∃ capMap' changed', closeDef (boundTable params nested) (calleeTable first.keys nested)
      (capMap, changed) d = some (capMap', changed') ∧
      Pass params nested first [d] capMap changed capMap' changed' := by
  unfold closeDef
  split
  · rename_i hsym
    refine ⟨capMap, changed, rfl, hgrown, fun h => ⟨h, rfl, ?_⟩, Nat.le_refl _, ?_⟩
    · intro d' hd' hsym'
      rw [List.mem_singleton.1 hd'] at hsym'
      exact absurd hsym hsym'
    · intro h h'
      rw [h] at h'
      cases h'
  · rename_i hsym
    have hmem : d.sym ∈ capMap := (hgrown.mem _).2 (hfirst d hd hsym)
    obtain ⟨add, hadd, hgets⟩ := @addFrom_spec params nested first capMap d hd hsym hmem
    simp only [hadd, Option.bind_eq_bind, Option.bind_some, List.isEmpty_iff]
    split
    · rename_i hempty
      subst hempty
      refine ⟨capMap, changed, rfl, hgrown, fun h => ⟨h, rfl, ?_⟩, Nat.le_refl _, ?_⟩
      · intro d' hd' _
        rw [List.mem_singleton.1 hd']
        exact hgets
      · intro h h'
        rw [h] at h'
        cases h'
    · rename_i hne
      have hlt := missing_grow_lt hgrown (hgets.addable hmem) hne
      refine ⟨grow capMap d.sym add, true, ?_, hgrown.grow (hgets.addable hmem), nofun,
        Nat.le_of_lt hlt, fun _ _ => hlt⟩
      simp [extend, lookup_eq_valuesAt hmem, grow]

/-- A pass over the defs. -/
theorem foldlM_closeDef_spec {ds : List Tree} (hds : ∀ d ∈ ds, d ∈ nested)
    (hgrown : Grown first (Passes params nested first) capMap) (changed : Bool) :
    ∃ capMap' changed', ds.foldlM (closeDef (boundTable params nested)
      (calleeTable first.keys nested)) (capMap, changed) = some (capMap', changed') ∧
      Pass params nested first ds capMap changed capMap' changed' := by
  induction ds generalizing capMap changed with
  | nil =>
      refine ⟨capMap, changed, rfl, hgrown, fun h => ⟨h, rfl, by simp⟩, Nat.le_refl _, ?_⟩
      intro h h'
      rw [h] at h'
      cases h'
  | cons d ds ih =>
      obtain ⟨capMap', changed', hdef, hpass⟩ :=
        closeDef_spec hfirst (hds d List.mem_cons_self) hgrown changed
      obtain ⟨capMap'', changed'', hfold, hpass'⟩ :=
        ih (fun e he => hds e (List.mem_cons_of_mem _ he)) hpass.grown changed'
      refine ⟨capMap'', changed'', ?_, hpass.cons hpass'⟩
      rw [List.foldlM_cons, hdef]
      exact hfold

end

/-- The lists of captures are closed, and they are the least that are; nothing is lost at the
front and nothing comes twice. -/
structure IsClosure (params : SymbolId → List SymbolId) (nested : List Tree)
    (first capMap : CapMap) : Prop where
  grown : Grown first (Passes params nested first) capMap
  closed : Closed first (Passes params nested first) fun s => {c | c ∈ valuesAt capMap s}

/-- With less than two defs there is nothing to pass on. -/
theorem closed_of_length_lt {params : SymbolId → List SymbolId} {nested : List Tree}
    {first : CapMap} (hfirst : ∀ d ∈ nested, d.sym ≠ noSymbol → d.sym ∈ first)
    (h : first.keys.length < 2) :
    Closed first (Passes params nested first) fun s => {c | c ∈ valuesAt first s} := by
  refine ⟨fun s c hc => hc, fun s f c hpass _ => ?_⟩
  obtain ⟨hs, d, hdef, ⟨hf, -, hne, -⟩, -⟩ := hpass
  obtain ⟨hd, hsym⟩ := defOf_mem hdef
  have hd' := hfirst d hd (hsym ▸ hs)
  rw [AList.mem_keys] at hf hd'
  match hkeys : first.keys, h with
  | [], _ => simp [hkeys] at hf
  | [k], _ =>
      rw [hkeys, List.mem_singleton] at hf hd'
      exact absurd (hf.trans hd'.symm) hne

/-- The captures are closed over the callees in finitely many passes. -/
theorem closeOverCallees_isClosure (params : SymbolId → List SymbolId) (nested : List Tree)
    (first : CapMap) (hfirst : ∀ d ∈ nested, d.sym ≠ noSymbol → d.sym ∈ first) :
    ∃ capMap fuel, (∀ n ≥ fuel, closeOverCallees params nested first n = some capMap) ∧
      IsClosure params nested first capMap := by
  by_cases hlength : first.keys.length < 2
  · refine ⟨first, 0, fun n _ => by rw [closeOverCallees, if_pos hlength], Grown.refl, ?_⟩
    exact closed_of_length_lt hfirst hlength
  · have hbody (capMap : CapMap) (hgrown : Grown first (Passes params nested first) capMap) :
        ∃ o, closeBody (boundTable params nested) (calleeTable first.keys nested) nested capMap =
          some o ∧ (∀ s, o = .next s → Grown first (Passes params nested first) s ∧
            missing first s < missing first capMap) ∧
          ∀ r, o = .done r → IsClosure params nested first r := by
      obtain ⟨capMap', changed, hfold, hpass⟩ :=
        foldlM_closeDef_spec hfirst (fun d hd => hd) hgrown false
      refine ⟨if changed then .next capMap' else .done capMap', ?_, fun s hs => ?_, fun r hr => ?_⟩
      · rw [closeBody, hfold]
        rfl
      · cases changed with
        | false => cases hs
        | true =>
            cases hs
            exact ⟨hpass.grown, hpass.missing_lt rfl rfl⟩
      · cases changed with
        | true => cases hr
        | false =>
            cases hr
            obtain ⟨-, rfl, hgets⟩ := hpass.unchanged rfl
            exact ⟨hpass.grown, closed_of_gets hpass.grown hgets⟩
    obtain ⟨capMap, hrun⟩ := run_terminates (missing first)
      (fun s hs => (hbody s hs).imp fun o ho => ⟨ho.1, ho.2.1⟩) Grown.refl
      (Nat.lt_succ_self (missing first first))
    refine ⟨capMap, missing first first + 1, fun n hn => ?_, ?_⟩
    · rw [closeOverCallees, if_neg hlength]
      exact run_mono hn hrun
    · apply invariant_of_run (I := Grown first (Passes params nested first)) _ _ Grown.refl hrun
      · intro s s' hs hnext
        obtain ⟨o, ho, hgrown, -⟩ := hbody s hs
        rw [ho, Option.some.injEq] at hnext
        exact (hgrown s' hnext).1
      · intro s r hs hdone
        obtain ⟨o, ho, -, hclosure⟩ := hbody s hs
        rw [ho, Option.some.injEq] at hdone
        exact hclosure r hdone

/-- Two defs that call each other. -/
def mutualDefs : List Tree :=
  [.mk { Info.dummy with sym := 1 } (.defDef "f" [] [] (.dummy .empty)
      (.mk { Info.dummy with sym := 2 } (.ident "g"))),
    .mk { Info.dummy with sym := 2 } (.defDef "g" [] [] (.dummy .empty)
      (.mk { Info.dummy with sym := 1 } (.ident "f")))]

/-- The first captures 7 and the other one 8. -/
def mutualCaptures : CapMap :=
  AList.insert (β := fun _ => List SymbolId) 1 [7]
    (AList.insert (β := fun _ => List SymbolId) 2 [8] ∅)

theorem closeOverCallees_isClosure_mutual : ∃ capMap fuel,
    (∀ n ≥ fuel, closeOverCallees (fun _ => []) mutualDefs mutualCaptures n = some capMap) ∧
    IsClosure (fun _ => []) mutualDefs mutualCaptures capMap :=
  closeOverCallees_isClosure _ _ _ (by simp [mutualDefs, mutualCaptures, Tree.sym, Tree.info, AList.mem_keys])

end ScalaRs.LambdaLift
