import ScalaRs.ArgumentStacks

/-! # Coercions beside a repeated parameter

An argument of an ordinary parameter is loaded with its coercions, unless its method has a
repeated parameter too. -/
namespace ScalaRs.CallArguments
open Unification (Ty SymbolId Lit)
open TypedTrees (Tree noSymbol)
open OperandStacks

variable (ctx : EmitCtx) (call : Call)

/-! ## One block for each parameter -/

/-- The steps for an argument after the steps `asm`: with its coercions where its parameter is an
ordinary one. -/
def argBlock (asm : List Step) (i : ℕ) (a : Tree) : List Step :=
  if (call.paramTys[i]?).any isRepeated then [.genExpr a] else loadArg ctx call asm i a

def argBlocks (asm : List Step) (i : ℕ) : List Tree → List (List Step)
  | [] => []
  | a :: args =>
    let code := argBlock ctx call asm i a
    code :: argBlocks (asm ++ code) (i + 1) args

/-- The arguments before the repeated parameter `ri`. -/
def argsBefore (args : List Tree) (ri : ℕ) : List Tree := args.take (min ri args.length)

def argsAfter (args : List Tree) (ri : ℕ) : List Tree := args.drop (varEnd call args ri)

def repeatedBlock (args : List Tree) (ri : ℕ) : List Step :=
  genRepeated ctx call ri (varArgs call args ri) (repElem call ri)

/-- The steps up to the arguments after the repeated parameter. -/
def upToAfter (args : List Tree) (ri : ℕ) : List Step :=
  (argBlocks ctx call [] 0 (argsBefore args ri)).flatten ++ repeatedBlock ctx call args ri

def blocks (args : List Tree) : List (List Step) :=
  match repIdx call with
  | none => argBlocks ctx call [] 0 args
  | some ri =>
    argBlocks ctx call [] 0 (argsBefore args ri) ++ [repeatedBlock ctx call args ri] ++
      argBlocks ctx call (upToAfter ctx call args ri) (ri + 1) (argsAfter call args ri)

/-- A method without a repeated parameter takes one for each argument. -/
def jvmParams (args : List Tree) : ℕ :=
  if (repIdx call).isSome then call.paramTys.length else args.length

/-- Each argument of an ordinary parameter is emitted with its coercions, and there is one value
for each parameter. -/
structure Adapted (args : List Tree) : Prop where
  code : genCallArgs ctx call args = (blocks ctx call args).flatten
  count : (blocks ctx call args).length = jvmParams call args
  one : ∀ b ∈ blocks ctx call args, Delivers (exec ctx) b

/-! ## When the code is so -/

/-- The expression that is emitted for an argument. -/
def emitted (i : ℕ) (a : Tree) : Tree := (typerBoxed call (paramTy call i a) a).getD a

/-- `load_arg` emits no more than the argument. -/
structure Plain (asm : List Step) (i : ℕ) (a : Tree) : Prop where
  cell : cellSlot ctx call i a = none
  typerBox : typerBoxed call (paramTy call i a) a = none
  unit : erasesToBoxedUnit (paramTy call i a) = false
  cast : memberCast ctx (ctx.topObject (asm ++ [.genExpr a])) a.ty (paramTy call i a)
    (declared ctx call)[i]? = none
  box : call.boxPrims = true → isArray (paramTy call i a) = false ∧
    (isJvmPrimitive a.ty && !isUnitLike a.ty && !isJvmPrimitive (paramTy call i a)) = false

/-- The type of the argument is that of the literal `()`, and a box is made for it. -/
def boxesUnit (a : Tree) (pty : Ty) : Prop :=
  call.boxPrims = true ∧ widenConstant a.ty = .unit ∧ isUnitLike a.ty = false ∧
    isJvmPrimitive pty = false

/-- How many values of an argument the coercions to its parameter count with. -/
def coercedValues (a : Tree) (pty : Ty) : ℕ :=
  if erasesToBoxedUnit pty && !unitLeavesBoxedRef ctx a then 0 else 1

/-- An ordinary argument leaves what its coercions count with. -/
def Counted (asm : List Step) (i : ℕ) (a : Tree) : Prop :=
  cellSlot ctx call i a = none →
    let pty := paramTy call i a
    let e := emitted call i a
    (¬ boxesUnit call a pty ∧ valuesLeft ctx e = coercedValues ctx a pty) ∨
    (boxesUnit call a pty ∧ valuesLeft ctx e = 0 ∧ erasesToBoxedUnit pty = false ∧
      memberCast ctx (ctx.topObject (asm ++ [.genExpr e])) a.ty pty (declared ctx call)[i]? = none)

/-- The property holds at each argument, where the steps of the arguments before it are emitted. -/
def AtEach (p : List Step → ℕ → Tree → Prop) (asm : List Step) (i : ℕ) : List Tree → Prop
  | [] => True
  | a :: args => p asm i a ∧ AtEach p (asm ++ argBlock ctx call asm i a) (i + 1) args

/-- No coercion is due to the argument of an ordinary parameter. -/
def ArgPlain (asm : List Step) (i : ℕ) (a : Tree) : Prop :=
  (call.paramTys[i]?).any isRepeated = false → Plain ctx call asm i a

def ArgCounted (asm : List Step) (i : ℕ) (a : Tree) : Prop :=
  if (call.paramTys[i]?).any isRepeated then valuesLeft ctx a = 1 else Counted ctx call asm i a

/-- How many values of an element of a Java array its conversion counts with. -/
def javaValues (elem : Ty) (a : Tree) : ℕ :=
  if !elemIsPrim elem && isJvmPrimitive a.ty && isUnitLike (widenConstant a.ty) then 0 else 1

def wrappedValues (a : Tree) : ℕ :=
  if isUnitVarargsElem a && !unitLeavesBoxedRef ctx a then 0 else 1

/-- The arguments of the repeated parameter leave what their array counts with. -/
def RepeatedCounted (args : List Tree) (elem : Ty) : Prop :=
  let each := if call.javaVarargs then
      ∀ a ∈ args, valuesLeft ctx a = javaValues (widenConstant elem) a
    else allInt args elem = true ∨ ∀ a ∈ args, valuesLeft ctx a = wrappedValues ctx a
  match args with
  | [a] => if isRepeated a.ty then valuesLeft ctx (spliceInner a) = 1 else each
  | _ => each

/-- The arguments beside the repeated parameter `ri` need no coercion, and leave what is counted
with. -/
structure Beside (args : List Tree) (ri : ℕ) : Prop where
  arity : call.paramTys.length ≤ args.length + 1
  plainBefore : AtEach ctx call (ArgPlain ctx call) [] 0 (argsBefore args ri)
  plainAfter : AtEach ctx call (ArgPlain ctx call) (upToAfter ctx call args ri) (ri + 1)
    (argsAfter call args ri)
  countedBefore : AtEach ctx call (ArgCounted ctx call) [] 0 (argsBefore args ri)
  counted : RepeatedCounted ctx call (varArgs call args ri) (repElem call ri)
  countedAfter : AtEach ctx call (ArgCounted ctx call) (upToAfter ctx call args ri) (ri + 1)
    (argsAfter call args ri)

structure Ready (args : List Tree) : Prop where
  alone : repIdx call = none → AtEach ctx call (ArgCounted ctx call) [] 0 args
  beside : ∀ ri, repIdx call = some ri → Beside ctx call args ri

/-! ## One argument -/

variable {ctx call}

theorem emitBox_ne_nil {t : Ty} (h : isJvmPrimitive t = true) : emitBox t ≠ [] := by
  unfold isJvmPrimitive at h
  unfold emitBox
  split at h
  case h_10 => cases h
  all_goals
    rename_i heq
    rw [heq]
    exact List.cons_ne_nil _ _

theorem typerBoxed_ne {pty : Ty} {a x : Tree} (h : typerBoxed call pty a = some x) : x ≠ a := by
  unfold typerBoxed at h
  split at h
  · split at h
    · cases h
      intro heq
      have hsize := congrArg sizeOf heq
      simp at hsize
      omega
    · cases h
  · cases h

theorem getD_typerBoxed {pty : Ty} {a : Tree} :
    (typerBoxed call pty a).getD a = a ↔ typerBoxed call pty a = none := by
  cases h : typerBoxed call pty a with
  | none => exact iff_of_true rfl rfl
  | some x => exact iff_of_false (typerBoxed_ne h) (by simp)

theorem adaptUnitArg_eq_nil {a : Tree} {pty : Ty} :
    adaptUnitArg ctx a pty = [] ↔ erasesToBoxedUnit pty = false := by
  unfold adaptUnitArg
  cases erasesToBoxedUnit pty with
  | false => simp
  | true => cases unitLeavesBoxedRef ctx a <;> simp [emitBoxedUnit]

theorem boxArg_eq_nil {a : Tree} {pty : Ty} :
    boxArg ctx call a pty = [] ↔ (call.boxPrims = true → isArray pty = false ∧
      (isJvmPrimitive a.ty && !isUnitLike a.ty && !isJvmPrimitive pty) = false) := by
  unfold boxArg
  cases call.boxPrims with
  | false => simp
  | true =>
      cases hbox : isJvmPrimitive a.ty && !isUnitLike a.ty && !isJvmPrimitive pty with
      | false => cases isArray pty <;> simp
      | true =>
          have hprim : isJvmPrimitive a.ty = true := by
            simp only [Bool.and_eq_true] at hbox
            exact hbox.1.1
          simp [emitBox_ne_nil hprim]

theorem loadArg_eq_genExpr {asm : List Step} {i : ℕ} {a : Tree} :
    loadArg ctx call asm i a = [.genExpr a] ↔ Plain ctx call asm i a := by
  unfold loadArg
  cases hcell : cellSlot ctx call i a with
  | some slot =>
      refine iff_of_false (by simp) fun h => ?_
      cases hcell.symm.trans h.cell
  | none =>
      constructor
      · intro h
        simp only [List.cons_append, List.cons.injEq, Step.genExpr.injEq,
          List.append_eq_nil_iff] at h
        obtain ⟨hvalue, ⟨hunit, hcast⟩, hbox⟩ := h
        rw [hvalue, hunit] at hcast
        refine ⟨hcell, getD_typerBoxed.mp hvalue, adaptUnitArg_eq_nil.mp hunit, ?_,
          boxArg_eq_nil.mp hbox⟩
        simpa [adaptTypeMemberArg] using hcast
      · intro h
        simp [h.typerBox, adaptUnitArg_eq_nil.mpr h.unit, boxArg_eq_nil.mpr h.box,
          adaptTypeMemberArg, h.cast]

variable (ctx call) in
/-- The coercions after the value of an argument. -/
def coercions (asm : List Step) (i : ℕ) (a : Tree) : List Step :=
  let pty := paramTy call i a
  let unit := adaptUnitArg ctx a pty
  unit ++ adaptTypeMemberArg ctx (asm ++ .genExpr (emitted call i a) :: unit) a.ty pty
    (declared ctx call)[i]? ++ boxArg ctx call a pty

theorem loadArg_eq {asm : List Step} {i : ℕ} {a : Tree} (h : cellSlot ctx call i a = none) :
    loadArg ctx call asm i a = .genExpr (emitted call i a) :: coercions ctx call asm i a := by
  rw [loadArg, h]
  rfl

theorem converts_boxArg {a : Tree} {pty : Ty} (h : ¬ boxesUnit call a pty) :
    Converts (exec ctx) (boxArg ctx call a pty) := by
  unfold boxArg
  split
  · rename_i hprims
    split
    · rename_i hbox
      simp only [Bool.and_eq_true, Bool.not_eq_true'] at hbox
      apply converts_emitBox ctx hbox.1.1
      intro hunit
      exact h ⟨hprims, hunit, hbox.1.2, hbox.2⟩
    · split
      · exact converts_checkcast ctx _
      · exact Converts.nil
  · exact Converts.nil

theorem boxArg_of_boxesUnit {a : Tree} {pty : Ty} (h : boxesUnit call a pty) :
    boxArg ctx call a pty = emitBoxedUnit := by
  obtain ⟨hprims, hunit, hlike, hpty⟩ := h
  have hprim : isJvmPrimitive a.ty = true := by rw [isJvmPrimitive, hunit]
  simp [boxArg, hprims, hprim, hlike, hpty, emitBox_unit hunit]

theorem supplies_coercions {asm : List Step} {i : ℕ} {a : Tree}
    (h : ¬ boxesUnit call a (paramTy call i a)) :
    Supplies ctx (coercions ctx call asm i a) (coercedValues ctx a (paramTy call i a)) := by
  have hcast (top : List Step) : Converts (exec ctx)
      (adaptTypeMemberArg ctx top a.ty (paramTy call i a) (declared ctx call)[i]? ++
        boxArg ctx call a (paramTy call i a)) :=
    (converts_casts ctx _).append (converts_boxArg h)
  unfold coercions coercedValues adaptUnitArg
  simp only [List.append_assoc]
  cases erasesToBoxedUnit (paramTy call i a) with
  | false => exact .converts (hcast _)
  | true =>
      cases unitLeavesBoxedRef ctx a with
      | true => exact .converts ((converts_checkcast ctx boxedUnit).append (hcast _))
      | false => exact .unit (hcast _)

/-- A second value is left above one that is there. -/
theorem not_boxedUnit_alone {classes : List String} {c : Cell} {s : List Cell} :
    ¬ ∃ t, run (exec ctx) (classes.map .checkcast ++ emitBoxedUnit) (c :: s) = some [t] := by
  intro ⟨t, ht⟩
  obtain ⟨d, hd⟩ := (converts_casts ctx classes).top c s
  rw [run_append, hd] at ht
  cases ht

/-- A box for the literal `()` is the one value only where nothing else is left. -/
theorem delivers_boxedLiteral {asm : List Step} {i : ℕ} {a : Tree}
    (h : boxesUnit call a (paramTy call i a)) :
    Delivers (exec ctx) (.genExpr (emitted call i a) :: coercions ctx call asm i a) ↔
      valuesLeft ctx (emitted call i a) = 0 ∧ erasesToBoxedUnit (paramTy call i a) = false ∧
        memberCast ctx (ctx.topObject (asm ++ [.genExpr (emitted call i a)])) a.ty
          (paramTy call i a) (declared ctx call)[i]? = none := by
  unfold Delivers coercions adaptTypeMemberArg
  simp only [boxArg_of_boxesUnit h, run_cons, exec, Option.bind_some, List.append_nil,
    List.append_assoc]
  cases hunit : erasesToBoxedUnit (paramTy call i a) with
  | true =>
      refine iff_of_false ?_ (by simp)
      simp only [adaptUnitArg, hunit, if_true]
      cases unitLeavesBoxedRef ctx a with
      | false => exact not_boxedUnit_alone
      | true =>
          cases valuesLeft_cases (emitted call i a) with
          | inl hzero =>
              rw [hzero]
              rintro ⟨t, ht⟩
              cases ht
          | inr hone =>
              rw [hone]
              exact not_boxedUnit_alone
  | false =>
      rw [adaptUnitArg_eq_nil.mpr hunit]
      cases valuesLeft_cases (emitted call i a) with
      | inr hone =>
          rw [hone]
          exact iff_of_false not_boxedUnit_alone (by simp)
      | inl hzero =>
          rw [hzero]
          cases memberCast ctx (ctx.topObject (asm ++ [.genExpr (emitted call i a)])) a.ty
              (paramTy call i a) (declared ctx call)[i]? with
          | none => exact iff_of_true ⟨.value, rfl⟩ (by simp)
          | some cls =>
              refine iff_of_false ?_ (by simp)
              rintro ⟨t, ht⟩
              cases ht

theorem delivers_loadArg {asm : List Step} {i : ℕ} {a : Tree} :
    Delivers (exec ctx) (loadArg ctx call asm i a) ↔ Counted ctx call asm i a := by
  unfold Counted
  cases hcell : cellSlot ctx call i a with
  | some slot =>
      rw [loadArg, hcell]
      exact iff_of_true ⟨.value, rfl⟩ (by simp)
  | none =>
      rw [loadArg_eq hcell]
      by_cases hbox : boxesUnit call a (paramTy call i a)
      · rw [delivers_boxedLiteral hbox]
        simp [hbox]
      · rw [(supplies_coercions hbox).delivers_iff]
        simp [hbox]

theorem delivers_argBlock {asm : List Step} {i : ℕ} {a : Tree} :
    Delivers (exec ctx) (argBlock ctx call asm i a) ↔ ArgCounted ctx call asm i a := by
  unfold argBlock ArgCounted
  split
  · exact (Supplies.converts Converts.nil).delivers_iff a
  · exact delivers_loadArg

/-! ## All arguments -/

theorem argBlock_eq_genExpr {asm : List Step} {i : ℕ} {a : Tree} :
    argBlock ctx call asm i a = [.genExpr a] ↔ ArgPlain ctx call asm i a := by
  unfold argBlock ArgPlain
  cases (call.paramTys[i]?).any isRepeated with
  | true => simp
  | false => simpa using loadArg_eq_genExpr

theorem length_argBlock {asm : List Step} {i : ℕ} {a : Tree} :
    1 ≤ (argBlock ctx call asm i a).length := by
  unfold argBlock
  split
  · rfl
  · cases hcell : cellSlot ctx call i a with
    | some slot => simp [loadArg, hcell]
    | none => simp [loadArg_eq hcell]

theorem length_argBlocks {asm : List Step} {i : ℕ} {args : List Tree} :
    (argBlocks ctx call asm i args).length = args.length := by
  induction args generalizing asm i with
  | nil => rfl
  | cons a args ih => simp [argBlocks, ih]

theorem length_le_flatten {asm : List Step} {i : ℕ} {args : List Tree} :
    args.length ≤ (argBlocks ctx call asm i args).flatten.length := by
  induction args generalizing asm i with
  | nil => exact Nat.zero_le _
  | cons a args ih =>
      have hhead := @length_argBlock ctx call asm i a
      have htail := @ih (asm ++ argBlock ctx call asm i a) (i + 1)
      simp only [argBlocks, List.flatten_cons, List.length_append, List.length_cons]
      omega

theorem genExprs_eq_iff {asm : List Step} {i : ℕ} {args : List Tree} :
    genExprs args = (argBlocks ctx call asm i args).flatten ↔
      AtEach ctx call (ArgPlain ctx call) asm i args := by
  induction args generalizing asm i with
  | nil => exact iff_of_true rfl trivial
  | cons a args ih =>
      rw [argBlocks, AtEach, List.flatten_cons, ← ih, ← argBlock_eq_genExpr]
      change [Step.genExpr a] ++ genExprs args = _ ↔ _
      constructor
      · intro h
        have hlength := congrArg List.length h
        have hhead := @length_argBlock ctx call asm i a
        have htail := @length_le_flatten ctx call (asm ++ argBlock ctx call asm i a) (i + 1) args
        simp only [List.length_append, genExprs, List.length_map, List.length_singleton] at hlength
        have hone : [Step.genExpr a].length = (argBlock ctx call asm i a).length := by
          rw [List.length_singleton]
          omega
        obtain ⟨hblock, hrest⟩ := List.append_inj h hone
        exact ⟨hblock.symm, hrest⟩
      · intro h
        rw [h.1, ← h.1, ← h.2, h.1]

theorem delivers_argBlocks {asm : List Step} {i : ℕ} {args : List Tree} :
    (∀ b ∈ argBlocks ctx call asm i args, Delivers (exec ctx) b) ↔
      AtEach ctx call (ArgCounted ctx call) asm i args := by
  induction args generalizing asm i with
  | nil => simp [argBlocks, AtEach]
  | cons a args ih => rw [argBlocks, AtEach, List.forall_mem_cons, ih, delivers_argBlock]

/-! ## The repeated parameter -/

theorem emitArrayStore_eq (elem : Ty) : ∃ m, emitArrayStore elem = .arrayStore m := by
  unfold emitArrayStore
  split <;> exact ⟨_, rfl⟩

theorem exec_emitNewarray (elem : Ty) (s : List Cell) :
    exec ctx (emitNewarray ctx elem) (.int :: s) = some (.array :: s) := by
  unfold emitNewarray
  split
  case h_12 =>
    simp only []
    split <;> rfl
  all_goals rfl

/-- The loop stores every element exactly if each leaves what its steps count with. -/
theorem run_storeAll {elem : Tree → List Step} {m : String} {values : Tree → ℕ} {args : List Tree}
    (helem : ∀ a, ∃ c, elem a = .genExpr a :: c ∧ Supplies ctx c (values a)) {i : ℕ}
    {rest s : List Cell} :
    run (exec ctx) (storeAll elem (.arrayStore m) i args) (.array :: rest) = some s ↔
      (∀ a ∈ args, valuesLeft ctx a = values a) ∧ s = .array :: rest := by
  induction args generalizing i with
  | nil => simp [storeAll, eq_comm]
  | cons a args ih =>
      obtain ⟨c, hc, hsupplies⟩ := helem a
      have hstart : run (exec ctx) (storeAll elem (.arrayStore m) i (a :: args)) (.array :: rest) =
          (run (exec ctx) (elem a ++ [.arrayStore m]) (.int :: .array :: .array :: rest)).bind
            (run (exec ctx) (storeAll elem (.arrayStore m) (i + 1) args)) := by
        rw [← run_append, storeAll, List.append_assoc, List.append_assoc, List.append_assoc]
        rfl
      rw [hstart, hc, Option.bind_eq_some_iff, List.forall_mem_cons]
      constructor
      · rintro ⟨mid, hmid, htail⟩
        obtain ⟨hvalue, hstored⟩ := (hsupplies.store_iff a m).mp hmid
        subst hstored
        obtain ⟨hrest, hs⟩ := ih.mp htail
        exact ⟨⟨hvalue, hrest⟩, hs⟩
      · rintro ⟨⟨hvalue, hrest⟩, hs⟩
        exact ⟨.array :: rest, (hsupplies.store_iff a m).mpr ⟨hvalue, rfl⟩, ih.mpr ⟨hrest, hs⟩⟩

theorem supplies_javaElem (elem : Ty) (a : Tree) :
    ∃ c, javaElem ctx elem a = .genExpr a :: c ∧ Supplies ctx c (javaValues elem a) := by
  refine ⟨_, rfl, ?_⟩
  unfold javaValues
  cases elemIsPrim elem with
  | true =>
      apply Supplies.converts
      rw [if_pos rfl]
      split
      · exact converts_emitPrimQualifierCast ctx a.ty elem
      · exact converts_emitUnbox ctx elem
  | false =>
      cases hprim : isJvmPrimitive a.ty with
      | false => exact .converts Converts.nil
      | true =>
          by_cases hunit : widenConstant a.ty = .unit
          · rw [emitBox_unit hunit, hunit]
            exact .unit Converts.nil
          · have hlike : isUnitLike (widenConstant a.ty) = false := by
              unfold isJvmPrimitive at hprim
              split at hprim
              case h_9 heq => exact absurd heq hunit
              case h_10 => cases hprim
              all_goals
                rename_i heq
                rw [heq]
                rfl
            rw [hlike]
            exact .converts (converts_emitBox ctx hprim hunit)

theorem supplies_genVarargsElem (a : Tree) :
    ∃ c, genVarargsElem ctx a = .genExpr a :: c ∧ Supplies ctx c (wrappedValues ctx a) := by
  refine ⟨_, rfl, ?_⟩
  unfold wrappedValues
  cases helem : isUnitVarargsElem a with
  | true =>
      cases unitLeavesBoxedRef ctx a with
      | true => exact .converts Converts.nil
      | false => exact .unit Converts.nil
  | false =>
      apply Supplies.converts
      simp only [Bool.false_eq_true, if_false]
      split
      · rename_i hprim
        apply converts_emitBox ctx hprim
        intro hunit
        unfold isUnitVarargsElem at helem
        rw [hunit] at helem
        cases helem
      · exact Converts.nil

theorem delivers_genJavaVarargsArray {args : List Tree} {elem : Ty} :
    Delivers (exec ctx) (genJavaVarargsArray ctx args elem) ↔
      ∀ a ∈ args, valuesLeft ctx a = javaValues (widenConstant elem) a := by
  obtain ⟨m, hm⟩ := emitArrayStore_eq (widenConstant elem)
  have hrun : run (exec ctx) (genJavaVarargsArray ctx args elem) [] =
      run (exec ctx) (storeAll (javaElem ctx (widenConstant elem)) (.arrayStore m) 0 args)
        [.array] := by
    unfold genJavaVarargsArray
    simp only [hm, List.cons_append, List.nil_append, run_cons]
    change (exec ctx (emitNewarray ctx (widenConstant elem)) [.int]).bind _ = _
    rw [exec_emitNewarray]
    rfl
  unfold Delivers
  rw [hrun]
  constructor
  · intro ⟨t, ht⟩
    exact ((run_storeAll (supplies_javaElem _)).mp ht).1
  · intro h
    exact ⟨.array, (run_storeAll (supplies_javaElem _)).mpr ⟨h, rfl⟩⟩

theorem wrapArray_eq {name desc : String} {s : List Cell} {c d : Cell} :
    run (exec ctx) [wrapArray name desc] (c :: d :: s) = some (.value :: s) := by
  rw [wrapArray, run_cons]
  have h := @exec_invokevirtual ctx "scala/runtime/ScalaRunTime$" name
    "Lscala/collection/immutable/ArraySeq;" (by decide) [desc] [c, d] s rfl
  rw [show c :: d :: s = [c, d] ++ s from rfl, h]
  rfl

/-- An array is filled and wrapped. -/
theorem delivers_wrapped {first : Step} {elem : Tree → List Step} {m name desc : String}
    {values : Tree → ℕ} {args : List Tree}
    (hfirst : ∀ s, exec ctx first (.int :: s) = some (.array :: s))
    (helem : ∀ a, ∃ c, elem a = .genExpr a :: c ∧ Supplies ctx c (values a)) :
    Delivers (exec ctx) ([scalaRunTime, .iconst args.length] ++
      ([first] ++ storeAll elem (.arrayStore m) 0 args ++ [wrapArray name desc])) ↔
      ∀ a ∈ args, valuesLeft ctx a = values a := by
  have hrun : run (exec ctx) ([scalaRunTime, .iconst args.length] ++
      ([first] ++ storeAll elem (.arrayStore m) 0 args ++ [wrapArray name desc])) [] =
      (run (exec ctx) (storeAll elem (.arrayStore m) 0 args) [.array, .value]).bind
        (run (exec ctx) [wrapArray name desc]) := by
    rw [← run_append]
    change (exec ctx first [.int, .value]).bind _ = _
    rw [hfirst]
    rfl
  unfold Delivers
  rw [hrun]
  constructor
  · intro ⟨t, ht⟩
    obtain ⟨mid, hmid, -⟩ := Option.bind_eq_some_iff.mp ht
    exact ((run_storeAll helem).mp hmid).1
  · intro h
    refine ⟨.value, ?_⟩
    rw [(run_storeAll helem).mpr ⟨h, rfl⟩, Option.bind_some]
    exact wrapArray_eq

theorem valuesLeft_of_allInt {args : List Tree} {elem : Ty} (h : allInt args elem = true) :
    ∀ a ∈ args, valuesLeft ctx a = 1 := by
  intro a ha
  unfold allInt at h
  simp only [Bool.and_eq_true, List.all_eq_true] at h
  have hint := h.1.2 a ha
  cases hty : a.ty with
  | int => simp [valuesLeft, hty, erasesToBoxedUnit, widenConstant]
  | _ =>
      rw [hty] at hint
      cases hint

theorem delivers_genWrapVarargs {args : List Tree} {elem : Ty} :
    Delivers (exec ctx) (genWrapVarargs ctx args elem) ↔
      allInt args elem = true ∨ ∀ a ∈ args, valuesLeft ctx a = wrappedValues ctx a := by
  cases args with
  | nil => exact iff_of_true ⟨.value, rfl⟩ (.inr (by simp))
  | cons a args =>
      unfold genWrapVarargs
      simp only [List.isEmpty_cons, Bool.false_eq_true, if_false]
      cases hint : allInt (a :: args) elem with
      | true =>
          refine iff_of_true ?_ (.inl rfl)
          simp only [if_true]
          have helem (t : Tree) : ∃ c, [Step.genExpr t] = .genExpr t :: c ∧ Supplies ctx c 1 :=
            ⟨[], rfl, .converts Converts.nil⟩
          apply (delivers_wrapped (fun _ => rfl) helem).mpr
          exact valuesLeft_of_allInt hint
      | false =>
          simp only [Bool.false_eq_true, if_false, false_or]
          split
          · exact delivers_wrapped (fun _ => rfl) supplies_genVarargsElem
          · exact delivers_wrapped (fun _ => rfl) supplies_genVarargsElem

theorem converts_adaptJavaVarargsSplice (spliced elem : Ty) (paramDesc : Option String) :
    Converts (exec ctx) (adaptJavaVarargsSplice spliced elem paramDesc) := by
  have hobject : "[Ljava/lang/Object;" ≠ "V" := by decide
  unfold adaptJavaVarargsSplice
  split
  · exact Converts.nil
  · apply Converts.append
    · split
      · exact Converts.nil
      · exact converts_toArray ctx elem (by decide)
    · split
      · exact converts_helper ctx hobject
      · split
        · exact Converts.nil
        · exact converts_checkcast ctx _

theorem delivers_genSplice {ri : ℕ} {a : Tree} {elem : Ty} :
    Delivers (exec ctx) (genSplice ctx call ri a elem) ↔ valuesLeft ctx (spliceInner a) = 1 := by
  unfold genSplice
  simp only [List.cons_append, List.nil_append]
  apply Supplies.delivers_iff
  apply Supplies.converts
  apply Converts.append
  · split
    · exact converts_helper ctx (by decide)
    · exact Converts.nil
  · split
    · exact converts_adaptJavaVarargsSplice _ _ _
    · exact Converts.nil

theorem delivers_genRepeated {ri : ℕ} {args : List Tree} {elem : Ty} :
    Delivers (exec ctx) (genRepeated ctx call ri args elem) ↔
      RepeatedCounted ctx call args elem := by
  have hwrap (args : List Tree) : Delivers (exec ctx)
      (if call.javaVarargs then genJavaVarargsArray ctx args elem
        else genWrapVarargs ctx args elem) ↔
      if call.javaVarargs then ∀ a ∈ args, valuesLeft ctx a = javaValues (widenConstant elem) a
        else allInt args elem = true ∨ ∀ a ∈ args, valuesLeft ctx a = wrappedValues ctx a := by
    split
    · exact delivers_genJavaVarargsArray
    · exact delivers_genWrapVarargs
  match args with
  | [] => exact hwrap []
  | [a] =>
      unfold genRepeated RepeatedCounted
      simp only []
      split
      · exact delivers_genSplice
      · exact hwrap [a]
  | a :: b :: args => exact hwrap (a :: b :: args)

/-! ## All parameters -/

theorem loadArgs_eq {asm : List Step} {i : ℕ} {args : List Tree}
    (h : ∀ j : ℕ, (call.paramTys[j]?).any isRepeated = false) :
    loadArgs ctx call asm i args = (argBlocks ctx call asm i args).flatten := by
  have hblock (asm : List Step) (j : ℕ) (a : Tree) :
      argBlock ctx call asm j a = loadArg ctx call asm j a := by
    simp [argBlock, h j]
  induction args generalizing asm i with
  | nil => rfl
  | cons a args ih => rw [loadArgs, argBlocks, List.flatten_cons, hblock, ih]

theorem not_repeated_of_repIdx (h : repIdx call = none) (j : ℕ) :
    (call.paramTys[j]?).any isRepeated = false := by
  unfold repIdx at h
  rw [List.findIdx?_eq_none_iff] at h
  cases hj : call.paramTys[j]? with
  | none => rfl
  | some t => exact h t (List.mem_of_getElem? hj)

theorem adapted_of_alone {args : List Tree} (h : repIdx call = none) :
    Adapted ctx call args ↔ AtEach ctx call (ArgCounted ctx call) [] 0 args := by
  have hblocks : blocks ctx call args = argBlocks ctx call [] 0 args := by rw [blocks, h]
  constructor
  · intro hadapted
    apply delivers_argBlocks.mp
    rw [← hblocks]
    exact hadapted.one
  · intro hcounted
    constructor
    · rw [hblocks, genCallArgs, h]
      exact loadArgs_eq (not_repeated_of_repIdx h)
    · rw [hblocks, length_argBlocks, jvmParams, h]
      rfl
    · rw [hblocks]
      exact delivers_argBlocks.mpr hcounted

theorem repIdx_lt {ri : ℕ} (h : repIdx call = some ri) : ri < call.paramTys.length := by
  obtain ⟨hlt, -⟩ := List.findIdx?_eq_some_iff_getElem.mp h
  exact hlt

/-- Each parameter has its block if there are arguments for all but the repeated one. -/
theorem length_blocks {args : List Tree} {ri : ℕ} (h : repIdx call = some ri) :
    (blocks ctx call args).length = jvmParams call args ↔
      call.paramTys.length ≤ args.length + 1 := by
  have hlt := repIdx_lt h
  rw [blocks, h, jvmParams, h]
  simp only [List.length_append, length_argBlocks, argsBefore, argsAfter, List.length_take,
    List.length_drop, List.length_singleton, varEnd, Option.isSome_some, if_true]
  omega

theorem code_eq_iff {args : List Tree} {ri : ℕ} (h : repIdx call = some ri) :
    genCallArgs ctx call args = (blocks ctx call args).flatten ↔
      AtEach ctx call (ArgPlain ctx call) [] 0 (argsBefore args ri) ∧
        AtEach ctx call (ArgPlain ctx call) (upToAfter ctx call args ri) (ri + 1)
          (argsAfter call args ri) := by
  rw [← genExprs_eq_iff, ← genExprs_eq_iff, blocks, h, genCallArgs, h]
  simp only [List.flatten_append, List.flatten_singleton]
  change genExprs (argsBefore args ri) ++ repeatedBlock ctx call args ri ++
    genExprs (argsAfter call args ri) = _ ↔ _
  constructor
  · intro heq
    have hlength := congrArg List.length heq
    have hbefore := @length_le_flatten ctx call [] 0 (argsBefore args ri)
    have hafter := @length_le_flatten ctx call (upToAfter ctx call args ri) (ri + 1)
      (argsAfter call args ri)
    simp only [List.length_append, genExprs, List.length_map] at hlength
    obtain ⟨hstart, hend⟩ := List.append_inj heq (by
      simp only [List.length_append, genExprs, List.length_map]
      omega)
    exact ⟨List.append_cancel_right hstart, hend⟩
  · intro ⟨hbefore, hafter⟩
    rw [hbefore, hafter]

theorem one_iff {args : List Tree} {ri : ℕ} (h : repIdx call = some ri) :
    (∀ b ∈ blocks ctx call args, Delivers (exec ctx) b) ↔
      (AtEach ctx call (ArgCounted ctx call) [] 0 (argsBefore args ri) ∧
        RepeatedCounted ctx call (varArgs call args ri) (repElem call ri)) ∧
        AtEach ctx call (ArgCounted ctx call) (upToAfter ctx call args ri) (ri + 1)
          (argsAfter call args ri) := by
  rw [blocks, h]
  simp only [List.forall_mem_append, List.forall_mem_singleton]
  rw [delivers_argBlocks, delivers_argBlocks, repeatedBlock, delivers_genRepeated]

theorem adapted_of_beside {args : List Tree} {ri : ℕ} (h : repIdx call = some ri) :
    Adapted ctx call args ↔ Beside ctx call args ri := by
  constructor
  · intro hadapted
    obtain ⟨hbefore, hafter⟩ := (code_eq_iff h).mp hadapted.code
    obtain ⟨⟨hcbefore, hcounted⟩, hcafter⟩ := (one_iff h).mp hadapted.one
    exact ⟨(length_blocks h).mp hadapted.count, hbefore, hafter, hcbefore, hcounted, hcafter⟩
  · intro hbeside
    exact ⟨(code_eq_iff h).mpr ⟨hbeside.plainBefore, hbeside.plainAfter⟩,
      (length_blocks h).mpr hbeside.arity,
      (one_iff h).mpr ⟨⟨hbeside.countedBefore, hbeside.counted⟩, hbeside.countedAfter⟩⟩

theorem Ready.adapted {args : List Tree} (h : Ready ctx call args) : Adapted ctx call args := by
  cases hrep : repIdx call with
  | none => exact (adapted_of_alone hrep).mpr (h.alone hrep)
  | some ri => exact (adapted_of_beside hrep).mpr (h.beside ri hrep)

theorem Adapted.ready {args : List Tree} (h : Adapted ctx call args) : Ready ctx call args := by
  constructor
  · intro hnone
    exact (adapted_of_alone hnone).mp h
  · intro ri hri
    exact (adapted_of_beside hri).mp h

theorem adapted_iff (ctx : EmitCtx) (call : Call) (args : List Tree) :
    Adapted ctx call args ↔ Ready ctx call args :=
  ⟨Adapted.ready, Ready.adapted⟩

/-- The table of a file with `def f(u: Unit, xs: Int*): Unit`. -/
def unitTable : SymbolTable where
  get _ := ⟨"f", 2, .method, .none, false, .method [[.unit, .repeated .int]] .unit, [3, 4]⟩
  jvmDesc
    | .int => "I"
    | .repeated _ => "Lscala/collection/immutable/Seq;"
    | _ => "V"
  classInternal _ := "C"
  findClassByJvm _ := none
  isInterfaceSym _ := false
  baseClasses _ := []
  paramDescs _ := ["Lscala/runtime/BoxedUnit;", "Lscala/collection/immutable/Seq;"]

def unitCtx : EmitCtx where
  st := unitTable
  boxedVars _ := false
  isLibrary := true
  frame _ := none
  topObject _ := none

/-- `f((), 1)` -/
def unitCall : Call := ⟨[.unit, .repeated .int], true, false, 1, false⟩

def unitArgs : List Tree :=
  [.literal { TypedTrees.Info.dummy with ty := .constant .unit } .unit,
    .literal { TypedTrees.Info.dummy with ty := .int } (.int 1)]

/-- Nothing is pushed for the `Unit` parameter. -/
theorem not_adapted_unitArgs : ¬ Adapted unitCtx unitCall unitArgs := by
  intro h
  have hstep : some scalaRunTime =
      some (Step.getstatic boxedUnit "UNIT" "Lscala/runtime/BoxedUnit;") :=
    congrArg (fun code => code[1]?) h.code
  simp [scalaRunTime, boxedUnit] at hstep

/-- The values of all parameters are on the stack before the call. -/
theorem Adapted.stack {args : List Tree} (h : Adapted ctx call args) (below : List Cell) :
    ∃ values, values.length = jvmParams call args ∧
      run (exec ctx) (genCallArgs ctx call args) below = some (values ++ below) := by
  obtain ⟨values, hlength, hrun⟩ := (framed_exec ctx).run_flatten h.one below
  exact ⟨values, hlength.trans h.count, by rw [h.code, hrun]⟩

end ScalaRs.CallArguments
