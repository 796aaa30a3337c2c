import ScalaRs.CallArguments

/-! # The operand stack of a call

What the steps for an argument need from the operand stack and leave on it. -/
namespace ScalaRs.CallArguments
open Unification (Ty SymbolId Lit)
open TypedTrees (Tree noSymbol)
open OperandStacks

variable (ctx : EmitCtx)

/-- What a place of the operand stack holds: a number that `iconst` left, an array that is being
filled, or another value. -/
inductive Cell
  | int | array | value
deriving DecidableEq

/-- A `Unit` expression leaves nothing, unless a reference was produced for it, and every other
expression leaves one value. -/
def valuesLeft (t : Tree) : ℕ :=
  if erasesToBoxedUnit t.ty && !unitLeavesBoxedRef ctx t then 0 else 1

/-- A call takes a receiver and its arguments, and leaves its result. -/
def invoke (n : ℕ) (ret : String) (s : List Cell) : Option (List Cell) :=
  if n ≤ s.length then some (if ret = "V" then s.drop n else .value :: s.drop n) else none

def exec : Step → List Cell → Option (List Cell)
  | .genExpr t, s => some (List.replicate (valuesLeft ctx t) .value ++ s)
  | .load _, s | .getstatic _ _ _, s | .javaClassOf _, s => some (.value :: s)
  | .checkcast _, _ :: s | .numConv _ _, _ :: s => some (.value :: s)
  | .invokestatic _ _ params ret, s => invoke params.length ret s
  | .invokevirtual _ _ params ret, s | .invokeinterface _ _ params ret, s =>
    invoke (params.length + 1) ret s
  | .iconst _, s => some (.int :: s)
  | .newarray _, .int :: s | .anewarray _, .int :: s => some (.array :: s)
  | .dup, c :: s => some (c :: c :: s)
  | .swap, c :: d :: s => some (d :: c :: s)
  | .arrayStore _, _ :: .int :: .array :: s => some s
  | _, _ => none

theorem invoke_append {n : ℕ} {ret : String} {s t : List Cell} (below : List Cell)
    (h : invoke n ret s = some t) : invoke n ret (s ++ below) = some (t ++ below) := by
  unfold invoke at h ⊢
  split at h
  · rename_i hn
    rw [if_pos (by rw [List.length_append]; omega), List.drop_append_of_le_length hn]
    cases h
    split <;> rfl
  · cases h

theorem exec_arrayStore {m : String} {s t : List Cell} :
    exec ctx (.arrayStore m) s = some t ↔ ∃ c, s = c :: .int :: .array :: t := by
  constructor
  · intro h
    match s with
    | c :: .int :: .array :: rest =>
        cases h
        exact ⟨c, rfl⟩
    | [] | [_] | [_, .int] | _ :: .array :: _ | _ :: .value :: _ => cases h
    | _ :: .int :: .int :: _ | _ :: .int :: .value :: _ => cases h
  · intro h
    obtain ⟨c, rfl⟩ := h
    rfl

theorem framed_exec : Framed (exec ctx) := by
  intro i s t below h
  cases i with
  | genExpr e =>
      cases h
      rw [exec, List.append_assoc]
  | load | getstatic | javaClassOf | iconst =>
      cases h
      rfl
  | invokestatic | invokevirtual | invokeinterface => exact invoke_append below h
  | arrayStore m =>
      obtain ⟨c, rfl⟩ := (exec_arrayStore ctx).mp h
      rfl
  | checkcast | numConv | dup =>
      cases s with
      | nil => cases h
      | cons c s =>
          cases h
          rfl
  | newarray | anewarray =>
      cases s with
      | nil => cases h
      | cons c s =>
          cases c with
          | int =>
              cases h
              rfl
          | array | value => cases h
  | swap =>
      cases s with
      | nil => cases h
      | cons c s =>
          cases s with
          | nil => cases h
          | cons d s =>
              cases h
              rfl

/-! ## Steps that change one value -/

theorem converts_checkcast (cls : String) : Converts (exec ctx) [.checkcast cls] :=
  Converts.one (fun _ _ => ⟨.value, rfl⟩) rfl

theorem converts_invokestatic {owner name p ret : String} (h : ret ≠ "V") :
    Converts (exec ctx) [.invokestatic owner name [p] ret] := by
  apply Converts.one
  · intro c s
    refine ⟨.value, ?_⟩
    change invoke 1 ret (c :: s) = _
    simp [invoke, h]
  · rfl

theorem converts_invokevirtual {owner name ret : String} (h : ret ≠ "V") :
    Converts (exec ctx) [.invokevirtual owner name [] ret] := by
  apply Converts.one
  · intro c s
    refine ⟨.value, ?_⟩
    change invoke 1 ret (c :: s) = _
    simp [invoke, h]
  · rfl

/-- A module is loaded below the value, and one of its methods takes the value. -/
theorem converts_helper {owner name desc module method p ret : String} (h : ret ≠ "V") :
    Converts (exec ctx)
      [.getstatic owner name desc, .swap, .invokevirtual module method [p] ret] := by
  constructor
  · intro c s
    refine ⟨.value, ?_⟩
    change (invoke 2 ret (c :: .value :: s)).bind _ = _
    simp [invoke, h]
  · intro s hs
    cases hs

theorem converts_emitBox {t : Ty} (h : isJvmPrimitive t = true) (hunit : widenConstant t ≠ .unit) :
    Converts (exec ctx) (emitBox t) := by
  unfold isJvmPrimitive at h
  unfold emitBox
  split at h
  case h_9 heq => exact absurd heq hunit
  case h_10 => cases h
  all_goals
    rename_i heq
    rw [heq]
    apply converts_invokestatic
    decide

theorem emitBox_unit {t : Ty} (h : widenConstant t = .unit) : emitBox t = emitBoxedUnit := by
  rw [emitBox, h]

theorem converts_unboxTo {library : Bool} {name owner desc : String} (h : desc ≠ "V") :
    Converts (exec ctx) (unboxTo library name owner desc) := by
  unfold unboxTo
  split
  · exact converts_invokestatic ctx h
  · exact (converts_checkcast ctx owner).append (converts_invokevirtual ctx h)

theorem converts_emitUnbox (t : Ty) : Converts (exec ctx) (emitUnbox ctx t) := by
  unfold emitUnbox
  split
  case h_9 => exact Converts.nil
  all_goals
    apply converts_unboxTo
    decide

theorem converts_emitPrimQualifierCast (src target : Ty) :
    Converts (exec ctx) (emitPrimQualifierCast src target) := by
  unfold emitPrimQualifierCast
  simp only []
  split
  · exact Converts.nil
  · rename_i hprim
    split
    · split
      · exact Converts.nil
      · split
        · exact Converts.one (fun _ _ => ⟨.value, rfl⟩) rfl
        · exact Converts.nil
    · apply converts_emitBox
      · cases hb : isJvmPrimitive (widenConstant src) with
        | true => rfl
        | false => exact absurd (by rw [hb]; rfl) hprim
      · intro hunit
        apply hprim
        cases hs : widenConstant src with
        | constant lit =>
            rw [hs] at hunit
            cases src with
            | constant l => cases l <;> cases hs
            | _ => cases hs
        | unit => rfl
        | _ =>
            rw [hs] at hunit
            cases hunit

theorem converts_casts (classes : List String) :
    Converts (exec ctx) (classes.map .checkcast) := by
  induction classes with
  | nil => exact Converts.nil
  | cons cls classes ih => exact (converts_checkcast ctx cls).append ih

theorem exec_invokevirtual {owner name ret : String} (h : ret ≠ "V") {params : List String}
    {args s : List Cell} (hargs : args.length = params.length + 1) :
    exec ctx (.invokevirtual owner name params ret) (args ++ s) = some (.value :: s) := by
  change invoke (params.length + 1) ret (args ++ s) = _
  rw [invoke, if_pos (by rw [List.length_append]; omega), if_neg h, ← hargs, List.drop_left]

theorem run_emitClassTag (t : Ty) (s : List Cell) :
    run (exec ctx) (emitClassTag t) s = some (.value :: s) := by
  have htag (owner name ret : String) (params : List String) (args : List Cell)
      (hret : ret ≠ "V") (hargs : args.length = params.length + 1) :
      run (exec ctx) [.invokevirtual owner name params ret] (args ++ s) = some (.value :: s) := by
    rw [run_cons, exec_invokevirtual ctx hret hargs]
    rfl
  unfold emitClassTag
  simp only [run_cons, exec, Option.bind_some]
  split
  · rename_i p hp
    apply htag _ _ _ [] [.value] ?_ rfl
    cases hw : widenConstant t <;> rw [hw] at hp <;> cases hp <;> decide
  · split
    · exact htag _ _ _ [] [.value] (by decide) rfl
    · exact htag "scala/reflect/ClassTag$" "apply" "Lscala/reflect/ClassTag;" ["Ljava/lang/Class;"]
        [.value, .value] (by decide) rfl

/-- The sequence below a class tag becomes an array. -/
theorem converts_toArray (t : Ty) {owner name p ret : String} (h : ret ≠ "V") :
    Converts (exec ctx) (emitClassTag t ++ [.invokeinterface owner name [p] ret]) := by
  constructor
  · intro c s
    refine ⟨.value, ?_⟩
    rw [run_append, run_emitClassTag]
    change (invoke 2 ret (.value :: c :: s)).bind _ = _
    simp [invoke, h]
  · intro s hs
    rw [run_append, run_emitClassTag] at hs
    cases hs

/-! ## Steps after a value -/

/-- The steps make one value of the values that an expression left. -/
inductive Supplies : List Step → ℕ → Prop
  | converts {c : List Step} (h : Converts (exec ctx) c) : Supplies c 1
  | unit {c : List Step} (h : Converts (exec ctx) c) : Supplies (emitBoxedUnit ++ c) 0

variable {ctx}

theorem valuesLeft_cases (t : Tree) : valuesLeft ctx t = 0 ∨ valuesLeft ctx t = 1 := by
  unfold valuesLeft
  split
  · exact .inl rfl
  · exact .inr rfl

theorem run_emitBoxedUnit (c : List Step) (s : List Cell) :
    run (exec ctx) (emitBoxedUnit ++ c) s = run (exec ctx) c (.value :: s) := rfl

theorem Supplies.delivers_iff {c : List Step} {n : ℕ} (h : Supplies ctx c n) (t : Tree) :
    Delivers (exec ctx) (.genExpr t :: c) ↔ valuesLeft ctx t = n := by
  unfold Delivers
  simp only [run_cons, exec, Option.bind_some, List.append_nil]
  cases h with
  | converts hc =>
      cases valuesLeft_cases t with
      | inl hzero =>
          rw [hzero]
          refine ⟨fun ⟨v, hv⟩ => ?_, fun h => by omega⟩
          cases hc.empty _ hv
      | inr hone =>
          rw [hone]
          exact ⟨fun _ => rfl, fun _ => hc.top _ _⟩
  | unit hc =>
      cases valuesLeft_cases t with
      | inl hzero =>
          rw [hzero]
          exact ⟨fun _ => rfl, fun _ => hc.top _ _⟩
      | inr hone =>
          rw [hone]
          refine ⟨fun ⟨v, hv⟩ => ?_, fun h => by omega⟩
          rw [run_emitBoxedUnit] at hv
          obtain ⟨d, hd⟩ := hc.top .value [.value]
          cases hd.symm.trans hv

/-- The value of one expression is stored in the array below it. -/
theorem Supplies.store_iff {c : List Step} {n : ℕ} (h : Supplies ctx c n) (t : Tree) (m : String)
    {rest s : List Cell} :
    run (exec ctx) (.genExpr t :: c ++ [.arrayStore m]) (.int :: .array :: rest) = some s ↔
      valuesLeft ctx t = n ∧ s = rest := by
  -- Once the steps ran, the store finds the values `below` under the value on top.
  have store {values below : List Cell} {d : Cell}
      (hrun : run (exec ctx) c values = some (d :: below)) :
      run (exec ctx) (c ++ [.arrayStore m]) values = some s ↔ below = .int :: .array :: s := by
    rw [run_append, hrun, Option.bind_some, run_cons]
    cases hstore : exec ctx (.arrayStore m) (d :: below) with
    | none =>
        refine ⟨(by intro h; cases h), fun h => ?_⟩
        rw [h] at hstore
        cases hstore
    | some after =>
        obtain ⟨x, hx⟩ := (exec_arrayStore ctx).mp hstore
        cases hx
        simp
  simp only [List.cons_append, run_cons, exec, Option.bind_some]
  cases h with
  | converts hc =>
      cases valuesLeft_cases t with
      | inl hzero =>
          rw [hzero]
          obtain ⟨d, hd⟩ := hc.top .int (.array :: rest)
          exact (store hd).trans ⟨(by intro h; cases h), (by intro h; cases h.1)⟩
      | inr hone =>
          rw [hone]
          obtain ⟨d, hd⟩ := hc.top .value (.int :: .array :: rest)
          apply (store hd).trans
          simp [eq_comm]
  | unit hc =>
      cases valuesLeft_cases t with
      | inl hzero =>
          rw [hzero]
          obtain ⟨d, hd⟩ := hc.top .value (.int :: .array :: rest)
          apply (store hd).trans
          simp [eq_comm]
      | inr hone =>
          rw [hone]
          obtain ⟨d, hd⟩ := hc.top .value (.value :: .int :: .array :: rest)
          exact (store hd).trans ⟨(by intro h; cases h), (by intro h; cases h.1)⟩

end ScalaRs.CallArguments
