import ScalaRs.TailCalls
import Mathlib.Tactic.SplitIfs

/-! # The nodes of self calls

The nodes that are recorded are found again where the code of the body is emitted. -/
namespace ScalaRs.TailCalls
open TypedTrees (Tree Cases noSymbol)
open CallArguments

variable (m : Method) (st : SymbolTable)

mutual

/-- The `&&` and `||` below a node whose right operand has a self call in tail position. -/
def shortcuts (t : Tree) : List Node :=
  match call m t with
  | some _ => []
  | none =>
    match t with
    | .apply _ f [rhs] =>
      if isShortcircuit st f then
        (shortcuts rhs).map (0 :: ·) ++ if (tailCalls m st rhs).isEmpty then [] else [[]]
      else []
    | .ifElse _ _ thenp elsep =>
      (shortcuts thenp).map (1 :: ·) ++ (shortcuts elsep).map (2 :: ·)
    | .block _ _ e => (shortcuts e).map (0 :: ·)
    | .typed _ e => (shortcuts e).map (0 :: ·)
    | .matchOn _ _ cases => shortcutsOfCases cases 0
    | _ => []

def shortcutsOfCases (cases : Cases) (k : ℕ) : List Node :=
  match cases with
  | .nil => []
  | .cons _ _ body rest => (shortcuts body).map (k :: ·) ++ shortcutsOfCases rest (k + 1)

end

variable {m st}

section
attribute [local simp] tailCalls shortcuts collect
end

@[simp] theorem tailCalls_ifElse (i : TypedTrees.Info) (c thenp elsep : Tree) :
    tailCalls m st (.ifElse i c thenp elsep) =
      under 1 (tailCalls m st thenp) ++ under 2 (tailCalls m st elsep) := by
  rw [tailCalls]
  rfl

@[simp] theorem tailCalls_block (i : TypedTrees.Info) (stats : List Tree) (e : Tree) :
    tailCalls m st (.block i stats e) = under 0 (tailCalls m st e) := by
  rw [tailCalls]
  rfl

@[simp] theorem tailCalls_typed (i : TypedTrees.Info) (e : Tree) :
    tailCalls m st (.typed i e) = under 0 (tailCalls m st e) := by
  rw [tailCalls]
  rfl

@[simp] theorem tailCalls_matchOn (i : TypedTrees.Info) (s : Tree) (cases : Cases) :
    tailCalls m st (.matchOn i s cases) = tailCallsOfCases m st cases 0 := by
  rw [tailCalls]
  rfl

@[simp] theorem shortcuts_ifElse (i : TypedTrees.Info) (c thenp elsep : Tree) :
    shortcuts m st (.ifElse i c thenp elsep) =
      (shortcuts m st thenp).map (1 :: ·) ++ (shortcuts m st elsep).map (2 :: ·) := by
  rw [shortcuts]
  rfl

@[simp] theorem shortcuts_block (i : TypedTrees.Info) (stats : List Tree) (e : Tree) :
    shortcuts m st (.block i stats e) = (shortcuts m st e).map (0 :: ·) := by
  rw [shortcuts]
  rfl

@[simp] theorem shortcuts_typed (i : TypedTrees.Info) (e : Tree) :
    shortcuts m st (.typed i e) = (shortcuts m st e).map (0 :: ·) := by
  rw [shortcuts]
  rfl

@[simp] theorem shortcuts_matchOn (i : TypedTrees.Info) (s : Tree) (cases : Cases) :
    shortcuts m st (.matchOn i s cases) = shortcutsOfCases m st cases 0 := by
  rw [shortcuts]
  rfl

theorem tailCalls_apply {i : TypedTrees.Info} {f rhs : Tree}
    (hcall : call m (.apply i f [rhs]) = none) : tailCalls m st (.apply i f [rhs]) =
      if isShortcircuit st f then under 0 (tailCalls m st rhs) else [] := by
  rw [tailCalls, hcall]

theorem shortcuts_apply {i : TypedTrees.Info} {f rhs : Tree}
    (hcall : call m (.apply i f [rhs]) = none) : shortcuts m st (.apply i f [rhs]) =
      if isShortcircuit st f then
        (shortcuts m st rhs).map (0 :: ·) ++ if (tailCalls m st rhs).isEmpty then [] else [[]]
      else [] := by
  rw [shortcuts, hcall]

/-- What `collect` adds below a node. -/
def Found.add (found : Found) (p : Node) (calls : List SelfCall) (shortcut : List Node) : Found :=
  ⟨found.calls ++ calls.map fun c => p ++ c.1, found.shortcut ++ shortcut.map (p ++ ·)⟩

theorem Found.add_under (found : Found) (p : Node) (k : ℕ) (calls : List SelfCall)
    (shortcut : List Node) :
    found.add (p ++ [k]) calls shortcut = found.add p (under k calls) (shortcut.map (k :: ·)) := by
  simp [Found.add, under, Function.comp_def]

theorem Found.add_add (found : Found) (p : Node) (calls calls' : List SelfCall)
    (shortcut shortcut' : List Node) :
    (found.add p calls shortcut).add p calls' shortcut' =
      found.add p (calls ++ calls') (shortcut ++ shortcut') := by
  simp [Found.add]

mutual

theorem collect_eq (t : Tree) (p : Node) (found : Found) :
    collect m st t p found = found.add p (tailCalls m st t) (shortcuts m st t) := by
  unfold collect tailCalls shortcuts
  cases hcall : call m t with
  | some c => simp [Found.add]
  | none =>
      simp only [Option.isSome_none, Bool.false_eq_true, if_false]
      cases t with
      | apply i f args =>
          match args with
          | [rhs] =>
              simp only []
              rw [collect_eq rhs]
              split
              · cases hcalls : tailCalls m st rhs with
                | nil => simp [Found.add, under, Function.comp_def]
                | cons c calls => simp [Found.add, under, Function.comp_def]
              · simp [Found.add]
          | [] | _ :: _ :: _ => simp [Found.add]
      | ifElse i c thenp elsep =>
          simp only []
          rw [collect_eq thenp, collect_eq elsep, Found.add_under, Found.add_under, Found.add_add]
      | block i stats e => 
          simp only []
          rw [collect_eq e, Found.add_under]
      | typed i e =>
          simp only []
          rw [collect_eq e, Found.add_under]
      | matchOn i s cases => exact collectCases_eq cases p 0 found
      | _ => simp [Found.add]

theorem collectCases_eq (cases : Cases) (p : Node) (k : ℕ) (found : Found) :
    collectCases m st cases p k found =
      found.add p (tailCallsOfCases m st cases k) (shortcutsOfCases m st cases k) := by
  cases cases with
  | nil => simp [collectCases, tailCallsOfCases, shortcutsOfCases, Found.add]
  | cons pat guard body rest =>
      rw [collectCases, tailCallsOfCases, shortcutsOfCases, collectCases_eq rest, collect_eq body,
        Found.add_under, Found.add_add]

end

theorem mem_under {k : ℕ} {calls : List SelfCall} {n : Node} :
    (∃ c ∈ under k calls, c.1 = n) ↔ ∃ r, n = k :: r ∧ ∃ c ∈ calls, c.1 = r := by
  constructor
  · intro ⟨c, hc, hn⟩
    obtain ⟨d, hd, rfl⟩ := List.mem_map.mp hc
    exact ⟨d.1, hn.symm, d, hd, rfl⟩
  · intro ⟨r, hn, c, hc, hr⟩
    exact ⟨(k :: c.1, c.2), List.mem_map.mpr ⟨c, hc, rfl⟩, by rw [hn, hr]⟩

theorem cons_mem_under {k j : ℕ} {calls : List SelfCall} {r : Node} :
    (∃ c ∈ under k calls, c.1 = j :: r) ↔ j = k ∧ ∃ c ∈ calls, c.1 = r := by
  rw [mem_under]
  constructor
  · intro ⟨r', hr, hc⟩
    cases hr
    exact ⟨rfl, hc⟩
  · intro ⟨hj, hc⟩
    exact ⟨r, by rw [hj], hc⟩

theorem exists_mem_append {calls calls' : List SelfCall} {n : Node} :
    (∃ c ∈ calls ++ calls', c.1 = n) ↔ (∃ c ∈ calls, c.1 = n) ∨ ∃ c ∈ calls', c.1 = n := by
  constructor
  · intro ⟨c, hc, hn⟩
    cases List.mem_append.mp hc with
    | inl h => exact .inl ⟨c, h, hn⟩
    | inr h => exact .inr ⟨c, h, hn⟩
  · intro h
    cases h with
    | inl h =>
        obtain ⟨c, hc, hn⟩ := h
        exact ⟨c, List.mem_append_left _ hc, hn⟩
    | inr h =>
        obtain ⟨c, hc, hn⟩ := h
        exact ⟨c, List.mem_append_right _ hc, hn⟩

theorem cons_mem_map {k j : ℕ} {nodes : List Node} {r : Node} :
    j :: r ∈ nodes.map (k :: ·) ↔ j = k ∧ r ∈ nodes := by
  simp [eq_comm, and_comm]

theorem case_le_call (cases : Cases) {k j : ℕ} {r : Node}
    (h : ∃ c ∈ tailCallsOfCases m st cases k, c.1 = j :: r) : k ≤ j := by
  cases cases with
  | nil =>
      obtain ⟨c, hc, -⟩ := h
      cases hc
  | cons pat guard body rest =>
      rw [tailCallsOfCases, exists_mem_append, cons_mem_under] at h
      cases h with
      | inl h => exact h.1.ge
      | inr h => exact (Nat.le_succ k).trans (case_le_call rest h)

theorem case_le_shortcut (cases : Cases) {k j : ℕ} {r : Node}
    (h : j :: r ∈ shortcutsOfCases m st cases k) : k ≤ j := by
  cases cases with
  | nil => cases h
  | cons pat guard body rest =>
      rw [shortcutsOfCases, List.mem_append, cons_mem_map] at h
      cases h with
      | inl h => exact h.1.ge
      | inr h => exact (Nat.le_succ k).trans (case_le_shortcut rest h)

/-! ## The nodes where the code is emitted -/

/-- The loop has recorded the calls below a node of the body. -/
structure Sees (lp : TailLoop) (p : Node) (calls : List SelfCall) (shortcut : List Node) : Prop where
  calls : ∀ r, p ++ r ∈ lp.calls ↔ ∃ c ∈ calls, c.1 = r
  shortcut : ∀ r, p ++ r ∈ lp.shortcut ↔ r ∈ shortcut

/-- The same below the children of a node from one on. -/
structure SeesFrom (lp : TailLoop) (p : Node) (k : ℕ) (calls : List SelfCall)
    (shortcut : List Node) : Prop where
  calls : ∀ j r, k ≤ j → (p ++ j :: r ∈ lp.calls ↔ ∃ c ∈ calls, c.1 = j :: r)
  shortcut : ∀ j r, k ≤ j → (p ++ j :: r ∈ lp.shortcut ↔ j :: r ∈ shortcut)

theorem beginTailLoop_eq_loop {rhs : Tree} {lp : TailLoop}
    (h : beginTailLoop m st rhs = .loop lp) :
    let found := collect m st rhs [] ⟨[], []⟩
    lp = ⟨found.calls, found.shortcut, lp.params, m.types, annotated m⟩ ∧
      lp.params.length = m.types.length := by
  have hunsupported : unsupported m ≠ .loop lp := by
    unfold unsupported
    split <;> exact nofun
  unfold beginTailLoop at h
  simp only [] at h
  split_ifs at h
  · exact absurd h hunsupported
  · exact absurd h hunsupported
  · split at h
    · exact absurd h hunsupported
    · rename_i params _
      split_ifs at h with hlength
      · exact absurd h hunsupported
      · cases h
        exact ⟨rfl, not_not.mp hlength⟩

theorem sees_root {rhs : Tree} {lp : TailLoop} (h : beginTailLoop m st rhs = .loop lp) :
    Sees lp [] (tailCalls m st rhs) (shortcuts m st rhs) := by
  rw [(beginTailLoop_eq_loop h).1, collect_eq]
  constructor
  · intro r
    simp [Found.add]
  · intro r
    simp [Found.add]

variable {lp : TailLoop} {p : Node} {calls calls' : List SelfCall} {s s' : List Node}

theorem Sees.from (h : Sees lp p calls s) (k : ℕ) : SeesFrom lp p k calls s :=
  ⟨fun j r _ => h.calls (j :: r), fun j r _ => h.shortcut (j :: r)⟩

/-- The first of the children, whose calls are not those of the others. -/
theorem SeesFrom.child {k : ℕ} (h : SeesFrom lp p k (under k calls ++ calls') (s.map (k :: ·) ++ s'))
    (hcalls : ∀ r, ¬ ∃ c ∈ calls', c.1 = k :: r) (hshort : ∀ r, k :: r ∉ s') :
    Sees lp (p ++ [k]) calls s := by
  constructor
  · intro r
    rw [List.append_assoc, List.singleton_append, h.calls k r le_rfl, exists_mem_append,
      cons_mem_under]
    simp [hcalls r]
  · intro r
    rw [List.append_assoc, List.singleton_append, h.shortcut k r le_rfl, List.mem_append,
      cons_mem_map]
    simp [hshort r]

theorem SeesFrom.others {k : ℕ}
    (h : SeesFrom lp p k (under k calls ++ calls') (s.map (k :: ·) ++ s')) :
    SeesFrom lp p (k + 1) calls' s' := by
  constructor
  · intro j r hj
    rw [h.calls j r (by omega), exists_mem_append, cons_mem_under]
    simp [show j ≠ k by omega]
  · intro j r hj
    rw [h.shortcut j r (by omega), List.mem_append, cons_mem_map]
    simp [show j ≠ k by omega]

/-- The only child that is looked into. -/
theorem Sees.only {k : ℕ} (h : Sees lp p (under k calls) (s.map (k :: ·))) :
    Sees lp (p ++ [k]) calls s := by
  have hfrom := h.from k
  rw [← List.append_nil (under k calls), ← List.append_nil (s.map _)] at hfrom
  apply hfrom.child
  · intro r hc
    obtain ⟨c, hc, -⟩ := hc
    cases hc
  · intro r hr
    cases hr

theorem Sees.thenp (h : Sees lp p (under 1 calls ++ under 2 calls')
    (s.map (1 :: ·) ++ s'.map (2 :: ·))) : Sees lp (p ++ [1]) calls s := by
  apply (h.from 1).child
  · intro r hc
    exact absurd (cons_mem_under.mp hc).1 (by omega)
  · intro r hr
    exact absurd (cons_mem_map.mp hr).1 (by omega)

theorem Sees.elsep (h : Sees lp p (under 1 calls ++ under 2 calls')
    (s.map (1 :: ·) ++ s'.map (2 :: ·))) : Sees lp (p ++ [2]) calls' s' := by
  have hfrom := (h.from 1).others
  rw [← List.append_nil (under 2 calls'), ← List.append_nil (s'.map _)] at hfrom
  apply hfrom.child
  · intro r hc
    obtain ⟨c, hc, -⟩ := hc
    cases hc
  · intro r hr
    cases hr

theorem SeesFrom.body {k : ℕ} {body : Tree} {rest : Cases}
    (h : SeesFrom lp p k (under k (tailCalls m st body) ++ tailCallsOfCases m st rest (k + 1))
      ((shortcuts m st body).map (k :: ·) ++ shortcutsOfCases m st rest (k + 1))) :
    Sees lp (p ++ [k]) (tailCalls m st body) (shortcuts m st body) := by
  apply h.child
  · intro r hc
    have := case_le_call rest hc
    omega
  · intro r hr
    have := case_le_shortcut rest hr
    omega

/-- The right operand of a shortcut. -/
theorem Sees.operand {i : TypedTrees.Info} {f rhs : Tree}
    (h : Sees lp p (tailCalls m st (.apply i f [rhs])) (shortcuts m st (.apply i f [rhs])))
    (hcall : call m (.apply i f [rhs]) = none) (hshort : isShortcircuit st f = true) :
    Sees lp (p ++ [0]) (tailCalls m st rhs) (shortcuts m st rhs) := by
  rw [tailCalls_apply hcall, shortcuts_apply hcall, if_pos hshort, if_pos hshort] at h
  have hfrom := h.from 0
  rw [← List.append_nil (under 0 _)] at hfrom
  apply hfrom.child
  · intro r hc
    obtain ⟨c, hc, -⟩ := hc
    cases hc
  · intro r hr
    split at hr <;> simp at hr

/-- A shortcut that was recorded has one operand, with a self call in it. -/
theorem Sees.shortcut_operand {i : TypedTrees.Info} {f rhs : Tree} {rest : List Tree}
    (h : Sees lp p (tailCalls m st (.apply i f (rhs :: rest)))
      (shortcuts m st (.apply i f (rhs :: rest))))
    (hcall : call m (.apply i f (rhs :: rest)) = none) (hmem : lp.shortcut.contains p = true) :
    rest = [] ∧ isShortcircuit st f = true ∧ (tailCalls m st rhs).isEmpty = false := by
  rw [List.contains_iff_mem, ← List.append_nil p, h.shortcut] at hmem
  cases rest with
  | nil =>
      rw [shortcuts_apply hcall] at hmem
      cases hshort : isShortcircuit st f with
      | false => simp [hshort] at hmem
      | true =>
          cases hcalls : (tailCalls m st rhs).isEmpty with
          | true => simp [hshort, hcalls] at hmem
          | false => exact ⟨rfl, rfl, rfl⟩
  | cons second rest =>
      unfold shortcuts at hmem
      rw [hcall] at hmem
      cases hmem

variable {ctx : EmitCtx} {t : Tree}

theorem tailCalls_of_call {c : Tree × List Tree} (h : call m t = some c) :
    tailCalls m st t = [([], c)] := by
  unfold tailCalls
  rw [h]

theorem shortcuts_of_call {c : Tree × List Tree} (h : call m t = some c) :
    shortcuts m st t = [] := by
  unfold shortcuts
  rw [h]

theorem jumpAt_eq_some {code : Code} (h : jumpAt m ctx lp t p = some code) :
    ∃ f args, call m t = some (f, args) ∧ args.length = lp.params.length ∧
      code = .jump p (receiverOf f) (genCallArgs ctx (selfCall m lp) args) := by
  unfold jumpAt at h
  split_ifs at h
  split at h
  · rename_i f args hcall
    split_ifs at h with hargs
    cases h
    exact ⟨f, args, hcall, hargs, rfl⟩
  · cases h

/-- A recorded call is emitted as a jump if it has an argument for each parameter. -/
theorem Sees.jumpAt (h : Sees lp p (tailCalls m ctx.st t) (shortcuts m ctx.st t)) :
    jumpAt m ctx lp t p = match call m t with
      | some (f, args) =>
        if args.length = lp.params.length then
          some (.jump p (receiverOf f) (genCallArgs ctx (selfCall m lp) args))
        else none
      | none => none := by
  unfold TailCalls.jumpAt
  cases hcall : call m t with
  | none => simp
  | some c =>
      have hcalls : p ∈ lp.calls := by
        rw [← List.append_nil p, h.calls, tailCalls_of_call hcall]
        exact ⟨_, List.mem_singleton_self _, rfl⟩
      have hshort : p ∉ lp.shortcut := by
        rw [← List.append_nil p, h.shortcut, shortcuts_of_call hcall]
        exact List.not_mem_nil
      simp [hcalls, hshort]

theorem Sees.mem_shortcut {i : TypedTrees.Info} {f rhs : Tree}
    (h : Sees lp p (tailCalls m st (.apply i f [rhs])) (shortcuts m st (.apply i f [rhs])))
    (hcall : call m (.apply i f [rhs]) = none) :
    lp.shortcut.contains p = (isShortcircuit st f && !(tailCalls m st rhs).isEmpty) := by
  have hmem := h.shortcut []
  rw [List.append_nil, shortcuts, hcall] at hmem
  rw [Bool.eq_iff_iff, List.contains_iff_mem, hmem]
  cases isShortcircuit st f with
  | false => simp
  | true => cases (tailCalls m st rhs).isEmpty <;> simp

/-! ## The jumps of a method -/

mutual

/-- The jumps in the code, each with the receiver it stores. -/
def jumps : Code → List (Node × Option Tree)
  | .value _ => []
  | .ifElse _ thenp elsep => jumps thenp ++ jumps elsep
  | .block _ e => jumps e
  | .matchOn _ _ bodies => jumpsOfBodies bodies
  | .boolAnd _ right => jumps right
  | .boolOr _ right => jumps right
  | .jump node receiver _ => [(node, receiver)]

def jumpsOfBodies : Codes → List (Node × Option Tree)
  | .nil => []
  | .cons body rest => jumps body ++ jumpsOfBodies rest

end

mutual

/-- A call is pending as long as it is not emitted as a jump. -/
theorem mem_pending (t : Tree) (p : Node) (pending : List Node) (q : Node) :
    q ∈ (genExpr m ctx lp t p pending).2 ↔
      q ∈ pending ∧ ∀ j ∈ jumps (genExpr m ctx lp t p pending).1, j.1 ≠ q := by
  unfold genExpr
  cases hjump : TailCalls.jumpAt m ctx lp t p with
  | some code =>
      obtain ⟨f, args, -, -, rfl⟩ := jumpAt_eq_some hjump
      simp only [jumps, List.forall_mem_singleton, List.mem_filter, bne_iff_ne]
      rw [ne_comm]
  | none =>
      cases t with
      | ifElse i c thenp elsep =>
          simp only [jumps, List.forall_mem_append]
          rw [mem_pending elsep, mem_pending thenp, and_assoc]
      | block i stats e => exact mem_pending e _ _ _
      | typed i e => exact mem_pending e _ _ _
      | matchOn i s cases => exact mem_pendingCases cases _ _ _ _
      | apply i f args =>
          cases f with
          | select fi qual n =>
              cases args with
              | nil => simp [jumps]
              | cons rhs rest =>
                  simp only []
                  split
                  · have hrhs := mem_pending rhs (p ++ [0]) pending q
                    cases (ctx.st.get fi.sym).intrinsic with
                    | boolAnd | boolOr => exact hrhs
                    | _ => simp [jumps]
                  · simp [jumps]
          | _ => simp [jumps]
      | _ => simp [jumps]

theorem mem_pendingCases (cases : Cases) (p : Node) (k : ℕ) (pending : List Node) (q : Node) :
    q ∈ (genCases m ctx lp cases p k pending).2 ↔
      q ∈ pending ∧ ∀ j ∈ jumpsOfBodies (genCases m ctx lp cases p k pending).1, j.1 ≠ q := by
  cases cases with
  | nil => simp [genCases, jumpsOfBodies]
  | cons pat guard body rest =>
      simp only [genCases, jumpsOfBodies, List.forall_mem_append]
      rw [mem_pendingCases rest, mem_pending body, and_assoc]

end

theorem genExpr_of_jump {code : Code} (hjump : TailCalls.jumpAt m ctx lp t p = some code)
    (pending : List Node) :
    genExpr m ctx lp t p pending = (code, pending.filter (· != p)) := by
  unfold genExpr
  rw [hjump]

/-- A self call that has no jump is left as it is. -/
theorem genExpr_of_call {c : Tree × List Tree} (hcall : call m t = some c)
    (h : Sees lp p (tailCalls m ctx.st t) (shortcuts m ctx.st t))
    (hjump : TailCalls.jumpAt m ctx lp t p = none) (pending : List Node) :
    genExpr m ctx lp t p pending = (.value t, pending) := by
  have hshort : lp.shortcut.contains p = false := by
    rw [Bool.eq_false_iff, ne_eq, List.contains_iff_mem, ← List.append_nil p, h.shortcut,
      shortcuts_of_call hcall]
    exact List.not_mem_nil
  unfold genExpr
  rw [hjump]
  cases t with
  | apply i f args =>
      cases f with
      | select fi qual n =>
          cases args with
          | nil => rfl
          | cons rhs rest => simp only [hshort, Bool.false_eq_true, if_false]
      | _ => rfl
  | ident i n | select i q n => rfl
  | _ => cases hcall

mutual

/-- A jump is emitted for a call that was found, with the receiver of that call. -/
theorem jumps_of_calls (t : Tree) (p : Node) (pending : List Node)
    (h : Sees lp p (tailCalls m ctx.st t) (shortcuts m ctx.st t)) :
    ∀ j ∈ jumps (genExpr m ctx lp t p pending).1,
      ∃ c ∈ tailCalls m ctx.st t, j.2 = receiverOf c.2.1 ∧ c.2.2.length = lp.params.length := by
  have hbelow {k : ℕ} {calls : List SelfCall} {j : Node × Option Tree}
      (hj : ∃ c ∈ calls, j.2 = receiverOf c.2.1 ∧ c.2.2.length = lp.params.length) :
      ∃ c ∈ under k calls, j.2 = receiverOf c.2.1 ∧ c.2.2.length = lp.params.length := by
    obtain ⟨c, hc, hj⟩ := hj
    exact ⟨(k :: c.1, c.2), List.mem_map.mpr ⟨c, hc, rfl⟩, hj⟩
  cases hjump : TailCalls.jumpAt m ctx lp t p with
  | some code =>
      rw [genExpr_of_jump hjump]
      obtain ⟨f, args, hcall, hargs, rfl⟩ := jumpAt_eq_some hjump
      rw [tailCalls_of_call hcall]
      simpa [jumps] using hargs
  | none =>
      cases hcall : call m t with
      | some c =>
          rw [genExpr_of_call hcall h hjump]
          simp [jumps]
      | none =>
          unfold genExpr
          rw [hjump]
          cases t with
          | ifElse i c thenp elsep =>
              rw [tailCalls_ifElse, shortcuts_ifElse] at h
              rw [tailCalls_ifElse]
              intro j hj
              cases List.mem_append.mp hj with
              | inl hj =>
                  obtain ⟨c, hc, heq⟩ := hbelow (jumps_of_calls thenp _ _ h.thenp j hj)
                  exact ⟨c, List.mem_append_left _ hc, heq⟩
              | inr hj =>
                  obtain ⟨c, hc, heq⟩ := hbelow (jumps_of_calls elsep _ _ h.elsep j hj)
                  exact ⟨c, List.mem_append_right _ hc, heq⟩
          | block i stats e =>
              rw [tailCalls_block, shortcuts_block] at h
              rw [tailCalls_block]
              intro j hj
              exact hbelow (jumps_of_calls e _ _ h.only j hj)
          | typed i e =>
              rw [tailCalls_typed, shortcuts_typed] at h
              rw [tailCalls_typed]
              intro j hj
              exact hbelow (jumps_of_calls e _ _ h.only j hj)
          | matchOn i s cases =>
              rw [tailCalls_matchOn, shortcuts_matchOn] at h
              rw [tailCalls_matchOn]
              exact jumps_of_callsOfCases cases p 0 pending (h.from 0)
          | apply i f args =>
              cases f with
              | select fi qual n =>
                  match args with
                  | [] => simp [jumps]
                  | rhs :: rest => 
                      simp only []
                      split
                      · rename_i hmem
                        obtain ⟨rfl, hshort, -⟩ := h.shortcut_operand hcall hmem
                        have hsees := h.operand hcall hshort
                        rw [tailCalls_apply hcall, if_pos hshort]
                        cases (ctx.st.get fi.sym).intrinsic with
                        | boolAnd | boolOr =>
                            intro j hj
                            exact hbelow (jumps_of_calls rhs _ _ hsees j hj)
                        | _ => simp [jumps]
                      · simp [jumps]
              | _ => simp [jumps]
          | _ => simp [jumps]

theorem jumps_of_callsOfCases (cases : Cases) (p : Node) (k : ℕ) (pending : List Node)
    (h : SeesFrom lp p k (tailCallsOfCases m ctx.st cases k) (shortcutsOfCases m ctx.st cases k)) :
    ∀ j ∈ jumpsOfBodies (genCases m ctx lp cases p k pending).1,
      ∃ c ∈ tailCallsOfCases m ctx.st cases k,
        j.2 = receiverOf c.2.1 ∧ c.2.2.length = lp.params.length := by
  cases cases with
  | nil => simp [genCases, jumpsOfBodies]
  | cons pat guard body rest =>
      rw [tailCallsOfCases, shortcutsOfCases] at h
      rw [tailCallsOfCases]
      intro j hj
      cases List.mem_append.mp hj with
      | inl hj =>
          obtain ⟨c, hc, heq⟩ := jumps_of_calls body _ _ h.body j hj
          exact ⟨(k :: c.1, c.2), List.mem_append_left _ (List.mem_map.mpr ⟨c, hc, rfl⟩), heq⟩
      | inr hj =>
          obtain ⟨c, hc, heq⟩ := jumps_of_callsOfCases rest _ _ _ h.others j hj
          exact ⟨c, List.mem_append_right _ hc, heq⟩

end

end ScalaRs.TailCalls
