import ScalaRs.TailCallNodes
import ScalaRs.TailCallSteps

/-! # The loop of a tail recursive method

The code that jumps back returns what the recursive method returns, with the same effects. -/
namespace ScalaRs.TailCalls
open Unification (Ty SymbolId)
open TypedTrees (Tree Cases noSymbol)
open CallArguments RecursionAsLoops

variable {V X σ : Type}

namespace Machine

variable {ctx : EmitCtx} {m : Method} (M : Machine ctx m V X σ) {lp : TailLoop}

/-! ## Calls of the method -/

/-- A call as a computation. -/
def calling (g : Invoke V X σ) (a : Args V) : Eval X σ V := ExceptT.mk fun s => g (a, s)

variable (lp) in
/-- A procedure that reads no more of its arguments than the body does, and whose returns are
caught. -/
structure Acts (g : Invoke V X σ) : Prop where
  reads : ∀ a b s, M.scopeOf lp a = M.scopeOf lp b → g (a, s) = g (b, s)
  caught : ∀ a s r s', g (a, s) = some (r, s') → M.caught (M.scopeOf lp a).this r = r

theorem caught_caught (this : V) (r : Except X V) :
    M.caught this (M.caught this r) = M.caught this r := by
  cases r with
  | ok v => rfl
  | error x =>
      unfold caught
      cases m.catchesReturns with
      | false => simp
      | true =>
          cases hx : M.returned this x with
          | none => simp [hx]
          | some v => simp [hx]

theorem acts_plain (onNull : OnNull) (rhs : Tree) (n : ℕ) :
    M.Acts lp (plain (M.plainMethod lp onNull rhs) n) := by
  cases n with
  | zero =>
      constructor
      · intro a b s _
        rfl
      · intro a s r s' h
        cases h
  | succ n =>
      constructor
      · intro a b s hscope
        simp only [plain, plainMethod, hscope]
      · intro a s r s' h
        obtain ⟨x, -, hx⟩ := Option.map_eq_some_iff.mp h
        cases hx
        exact M.caught_caught _ _

variable {g : Invoke V X σ}

theorem callMethod_enter (checked : Bool) (a : Args V) :
    M.callMethod g .enter checked a = calling g a := by
  unfold callMethod calling
  split <;> rfl

variable (lp) in
/-- What the recursive method does after one run through the loop. -/
def continueWith (g : Invoke V X σ) : V ⊕ Frame V → Eval X σ V
  | .inl v => pure v
  | .inr fr => calling g (M.frameArgs lp fr)

theorem callSelf_eq (hl : Laid m lp) (hg : M.Acts lp g) {f : Tree} {args : List Tree}
    (hargs : args.length = lp.types.length) (h : CallSafe ctx m lp f args) (fr : Frame V)
    (locals : Locals V) (p : Node) :
    M.callSelf g lp .enter f args (M.frameScope lp fr locals) =
      M.execCode g lp fr (.jump p (receiverOf f) (genCallArgs ctx (selfCall m lp) args)) locals >>=
        M.continueWith lp g := by
  unfold callSelf
  simp only [M.callMethod_enter, execCode, bind_map_left, continueWith]
  exact M.jump_spec g hl hargs h (fun a b hab => funext fun s => hg.reads a b s hab) fr locals

/-! ## The body -/

theorem value_bind (x : Eval X σ V) :
    (Sum.inl <$> x) >>= M.continueWith lp g = x := by
  simp [continueWith]

variable (ctx m) in
/-- The calls that become jumps can be made so. -/
def CallsSafe (lp : TailLoop) (calls : List SelfCall) : Prop :=
  ∀ c ∈ calls, c.2.2.length = lp.types.length → CallSafe ctx m lp c.2.1 c.2.2

theorem CallsSafe.below {k : ℕ} {calls : List SelfCall}
    (h : CallsSafe ctx m lp (under k calls)) :
    CallsSafe ctx m lp calls :=
  fun c hc => h (k :: c.1, c.2) (List.mem_map.mpr ⟨c, hc, rfl⟩)

mutual

theorem plainEval_eq (hl : Laid m lp) (hg : M.Acts lp g) (t : Tree) (p : Node)
    (pending : List Node) (h : Sees lp p (tailCalls m ctx.st t) (shortcuts m ctx.st t))
    (hsafe : CallsSafe ctx m lp (tailCalls m ctx.st t)) (fr : Frame V)
    (locals : Locals V) :
    M.plainEval g lp .enter t (M.frameScope lp fr locals) =
      M.execCode g lp fr (genExpr m ctx lp t p pending).1 locals >>=
        M.continueWith lp g := by
  have hjump := h.jumpAt
  cases hcall : call m t with
  | some c =>
      obtain ⟨f, args⟩ := c
      rw [tailCalls_of_call hcall] at hsafe
      rw [hcall] at hjump
      simp only [hl.length] at hjump
      unfold plainEval
      rw [hcall]
      simp only []
      by_cases hargs : args.length = lp.types.length
      · rw [if_pos hargs] at hjump
        rw [if_pos hargs, genExpr_of_jump hjump]
        exact M.callSelf_eq hl hg hargs (hsafe _ (List.mem_singleton_self _) hargs) fr locals p
      · rw [if_neg hargs] at hjump
        rw [if_neg hargs, genExpr_of_call hcall h hjump, execCode, M.value_bind]
  | none =>
      rw [hcall] at hjump
      unfold genExpr
      rw [hjump]
      cases t with
      | ifElse i c thenp elsep =>
          rw [tailCalls_ifElse] at h hsafe
          rw [shortcuts_ifElse] at h
          have hthen := plainEval_eq hl hg thenp _ pending h.thenp
            (CallsSafe.below fun c hc => hsafe c (List.mem_append_left _ hc)) fr locals
          have helse := fun pending => plainEval_eq hl hg elsep _ pending h.elsep
            (CallsSafe.below fun c hc => hsafe c (List.mem_append_right _ hc)) fr locals
          unfold plainEval
          change M.eval g c _ >>= _ = _
          simp only [execCode, bind_assoc]
          congr 1
          funext v
          split
          · exact hthen
          · exact helse _
      | block i stats e =>
          rw [tailCalls_block] at h hsafe
          rw [shortcuts_block] at h
          have he := plainEval_eq hl hg e _ pending h.only hsafe.below fr
          unfold plainEval
          change M.stats g _ stats >>= _ = _
          simp only [execCode, bind_assoc]
          congr 1
          funext locals'
          exact he locals'
      | typed i e =>
          rw [tailCalls_typed] at h hsafe
          rw [shortcuts_typed] at h
          have he := plainEval_eq hl hg e _ pending h.only hsafe.below fr locals
          unfold plainEval
          exact he
      | matchOn i s cases =>
          rw [tailCalls_matchOn] at h hsafe
          rw [shortcuts_matchOn] at h
          have hcases := plainCase_eq hl hg cases p 0 pending (h.from 0) hsafe
          unfold plainEval
          change M.choose g s cases _ >>= _ = _
          simp only [execCode, bind_assoc]
          congr 1
          funext x
          exact hcases x.1 fr x.2
      | apply i f args =>
          cases f with
          | select fi qual n =>
              cases args with
              | nil =>
                  unfold plainEval
                  rw [hcall]
                  exact (M.value_bind _).symm
              | cons rhs rest =>
                  simp only []
                  cases hmem : lp.shortcut.contains p with
                  | true =>
                      obtain ⟨rfl, hshort, hcalls⟩ := h.shortcut_operand hcall hmem
                      rw [tailCalls_apply hcall, if_pos hshort] at hsafe
                      have hrhs := plainEval_eq hl hg rhs _ pending (h.operand hcall hshort)
                        hsafe.below fr locals
                      have hkind : (ctx.st.get fi.sym).intrinsic = .boolAnd ∨
                          (ctx.st.get fi.sym).intrinsic = .boolOr := by
                        simp only [isShortcircuit, Bool.and_eq_true, Bool.or_eq_true,
                          beq_iff_eq] at hshort
                        exact hshort.2
                      unfold plainEval
                      rw [hcall]
                      simp only [hshort, hcalls, Bool.not_false, Bool.and_self, if_true]
                      cases hkind with
                      | inl hkind =>
                          simp only [hkind, execCode, bind_assoc, beq_self_eq_true]
                          congr 1
                          funext v
                          cases M.isTrue v with
                          | true => exact hrhs
                          | false => rfl
                      | inr hkind =>
                          simp only [hkind, execCode, bind_assoc]
                          congr 1
                          funext v
                          cases M.isTrue v with
                          | true => rfl
                          | false => exact hrhs
                  | false =>
                      unfold plainEval
                      rw [hcall]
                      cases rest with
                      | nil =>
                          rw [h.mem_shortcut hcall] at hmem
                          simp only [hmem, Bool.false_eq_true, if_false]
                          exact (M.value_bind _).symm
                      | cons second rest => exact (M.value_bind _).symm
          | _ =>
              unfold plainEval
              rw [hcall]
              exact (M.value_bind _).symm
      | _ =>
          unfold plainEval
          rw [hcall]
          exact (M.value_bind _).symm

theorem plainCase_eq (hl : Laid m lp) (hg : M.Acts lp g) (cases : Cases) (p : Node) (k : ℕ)
    (pending : List Node) (h : SeesFrom lp p k (tailCallsOfCases m ctx.st cases k)
      (shortcutsOfCases m ctx.st cases k))
    (hsafe : CallsSafe ctx m lp (tailCallsOfCases m ctx.st cases k)) (n : ℕ)
    (fr : Frame V) (locals : Locals V) :
    M.plainCase g lp .enter cases n (M.frameScope lp fr locals) =
      M.execNth g lp fr (genCases m ctx lp cases p k pending).1 n locals >>=
        M.continueWith lp g := by
  cases cases with
  | nil => rfl
  | cons pat guard body rest =>
      rw [tailCallsOfCases] at h hsafe
      rw [shortcutsOfCases] at h
      cases n with
      | zero =>
          exact plainEval_eq hl hg body _ pending h.body
            (CallsSafe.below fun c hc => hsafe c (List.mem_append_left _ hc)) fr locals
      | succ n =>
          exact plainCase_eq hl hg rest p (k + 1) _ h.others
            (fun c hc => hsafe c (List.mem_append_right _ hc)) n fr locals

end

/-! ## The receiver of the loop -/

mutual

/-- Where no jump stores a receiver, `this` stays the same. -/
theorem execCode_this (hl : Laid m lp) {code : Code} (h : ∀ j ∈ jumps code, j.2 = none)
    {fr fr' : Frame V} {locals : Locals V} {s s' : σ}
    (hrun : (M.execCode g lp fr code locals).run.run s = some (.ok (.inr fr'), s')) :
    (M.frameScope lp fr' fun _ => none).this = (M.frameScope lp fr fun _ => none).this := by
  cases code with
  | value t =>
      obtain ⟨v, -, hv⟩ := run_map_eq_ok.mp hrun
      cases hv
  | ifElse c thenp elsep =>
      obtain ⟨hthen, helse⟩ := List.forall_mem_append.mp h
      obtain ⟨v, t, -, hrest⟩ := run_bind_eq_ok.mp hrun
      split at hrest
      · exact execCode_this hl hthen hrest
      · exact execCode_this hl helse hrest
  | block stats e =>
      obtain ⟨locals', t, -, hrest⟩ := run_bind_eq_ok.mp hrun
      have he : ∀ j ∈ jumps e, j.2 = none := h
      exact execCode_this hl he hrest
  | matchOn sel cases bodies =>
      obtain ⟨x, t, -, hrest⟩ := run_bind_eq_ok.mp hrun
      exact execNth_this hl h hrest
  | boolAnd left right =>
      obtain ⟨v, t, -, hrest⟩ := run_bind_eq_ok.mp hrun
      have hright : ∀ j ∈ jumps right, j.2 = none := h
      split at hrest
      · exact execCode_this hl hright hrest
      · cases hrest
  | boolOr left right =>
      obtain ⟨v, t, -, hrest⟩ := run_bind_eq_ok.mp hrun
      have hright : ∀ j ∈ jumps right, j.2 = none := h
      split at hrest
      · cases hrest
      · exact execCode_this hl hright hrest
  | jump node receiver args =>
      obtain ⟨fr'', hjump, hfr⟩ := run_map_eq_ok.mp hrun
      cases hfr
      have hnone : receiver = none := h (node, receiver) (List.mem_singleton_self _)
      subst hnone
      have hthis : (M.frameScope lp fr' locals).this = (M.frameScope lp fr locals).this :=
        M.jump_this g hl hjump
      exact hthis

theorem execNth_this (hl : Laid m lp) {bodies : Codes}
    (h : ∀ j ∈ jumpsOfBodies bodies, j.2 = none)
    {n : ℕ} {fr fr' : Frame V} {locals : Locals V} {s s' : σ}
    (hrun : (M.execNth g lp fr bodies n locals).run.run s = some (.ok (.inr fr'), s')) :
    (M.frameScope lp fr' fun _ => none).this = (M.frameScope lp fr fun _ => none).this := by
  cases bodies with
  | nil => cases hrun
  | cons body rest =>
      obtain ⟨hbody, hrest⟩ := List.forall_mem_append.mp h
      cases n with
      | zero => exact execCode_this hl hbody hrun
      | succ n => exact execNth_this hl hrest hrun

end

/-! ## More calls that return -/

/-- What the first one returns the second one returns too. -/
def Below {α : Type} (x y : Eval X σ α) : Prop :=
  ∀ s r, x.run.run s = some r → y.run.run s = some r

theorem Below.refl {α : Type} (x : Eval X σ α) : Below x x := fun _ _ h => h

theorem Below.bind {α β : Type} {x y : Eval X σ α} {k l : α → Eval X σ β} (h : Below x y)
    (hk : ∀ a, Below (k a) (l a)) : Below (x >>= k) (y >>= l) := by
  intro s r hr
  rw [run_bind] at hr ⊢
  cases hx : x.run.run s with
  | none =>
      rw [hx] at hr
      cases hr
  | some z =>
      rw [hx] at hr
      rw [h s z hx]
      obtain ⟨z, t⟩ := z
      cases z with
      | ok a => exact hk a t r hr
      | error e => exact hr

theorem Below.map {α β : Type} {x y : Eval X σ α} (f : α → β) (h : Below x y) :
    Below (f <$> x) (f <$> y) := by
  rw [map_eq_pure_bind, map_eq_pure_bind]
  exact h.bind fun a => Below.refl _

theorem Below.stuck {α : Type} (x : Eval X σ α) : Below stuck x := fun _ _ h => nomatch h

variable {k : Invoke V X σ}

theorem below_steps (h : Extends g k) (sc : Scope V) (code : List Step) (vs : List V) :
    Below (M.steps g sc code vs) (M.steps k sc code vs) := by
  induction code generalizing vs with
  | nil => exact Below.refl _
  | cons i code ih => exact Below.bind (fun s x => M.step_mono g k i sc vs s x h) ih

theorem below_eval (h : Extends g k) (t : Tree) (sc : Scope V) :
    Below (M.eval g t sc) (M.eval k t sc) :=
  Below.bind (fun s x => M.step_mono g k _ sc [] s x h) fun _ => Below.refl _

theorem below_stats (h : Extends g k) (sc : Scope V) (stats : List Tree) :
    Below (M.stats g sc stats) (M.stats k sc stats) := by
  induction stats generalizing sc with
  | nil => exact Below.refl _
  | cons t stats ih => exact Below.bind (fun s x => M.stat_mono g k t sc s x h) fun _ => ih _

theorem below_values (h : Extends g k) (sc : Scope V) (blocks : List (List Step)) :
    Below (M.values g sc blocks) (M.values k sc blocks) := by
  induction blocks with
  | nil => exact Below.refl _
  | cons b blocks ih =>
      apply (M.below_steps h sc b []).bind
      intro vs
      exact ih.bind fun _ => Below.refl _

theorem below_jump (h : Extends g k) (fr : Frame V) (receiver : Option Tree) (args : List Step)
    (locals : Locals V) :
    Below (M.jump g lp fr receiver args locals) (M.jump k lp fr receiver args locals) :=
  (M.below_steps h _ _ []).bind fun _ => Below.refl _

mutual

theorem below_execCode (h : Extends g k) (fr : Frame V) (code : Code) (locals : Locals V) :
    Below (M.execCode g lp fr code locals) (M.execCode k lp fr code locals) := by
  cases code with
  | value t => exact (M.below_eval h t _).map _
  | ifElse c thenp elsep =>
      apply (M.below_eval h c _).bind
      intro v
      split
      · exact below_execCode h fr thenp locals
      · exact below_execCode h fr elsep locals
  | block stats e => exact (M.below_stats h _ stats).bind fun _ => below_execCode h fr e _
  | matchOn sel cases bodies =>
      apply Below.bind fun s x => M.choose_mono g k sel cases _ s x h
      exact fun x => below_execNth h fr bodies x.1 x.2
  | boolAnd left right =>
      apply (M.below_eval h left _).bind
      intro v
      split
      · exact below_execCode h fr right locals
      · exact Below.refl _
  | boolOr left right =>
      apply (M.below_eval h left _).bind
      intro v
      split
      · exact Below.refl _
      · exact below_execCode h fr right locals
  | jump node receiver args => exact (M.below_jump h fr receiver args locals).map _

theorem below_execNth (h : Extends g k) (fr : Frame V) (bodies : Codes) (n : ℕ)
    (locals : Locals V) :
    Below (M.execNth g lp fr bodies n locals) (M.execNth k lp fr bodies n locals) := by
  cases bodies with
  | nil => exact Below.refl _
  | cons body rest =>
      cases n with
      | zero => exact below_execCode h fr body locals
      | succ n => exact below_execNth h fr rest n locals

end

/-! ## The loop -/

variable (ctx m) in
/-- The frame has a slot of its own for every parameter and for the receiver, with a value in it
unless the parameter is of type `Unit`, and the self calls can be made jumps. -/
structure Safe (lp : TailLoop) (rhs : Tree) : Prop where
  slots : (lp.params.map Prod.fst).Nodup
  zero : m.noReceiver = false → 0 ∉ lp.params.map Prod.fst
  sorts : ∀ x ∈ lp.params.zip lp.types, x.1.2 = .void → isUnitLike x.2 = true
  calls : CallsSafe ctx m lp (tailCalls m ctx.st rhs)

variable {rhs : Tree}

theorem Safe.laid (h : Safe ctx m lp rhs) (hloop : beginTailLoop m ctx.st rhs = .loop lp) :
    Laid m lp := by
  obtain ⟨heq, hlength⟩ := beginTailLoop_eq_loop hloop
  refine ⟨?_, h.slots, h.zero, h.sorts⟩
  rw [hlength, heq]

/-- A handler finds the same receiver in every run of the body. -/
theorem caught_jump (h : Safe ctx m lp rhs) (hloop : beginTailLoop m ctx.st rhs = .loop lp)
    (pending : List Node) {fr fr' : Frame V} {locals : Locals V} {s s' : σ}
    (hrun : (M.execCode g lp fr (genExpr m ctx lp rhs [] pending).1 locals).run.run s =
      some (.ok (.inr fr'), s')) (r : Except X V) :
    M.caught (M.frameScope lp fr fun _ => none).this r =
      M.caught (M.frameScope lp fr' fun _ => none).this r := by
  cases hcatches : m.catchesReturns with
  | false =>
      unfold caught
      rw [hcatches]
      rfl
  | true =>
      have hlaid := h.laid hloop
      have hnone : ∀ j ∈ jumps (genExpr m ctx lp rhs [] pending).1, j.2 = none := by
        intro j hj
        obtain ⟨c, hc, hj, hargs⟩ := jumps_of_calls rhs [] pending (sees_root hloop) j hj
        rw [hj, Option.eq_none_iff_forall_ne_some]
        intro q hq
        have hcall := (h.calls c hc (hargs.trans hlaid.length)).receiver q hq
        cases hcatches.symm.trans hcall.2.2.1
      rw [M.execCode_this hlaid hnone hrun]

theorem unfold_loop (h : Safe ctx m lp rhs) (hloop : beginTailLoop m ctx.st rhs = .loop lp)
    (hg : M.Acts lp g) (pending : List Node) (b : Frame V × σ) :
    M.plainMethod lp .enter rhs g (M.frameArgs lp b.1, b.2) =
      (M.loopBody lp (genExpr m ctx lp rhs [] pending).1 g b).bind
        (after g fun b => (M.frameArgs lp b.1, b.2)) := by
  obtain ⟨fr, s⟩ := b
  have hlaid := h.laid hloop
  have heq := M.plainEval_eq hlaid hg rhs [] pending (sees_root hloop) h.calls fr fun _ => none
  unfold plainMethod loopBody
  simp only [M.scopeOf_frameArgs hlaid]
  rw [heq, run_bind]
  change _ = (Option.map _ ((M.execCode g lp fr _ fun _ => none).run.run s)).bind _
  cases hrun : (M.execCode g lp fr (genExpr m ctx lp rhs [] pending).1 fun _ => none).run.run s with
  | none => rfl
  | some x =>
      obtain ⟨r, s'⟩ := x
      cases r with
      | error x => rfl
      | ok r =>
          cases r with
          | inl v => rfl
          | inr fr' =>
              change Option.map _ (g (M.frameArgs lp fr', s')) = g (M.frameArgs lp fr', s')
              cases hcall : g (M.frameArgs lp fr', s') with
              | none => rfl
              | some y =>
                  obtain ⟨r, s''⟩ := y
                  have hcaught := hg.caught _ _ _ _ hcall
                  rw [M.scopeOf_frameArgs hlaid] at hcaught
                  simp only [Option.map_some, M.caught_jump h hloop pending hrun, hcaught]

theorem loops (h : Safe ctx m lp rhs) (hloop : beginTailLoop m ctx.st rhs = .loop lp)
    (pending : List Node) :
    Loops (M.plainMethod lp .enter rhs) (M.loopBody lp (genExpr m ctx lp rhs [] pending).1)
      (fun x => (M.enterFrame lp x.1, x.2)) (fun b => (M.frameArgs lp b.1, b.2)) := by
  constructor
  · intro g k hgk b x hx
    obtain ⟨r, hr, hx⟩ := Option.map_eq_some_iff.mp hx
    exact Option.map_eq_some_iff.mpr ⟨r, M.below_execCode hgk _ _ _ _ _ hr, hx⟩
  · intro n a
    apply (M.acts_plain .enter rhs n).reads
    rw [M.scopeOf_frameArgs (h.laid hloop), M.scopeOf_enterFrame (h.laid hloop)]
  · intro n b
    exact M.unfold_loop h hloop (M.acts_plain .enter rhs n) pending b

/-! ## Calls on `null` -/

theorem below_callMethod (h : Extends g k) (onNull : OnNull) (checked : Bool) (a : Args V) :
    Below (M.callMethod g .stop checked a) (M.callMethod k onNull checked a) := by
  unfold callMethod
  split
  · exact Below.stuck _
  · exact fun s r => h (a, s) r

theorem below_callSelf (h : Extends g k) (onNull : OnNull) (f : Tree) (args : List Tree)
    (sc : Scope V) :
    Below (M.callSelf g lp .stop f args sc) (M.callSelf k lp onNull f args sc) := by
  have hreceiver : Below (M.receiverValue g sc f) (M.receiverValue k sc f) := by
    unfold receiverValue
    split
    · exact M.below_eval h _ sc
    · exact Below.refl _
  apply hreceiver.bind
  intro this
  apply (M.below_values h sc _).bind
  intro params
  exact M.below_callMethod h onNull _ _

mutual

theorem below_plainEval (h : Extends g k) (onNull : OnNull) (t : Tree) (sc : Scope V) :
    Below (M.plainEval g lp .stop t sc) (M.plainEval k lp onNull t sc) := by
  unfold plainEval
  cases call m t with
  | some c =>
      simp only []
      split
      · exact M.below_callSelf h onNull _ _ sc
      · exact M.below_eval h t sc
  | none =>
      cases t with
      | ifElse i c thenp elsep =>
          apply (M.below_eval h c sc).bind
          intro v
          split
          · exact below_plainEval h onNull thenp sc
          · exact below_plainEval h onNull elsep sc
      | block i stats e =>
          exact (M.below_stats h sc stats).bind fun _ => below_plainEval h onNull e _
      | typed i e => exact below_plainEval h onNull e sc
      | matchOn i s cases =>
          apply Below.bind fun s' x => M.choose_mono g k s cases sc s' x h
          exact fun x => below_plainCase h onNull cases x.1 _
      | apply i f args =>
          cases f with
          | select fi qual n =>
              match args with
              | [] => exact M.below_eval h _ sc
              | [rhs] =>
                  simp only []
                  split
                  · apply (M.below_eval h qual sc).bind
                    intro v
                    split
                    · exact below_plainEval h onNull rhs sc
                    · exact Below.refl _
                  · exact M.below_eval h _ sc
              | _ :: _ :: _ => exact M.below_eval h _ sc
          | _ => exact M.below_eval h _ sc
      | _ => exact M.below_eval h _ sc

theorem below_plainCase (h : Extends g k) (onNull : OnNull) (cases : Cases) (n : ℕ)
    (sc : Scope V) :
    Below (M.plainCase g lp .stop cases n sc) (M.plainCase k lp onNull cases n sc) := by
  cases cases with
  | nil => exact Below.refl _
  | cons pat guard body rest =>
      cases n with
      | zero => exact below_plainEval h onNull body sc
      | succ n => exact below_plainCase h onNull rest n sc

end

theorem extends_plain (onNull : OnNull) (n : ℕ) :
    Extends (plain (M.plainMethod lp .stop rhs) n) (plain (M.plainMethod lp onNull rhs) n) := by
  induction n with
  | zero => exact Extends.refl _
  | succ n ih =>
      intro x r hr
      obtain ⟨y, hy, hr⟩ := Option.map_eq_some_iff.mp hr
      exact Option.map_eq_some_iff.mpr ⟨y, M.below_plainEval ih onNull rhs _ _ _ hy, hr⟩

/-- In a run without a call on `null` it does not matter what becomes of such a call. -/
theorem recursive_of_stop {onNull : OnNull} {a : Args V} {s : σ} {r : Except X V × σ}
    (h : M.Recursive lp .stop rhs a s r) : M.Recursive lp onNull rhs a s r := by
  obtain ⟨n, hn⟩ := h
  exact ⟨n, M.extends_plain onNull n _ _ hn⟩

/-! ## The method that is emitted -/

/-- The method that loops returns what the recursive method returns that does not look whether a
receiver is `null`, so it agrees with the method of the source in every run without such a
receiver. Where a loop was asked for, each call that was found is a jump. -/
theorem looping_iff_recursive (rhs : Tree) (lp : TailLoop)
    (hloop : beginTailLoop m ctx.st rhs = .loop lp) (hsafe : Safe ctx m lp rhs) :
    (∀ a s r, M.Looping lp (genExpr m ctx lp rhs [] lp.calls).1 a s r ↔
      M.Recursive lp .enter rhs a s r) ∧
    (∀ a s r, M.Recursive lp .stop rhs a s r → M.Recursive lp .throw rhs a s r ∧
      M.Looping lp (genExpr m ctx lp rhs [] lp.calls).1 a s r) ∧
    (lp.annotated = true → finishTailLoop m lp (genExpr m ctx lp rhs [] lp.calls).2 = none →
      ∀ p ∈ lp.calls, ∃ j ∈ jumps (genExpr m ctx lp rhs [] lp.calls).1, j.1 = p) := by
  have hiff : ∀ a s r, M.Looping lp (genExpr m ctx lp rhs [] lp.calls).1 a s r ↔
      M.Recursive lp .enter rhs a s r := by
    intro a s r
    exact ((M.loops hsafe hloop lp.calls).returns_iff (a, s) r).symm
  refine ⟨hiff, ?_, ?_⟩
  · intro a s r h
    exact ⟨M.recursive_of_stop h, (hiff a s r).mpr (M.recursive_of_stop h)⟩
  · intro hannotated hfinish p hp
    by_contra hno
    have hpending : p ∈ (genExpr m ctx lp rhs [] lp.calls).2 := by
      rw [mem_pending]
      exact ⟨hp, fun j hj heq => hno ⟨j, hj, heq⟩⟩
    have hempty : (genExpr m ctx lp rhs [] lp.calls).2.isEmpty = false := by
      rw [List.isEmpty_eq_false_iff]
      exact List.ne_nil_of_mem hpending
    unfold finishTailLoop at hfinish
    rw [hannotated, hempty] at hfinish
    cases hfinish

end Machine

/-! ## A call on `null` -/

/-- Numbers for values: 0 for `null` and `false`, 1 for `true`. -/
def simpleValue (sc : Scope ℕ) : Tree → Option ℕ
  | .literal _ (.int n) => some n.toNat
  | .literal _ (.boolean b) => some b.toNat
  | .literal _ .null => some 0
  | .this _ => some sc.this
  | .ident _ _ => sc.params.head?
  | _ => none

/-- A machine for literals, `this` and the first parameter. -/
def simpleStep (ctx : EmitCtx) (sc : Scope ℕ) (vs : List ℕ) : Step → Eval Unit Unit (List ℕ)
  | .genExpr t =>
    match simpleValue sc t with
    | some v => if valuesLeft ctx t = 1 then pure (v :: vs) else Machine.stuck
    | none => Machine.stuck
  | _ => Machine.stuck

def simpleMachine (ctx : EmitCtx) (m : Method) : Machine ctx m ℕ Unit Unit where
  step _ i sc vs := simpleStep ctx sc vs i
  stat _ _ _ := Machine.stuck
  choose _ _ _ _ := Machine.stuck
  isTrue v := v == 1
  unit := 0
  isNull v := v == 0
  nullReceiver := ()
  returned _ _ := none
  step_mono _ _ _ _ _ _ _ _ h := h
  stat_mono _ _ _ _ _ _ _ h := h
  choose_mono _ _ _ _ _ _ _ _ h := h
  step_framed _ i sc cells cells' vs below _ _ := by
    cases i with
    | genExpr t =>
        simp only [simpleStep]
        cases simpleValue sc t with
        | none => rfl
        | some v =>
            simp only []
            split <;> rfl
    | _ => rfl
  step_height _ i sc cells cells' vs vs' s s' hi hlength hrun := by
    cases i with
    | genExpr t =>
        cases hi
        simp only [simpleStep] at hrun
        cases hvalue : simpleValue sc t with
        | none =>
            rw [hvalue] at hrun
            cases hrun
        | some v =>
            rw [hvalue] at hrun
            simp only [] at hrun
            split at hrun
            · rename_i hone
              cases hrun
              simp [hone, hlength]
            · cases hrun
    | _ => cases hrun
  step_this _ t sc vs h := by
    cases t with
    | this i =>
        simp only [isOwnThis, Bool.and_eq_true, Bool.not_eq_true'] at h
        simp [simpleStep, simpleValue, valuesLeft, TypedTrees.Tree.ty, TypedTrees.Tree.info, h.2]
    | _ => cases h

def nullTable : SymbolTable where
  get _ := ⟨"f", 3, .method, .none, false, .method [[.boolean]] .int, [2]⟩
  jvmDesc
    | .boolean => "Z"
    | _ => "I"
  classInternal _ := "C"
  findClassByJvm _ := none
  isInterfaceSym _ := false
  baseClasses _ := []
  paramDescs _ := ["Z"]

def nullCtx : EmitCtx where
  st := nullTable
  boxedVars _ := false
  isLibrary := true
  frame _ := none
  topObject _ := none

/-- `final def f(b: Boolean): Int = if (b) 7 else (null: C).f(true)` -/
def nullMethod : Method where
  sym := 1
  name := "f"
  params := [2]
  types := [.boolean]
  nullary := false
  annotations := []
  fixed := true
  ownerFinal := false
  ownerKind := .cls
  classSym := 3
  classIsValueClass := false
  inClosure := false
  valueExt := none
  noReceiver := false
  catchesReturns := false
  slot _ := some (1, .int)

def nullRhs : Tree :=
  .ifElse { TypedTrees.Info.dummy with ty := .int }
    (.ident { TypedTrees.Info.dummy with ty := .boolean, sym := 2 } "b")
    (.literal { TypedTrees.Info.dummy with ty := .int } (.int 7))
    (.apply { TypedTrees.Info.dummy with ty := .int }
      (.select { TypedTrees.Info.dummy with sym := 1 }
        (.literal { TypedTrees.Info.dummy with ty := .null } .null) "f")
      [.literal { TypedTrees.Info.dummy with ty := .boolean } (.boolean true)])

def nullLoop : TailLoop := ⟨[[2]], [], [(1, .int)], [.boolean], false⟩

/-- The call of the source throws, whatever other calls do. -/
theorem plainMethod_null (g : Invoke ℕ Unit Unit) :
    (simpleMachine nullCtx nullMethod).plainMethod nullLoop .throw nullRhs g (⟨5, [0]⟩, ()) =
      some (.error (), ()) := rfl

/-- Called with `false`, the loop goes on with `null` in place of `this` and returns 7. -/
theorem looping_null :
    beginTailLoop nullMethod nullCtx.st nullRhs = .loop nullLoop ∧
    (simpleMachine nullCtx nullMethod).Looping nullLoop
      (genExpr nullMethod nullCtx nullLoop nullRhs [] nullLoop.calls).1 ⟨5, [0]⟩ () (.ok 7, ()) ∧
    ¬ (simpleMachine nullCtx nullMethod).Recursive nullLoop .throw nullRhs ⟨5, [0]⟩ ()
      (.ok 7, ()) := by
  refine ⟨rfl, ⟨2, rfl⟩, ?_⟩
  intro ⟨n, hn⟩
  cases n with
  | zero => cases hn
  | succ n =>
      rw [plain, plainMethod_null] at hn
      cases hn

theorem safe_null : Machine.Safe nullCtx nullMethod nullLoop nullRhs where
  slots := by decide
  zero _ := by decide
  sorts x hx h := by
    cases List.mem_singleton.mp hx
    cases h
  calls c hc _ := by
    cases List.mem_singleton.mp hc
    refine ⟨⟨fun _ => ?_, nofun⟩, nofun, ?_⟩
    · exact ⟨fun _ => .inl ⟨(fun h => nomatch h.2.1), rfl⟩, trivial⟩
    · intro q hq
      cases hq
      exact ⟨rfl, rfl, rfl, nofun⟩

/-- The loop of this method returns what its body returns where the receiver is not looked at. -/
theorem looping_null_iff :
    (∀ a s r, (simpleMachine nullCtx nullMethod).Looping nullLoop
        (genExpr nullMethod nullCtx nullLoop nullRhs [] nullLoop.calls).1 a s r ↔
      (simpleMachine nullCtx nullMethod).Recursive nullLoop .enter nullRhs a s r) ∧
    ∀ a s r, (simpleMachine nullCtx nullMethod).Recursive nullLoop .stop nullRhs a s r →
      (simpleMachine nullCtx nullMethod).Recursive nullLoop .throw nullRhs a s r ∧
      (simpleMachine nullCtx nullMethod).Looping nullLoop
        (genExpr nullMethod nullCtx nullLoop nullRhs [] nullLoop.calls).1 a s r := by
  obtain ⟨hiff, hstop, -⟩ :=
    (simpleMachine nullCtx nullMethod).looping_iff_recursive nullRhs nullLoop rfl safe_null
  exact ⟨hiff, hstop⟩

end ScalaRs.TailCalls
