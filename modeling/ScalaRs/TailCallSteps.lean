import ScalaRs.TailCallRuns

/-! # The steps of a jump

The arguments are evaluated before any of them is stored, and each is stored in the slot of its
parameter. -/
namespace ScalaRs.TailCalls
open Unification (Ty SymbolId)
open TypedTrees (Tree Cases noSymbol)
open CallArguments RecursionAsLoops

variable {V X σ α β : Type}

/-! ## Computations -/

theorem eval_ext {x y : Eval X σ α} (h : ∀ s, x.run.run s = y.run.run s) : x = y := funext h

theorem run_bind (x : Eval X σ α) (k : α → Eval X σ β) (s : σ) :
    (x >>= k).run.run s = match x.run.run s with
      | none => none
      | some (.ok a, s') => (k a).run.run s'
      | some (.error e, s') => some (.error e, s') := by
  change (x s).bind _ = _
  cases hx : x s with
  | none =>
      change _ = match x s with
        | none => none
        | some (.ok a, s') => (k a).run.run s'
        | some (.error e, s') => some (.error e, s')
      rw [hx]
      rfl
  | some r =>
      change _ = match x s with
        | none => none
        | some (.ok a, s') => (k a).run.run s'
        | some (.error e, s') => some (.error e, s')
      rw [hx]
      obtain ⟨r, s'⟩ := r
      cases r <;> rfl

/-- What follows matters only at the values that are returned. -/
theorem bind_congr_ok {x : Eval X σ α} {k k' : α → Eval X σ β}
    (h : ∀ s a s', x.run.run s = some (.ok a, s') → k a = k' a) : x >>= k = x >>= k' := by
  apply eval_ext
  intro s
  rw [run_bind, run_bind]
  cases hx : x.run.run s with
  | none => rfl
  | some r =>
      obtain ⟨r, s'⟩ := r
      cases r with
      | error e => rfl
      | ok a => simp only [h s a s' hx]

theorem run_bind_eq_ok {x : Eval X σ α} {k : α → Eval X σ β} {s s' : σ} {b : β} :
    (x >>= k).run.run s = some (.ok b, s') ↔
      ∃ a mid, x.run.run s = some (.ok a, mid) ∧ (k a).run.run mid = some (.ok b, s') := by
  rw [run_bind]
  cases hx : x.run.run s with
  | none => simp
  | some r =>
      obtain ⟨r, mid⟩ := r
      cases r <;> simp

theorem run_map_eq_ok {x : Eval X σ α} {f : α → β} {s s' : σ} {b : β} :
    (f <$> x).run.run s = some (.ok b, s') ↔
      ∃ a, x.run.run s = some (.ok a, s') ∧ f a = b := by
  rw [map_eq_pure_bind, run_bind_eq_ok]
  constructor
  · intro ⟨a, mid, hx, hpure⟩
    cases hpure
    exact ⟨a, hx, rfl⟩
  · intro ⟨a, hx, hb⟩
    exact ⟨a, s', hx, by rw [hb]; rfl⟩

namespace Machine

variable {ctx : EmitCtx} {m : Method} (M : Machine ctx m V X σ) (g : Invoke V X σ) (sc : Scope V)

section
attribute [local simp] steps storeParams values
end

theorem steps_append (c d : List Step) (vs : List V) :
    M.steps g sc (c ++ d) vs = M.steps g sc c vs >>= M.steps g sc d := by
  induction c generalizing vs with
  | nil => simp [steps]
  | cons i c ih => simp [steps, ih]

/-- Code that runs on so many places of the stack needs no more values. -/
theorem steps_framed {code : List Step} {cells cells' : List Cell} {vs : List V} (below : List V)
    (hrun : OperandStacks.run (exec ctx) code cells = some cells')
    (hlength : cells.length = vs.length) :
    M.steps g sc code (vs ++ below) = (· ++ below) <$> M.steps g sc code vs := by
  induction code generalizing cells vs with
  | nil => simp [steps]
  | cons i code ih =>
      obtain ⟨mid, hi, hcode⟩ := Option.bind_eq_some_iff.mp hrun
      rw [steps, steps, M.step_framed g i sc cells mid vs below hi hlength]
      simp only [bind_map_left, map_bind]
      apply bind_congr_ok
      intro s us s' hstep
      exact ih hcode (M.step_height _ _ _ _ _ _ _ _ _ hi hlength hstep).symm

theorem steps_height {code : List Step} {cells cells' : List Cell} {vs vs' : List V} {s s' : σ}
    (hrun : OperandStacks.run (exec ctx) code cells = some cells')
    (hlength : cells.length = vs.length)
    (h : (M.steps g sc code vs).run.run s = some (.ok vs', s')) : vs'.length = cells'.length := by
  induction code generalizing cells vs s with
  | nil =>
      cases hrun
      cases h
      exact hlength.symm
  | cons i code ih =>
      obtain ⟨mid, hi, hcode⟩ := Option.bind_eq_some_iff.mp hrun
      obtain ⟨us, t, hstep, hrest⟩ := run_bind_eq_ok.mp h
      exact ih hcode (M.step_height _ _ _ _ _ _ _ _ _ hi hlength hstep).symm hrest

/-- A block leaves one value, which does not depend on what is below. -/
theorem steps_block {b : List Step} (h : OperandStacks.Delivers (exec ctx) b) {s s' : σ}
    {vs : List V} (hrun : (M.steps g sc b []).run.run s = some (.ok vs, s')) :
    ∃ v, vs = [v] := by
  obtain ⟨t, ht⟩ := h
  exact List.length_eq_one_iff.mp (M.steps_height g sc ht rfl hrun)

/-- Blocks leave their values one above the other. -/
theorem steps_flatten {blocks : List (List Step)}
    (hblocks : ∀ b ∈ blocks, OperandStacks.Delivers (exec ctx) b) (below : List V) :
    M.steps g sc blocks.flatten below =
      (fun vs => vs.reverse ++ below) <$> M.values g sc blocks := by
  induction blocks generalizing below with
  | nil => simp [steps, values]
  | cons b blocks ih =>
      obtain ⟨hb, hrest⟩ := List.forall_mem_cons.mp hblocks
      obtain ⟨t, ht⟩ := hb
      have hframed : M.steps g sc b ([] ++ below) = _ := M.steps_framed g sc below ht rfl
      rw [List.nil_append] at hframed
      rw [List.flatten_cons, steps_append, hframed, values]
      simp only [bind_map_left, map_bind]
      apply bind_congr_ok
      intro s vs s' hvs
      obtain ⟨v, rfl⟩ := M.steps_block g sc ⟨t, ht⟩ hvs
      rw [List.singleton_append, ih hrest]
      simp

theorem length_values {blocks : List (List Step)} {vs : List V} {s s' : σ}
    (h : (M.values g sc blocks).run.run s = some (.ok vs, s')) : vs.length = blocks.length := by
  induction blocks generalizing vs s with
  | nil =>
      cases h
      rfl
  | cons b blocks ih =>
      obtain ⟨us, t, -, hrest⟩ := run_bind_eq_ok.mp h
      obtain ⟨ws, u, hws, hpure⟩ := run_bind_eq_ok.mp hrest
      cases hpure
      rw [List.length_cons, List.length_cons, ih hws]

/-! ## Storing the values -/

/-- Each value is stored in the slot of its parameter, and no other slot is changed. -/
theorem storeParams_spec {ps : List ((ℕ × JvmSort) × Ty)} {vs below : List V} (fr : Frame V)
    (hlength : ps.length = vs.length) (hslots : (ps.map fun x => x.1.1).Nodup)
    (hvoid : ∀ x ∈ ps, x.1.2 = .void → isUnitLike x.2 = true) :
    ∃ fr', storeParams ps (vs ++ below, fr) = some (below, fr') ∧
      (∀ x ∈ ps.zip vs, isUnitLike x.1.2 = false → fr' x.1.1.1 = x.2) ∧
      ∀ slot, slot ∉ ps.map (fun x => x.1.1) → fr' slot = fr slot := by
  induction ps generalizing vs fr with
  | nil =>
      cases vs with
      | nil => exact ⟨fr, rfl, by simp, by simp⟩
      | cons v vs => cases hlength
  | cons x ps ih =>
      cases vs with
      | nil => cases hlength
      | cons v vs =>
          obtain ⟨⟨slot, sort⟩, ty⟩ := x
          obtain ⟨hslot, hslots⟩ := List.nodup_cons.mp hslots
          obtain ⟨hhead, hvoid⟩ := List.forall_mem_cons.mp hvoid
          have hlength : ps.length = vs.length := Nat.succ.inj hlength
          cases hunit : isUnitLike ty with
          | true =>
              obtain ⟨fr', hrun, hvalues, hothers⟩ := ih fr hlength hslots hvoid
              refine ⟨fr', ?_, ?_, ?_⟩
              · simpa [storeParams, hunit] using hrun
              · rw [List.zip_cons_cons, List.forall_mem_cons]
                refine ⟨fun h => ?_, hvalues⟩
                cases hunit.symm.trans h
              · intro other hother
                exact hothers other fun h => hother (List.mem_cons_of_mem _ h)
          | false =>
              have hsort : sort ≠ .void := fun h => by cases hunit.symm.trans (hhead h)
              obtain ⟨fr', hrun, hvalues, hothers⟩ :=
                ih (Function.update fr slot v) hlength hslots hvoid
              refine ⟨fr', ?_, ?_, ?_⟩
              · simpa [storeParams, hunit, hsort] using hrun
              · rw [List.zip_cons_cons, List.forall_mem_cons]
                refine ⟨fun _ => ?_, hvalues⟩
                rw [hothers slot hslot]
                exact Function.update_self slot v fr
              · intro other hother
                obtain ⟨hne, hrest⟩ := not_or.mp (mt List.mem_cons.mpr hother)
                rw [hothers other hrest]
                exact Function.update_of_ne hne v fr

theorem storeParams_others {ps : List ((ℕ × JvmSort) × Ty)} {x y : List V × Frame V}
    (h : storeParams ps x = some y) {slot : ℕ} (hslot : slot ∉ ps.map fun x => x.1.1) :
    y.2 slot = x.2 slot := by
  induction ps generalizing x with
  | nil =>
      cases h
      rfl
  | cons p ps ih =>
      obtain ⟨⟨slot', sort⟩, ty⟩ := p
      obtain ⟨vs, fr⟩ := x
      obtain ⟨hne, hrest⟩ := not_or.mp (mt List.mem_cons.mpr hslot)
      unfold storeParams at h
      split at h
      · cases vs with
        | nil => cases h
        | cons v vs =>
            have hother := @ih (vs, fr) h hrest
            exact hother
      · split at h
        · exact ih h hrest
        · cases vs with
          | nil => cases h
          | cons v vs =>
              change storeParams ps (vs, Function.update fr slot' v) = some y at h
              rw [ih h hrest]
              exact Function.update_of_ne hne v fr

variable {lp : TailLoop}

variable (m lp) in
/-- How the frame holds the parameters: each in its slot, `this` in slot 0, and only a `Unit`
parameter without a value. -/
structure Laid : Prop where
  length : lp.params.length = lp.types.length
  slots : (lp.params.map Prod.fst).Nodup
  zero : m.noReceiver = false → 0 ∉ lp.params.map Prod.fst
  sorts : ∀ x ∈ lp.params.zip lp.types, x.1.2 = .void → isUnitLike x.2 = true

/-- A frame with these values in the slots of the parameters. -/
theorem frameScope_eq (hl : Laid m lp) {a : Args V} {fr : Frame V}
    (hthis : m.noReceiver = false → fr 0 = a.this)
    (hparams : ∀ i (h : i < lp.params.length) (h' : i < lp.types.length),
      isUnitLike lp.types[i] = false → fr lp.params[i].1 = (a.params[i]?).getD M.unit) :
    M.frameScope lp fr (fun _ => none) = M.scopeOf lp a := by
  unfold frameScope scopeOf
  congr 1
  · cases hreceiver : m.noReceiver with
    | true => rfl
    | false => exact hthis hreceiver
  · apply List.ext_getElem
    · simp [hl.length]
    · intro i hi hi'
      simp only [List.length_map, List.length_zip, List.length_zipIdx, lt_min_iff] at hi hi'
      simp only [List.getElem_map, List.getElem_zip, List.getElem_zipIdx, Nat.zero_add]
      cases hunit : isUnitLike lp.types[i] with
      | true => simp
      | false => simpa using hparams i hi.1 hi' hunit

theorem scopeOf_frameArgs (hl : Laid m lp) (fr : Frame V) :
    M.scopeOf lp (M.frameArgs lp fr) = M.frameScope lp fr fun _ => none := by
  symm
  apply M.frameScope_eq hl
  · intro hreceiver
    simp [frameArgs, frameScope, hreceiver]
  · intro i hi hi' hunit
    simp [frameArgs, frameScope, hi, hi', hunit]

theorem scopeOf_enterFrame (hl : Laid m lp) (a : Args V) :
    M.frameScope lp (M.enterFrame lp a) (fun _ => none) = M.scopeOf lp a := by
  apply M.frameScope_eq hl
  · intro hreceiver
    have hzero := List.idxOf?_eq_none_iff.mpr (hl.zero hreceiver)
    rw [enterFrame, hzero]
  · intro i hi hi' _
    have hmap : i < (lp.params.map Prod.fst).length := by rw [List.length_map]; exact hi
    have hslot : (lp.params.map Prod.fst).idxOf? lp.params[i].1 = some i := by
      rw [List.idxOf?_eq_some_iff]
      refine ⟨hmap, List.getElem_map _, fun j hj heq => ?_⟩
      have hsame : (lp.params.map Prod.fst)[j] = (lp.params.map Prod.fst)[i] := by
        rw [heq, List.getElem_map]
      rw [hl.slots.getElem_inj_iff] at hsame
      omega
    rw [enterFrame, hslot]

theorem map_fst_params (hl : Laid m lp) :
    (lp.params.zip lp.types).map (fun x => x.1.1) = lp.params.map Prod.fst := by
  have hcomp : (fun x : (ℕ × JvmSort) × Ty => x.1.1) = Prod.fst ∘ Prod.fst := rfl
  rw [hcomp, ← List.map_map, List.map_fst_zip hl.length.le]

/-- The values of the blocks are stored in the parameters. -/
theorem store_values (hl : Laid m lp) {vs : List V} (hlength : vs.length = lp.types.length)
    (fr : Frame V) (below : List V) : ∃ fr', storeParams (lp.params.zip lp.types).reverse (vs.reverse ++ below, fr) =
        some (below, fr') ∧
      (∀ i (h : i < lp.params.length) (h' : i < lp.types.length),
        isUnitLike lp.types[i] = false → fr' lp.params[i].1 = (vs[i]?).getD M.unit) ∧
      ∀ slot, slot ∉ lp.params.map Prod.fst → fr' slot = fr slot := by
  have hzip : (lp.params.zip lp.types).length = vs.length := by
    rw [List.length_zip, hl.length, min_self, hlength]
  have hmap := map_fst_params hl
  obtain ⟨fr', hrun, hvalues, hothers⟩ := @storeParams_spec V
    (lp.params.zip lp.types).reverse vs.reverse below fr (by simpa using hzip) (by rw [List.map_reverse, hmap, List.nodup_reverse]; exact hl.slots)
    (fun x hx => hl.sorts x (List.mem_reverse.mp hx))
  refine ⟨fr', hrun, ?_, ?_⟩
  · intro i hi hi' hunit
    have hvs : i < vs.length := by rw [hlength]; exact hi'
    have hmem : ((lp.params[i], lp.types[i]), vs[i]) ∈
        (lp.params.zip lp.types).reverse.zip vs.reverse := by
      rw [List.zip, ← List.reverse_zipWith hzip, List.mem_reverse]
      apply List.mem_iff_getElem.mpr
      exact ⟨i, by simp [hi, hi', hvs], by simp⟩
    rw [hvalues _ hmem hunit]
    simp [hvs]
  · intro slot hslot
    apply hothers
    rw [List.map_reverse, hmap, List.mem_reverse]
    exact hslot

/-- The receiver stays, and the arguments are those of the call. -/
theorem store_without_receiver (hl : Laid m lp) {vs : List V}
    (hlength : vs.length = lp.types.length) (fr : Frame V) (locals : Locals V) :
    ∃ fr', (storeParams (lp.params.zip lp.types).reverse (vs.reverse, fr)).bind
        (storeReceiver (m := m) false) = some fr' ∧
      M.scopeOf lp (M.frameArgs lp fr') = M.scopeOf lp ⟨(M.frameScope lp fr locals).this, vs⟩ := by
  obtain ⟨fr', hrun, hparams, hothers⟩ := M.store_values hl hlength fr []
  rw [List.append_nil] at hrun
  refine ⟨fr', by rw [hrun]; rfl, ?_⟩
  rw [M.scopeOf_frameArgs hl]
  apply M.frameScope_eq hl
  · intro hreceiver
    simp only [frameScope, hreceiver, Bool.false_eq_true, if_false]
    exact hothers 0 (hl.zero hreceiver)
  · exact hparams

theorem store_with_receiver (hl : Laid m lp) {vs : List V} (hlength : vs.length = lp.types.length)
    (fr : Frame V) (v : V) (hreceiver : m.noReceiver = false)
    (hsort : m.valueExt.getD .ref ≠ .void) :
    ∃ fr', (storeParams (lp.params.zip lp.types).reverse (vs.reverse ++ [v], fr)).bind
        (storeReceiver (m := m) true) = some fr' ∧
      M.scopeOf lp (M.frameArgs lp fr') = M.scopeOf lp ⟨v, vs⟩ := by
  obtain ⟨fr', hrun, hparams, -⟩ := M.store_values hl hlength fr [v]
  refine ⟨Function.update fr' 0 v, by rw [hrun]; simp [storeReceiver, hsort], ?_⟩
  rw [M.scopeOf_frameArgs hl]
  apply M.frameScope_eq hl
  · intro _
    exact Function.update_self 0 v fr'
  · intro i hi hi' hunit
    have hzero : lp.params[i].1 ≠ 0 := by
      intro h
      apply hl.zero hreceiver
      rw [← h]
      exact List.mem_map_of_mem (List.getElem_mem hi)
    rw [Function.update_of_ne hzero]
    exact hparams i hi hi' hunit

/-- Without a new receiver `this` is what it was. -/
theorem jump_this (hl : Laid m lp) {fr fr' : Frame V} {args : List Step} {locals : Locals V}
    {s s' : σ} (h : (M.jump g lp fr none args locals).run.run s = some (.ok fr', s')) :
    (M.frameScope lp fr' locals).this = (M.frameScope lp fr locals).this := by
  obtain ⟨vs, t, -, hstore⟩ := run_bind_eq_ok.mp h
  cases hreceiver : m.noReceiver with
  | true => simp [frameScope, hreceiver]
  | false =>
      simp only [frameScope, hreceiver, Bool.false_eq_true, if_false]
      cases hparams : storeParams (lp.params.zip lp.types).reverse (vs, fr) with
      | none =>
          rw [hparams] at hstore
          cases hstore
      | some y =>
          have hzero : y.2 0 = fr 0 := by
            apply storeParams_others hparams
            rw [List.map_reverse, map_fst_params hl, List.mem_reverse]
            exact hl.zero hreceiver
          obtain ⟨below, fr''⟩ := y
          cases below with
          | nil =>
              rw [hparams] at hstore
              cases hstore
              exact hzero
          | cons v below =>
              rw [hparams] at hstore
              cases below <;> cases hstore

/-! ## The jump of a call -/

variable (ctx m lp) in
/-- One value is loaded for each argument, a `this` before the name of the method is that of the
method, and a new receiver can be stored and is not looked for by a handler of returns. -/
structure CallSafe (f : Tree) (args : List Tree) : Prop where
  ready : Ready ctx (selfCall m lp) args
  ownThis : ∀ i j n, f = .select i (.this j) n → isOwnThis m (.this j) = true
  receiver : ∀ q, receiverOf f = some q → valuesLeft ctx q = 1 ∧ m.noReceiver = false ∧
    m.catchesReturns = false ∧ m.valueExt.getD .ref ≠ .void

theorem receiverValue_this {f : Tree} {args : List Tree} (h : CallSafe ctx m lp f args)
    (hnone : receiverOf f = none) : M.receiverValue g sc f = pure sc.this := by
  unfold receiverValue
  cases f with
  | select i q n =>
      cases q with
      | this j =>
          have hthis := M.step_this g (.this j) sc [] (h.ownThis i j n rfl)
          simp [qualifier, eval, hthis]
      | _ => cases hnone
  | _ => rfl

theorem qualifier_of_receiverOf {f q : Tree} (h : receiverOf f = some q) :
    qualifier f = some q := by
  cases f with
  | select i q' n =>
      cases q' with
      | this j => cases h
      | _ => exact h
  | _ => cases h

theorem jump_spec (hl : Laid m lp) {f : Tree} {args : List Tree}
    (hargs : args.length = lp.types.length) (h : CallSafe ctx m lp f args)
    {k : Args V → Eval X σ α} (hk : ∀ a b, M.scopeOf lp a = M.scopeOf lp b → k a = k b)
    (fr : Frame V) (locals : Locals V) :
    (do
      let sc := M.frameScope lp fr locals
      let this ← M.receiverValue g sc f
      let params ← M.values g sc (blocks ctx (selfCall m lp) args)
      k ⟨this, params⟩) =
    M.jump g lp fr (receiverOf f) (genCallArgs ctx (selfCall m lp) args) locals >>= fun fr' =>
      k (M.frameArgs lp fr') := by
  have hadapted := h.ready.adapted
  have hcount : (blocks ctx (selfCall m lp) args).length = lp.types.length := by
    rw [hadapted.count, jvmParams]
    split
    · rfl
    · exact hargs
  unfold jump
  simp only [bind_assoc]
  cases hreceiver : receiverOf f with
  | none =>
      rw [M.receiverValue_this g _ h hreceiver, pure_bind, hadapted.code]
      have hsteps := M.steps_flatten g (M.frameScope lp fr locals) hadapted.one []
      simp only [Option.toList_none, List.map_nil, List.nil_append, hsteps, bind_map_left,
        List.append_nil]
      apply bind_congr_ok
      intro s vs s' hvs
      have hlength := (M.length_values g _ hvs).trans hcount
      obtain ⟨fr', hstore, hscope⟩ := M.store_without_receiver hl hlength fr locals
      simp only [Option.isSome_none, hstore, pure_bind]
      exact hk _ _ hscope.symm
  | some q =>
      obtain ⟨hvalue, hhas, -, hsort⟩ := h.receiver q hreceiver
      have hq : OperandStacks.Delivers (exec ctx) [.genExpr q] :=
        ((Supplies.converts OperandStacks.Converts.nil).delivers_iff q).mpr hvalue
      rw [receiverValue, qualifier_of_receiverOf hreceiver, hadapted.code]
      simp only [Option.toList_some, List.map_singleton, List.singleton_append, eval, steps,
        bind_assoc, pure_bind]
      apply bind_congr_ok
      intro s ws t hws
      have hstep : (M.steps g (M.frameScope lp fr locals) [.genExpr q] []).run.run s =
          some (.ok ws, t) := by
        rw [steps]
        simpa [steps] using hws
      obtain ⟨v, rfl⟩ := M.steps_block g _ hq hstep
      have hsteps := M.steps_flatten g (M.frameScope lp fr locals) hadapted.one [v]
      simp only [hsteps, bind_map_left, List.headD_cons]
      apply bind_congr_ok
      intro s vs s' hvs
      have hlength := (M.length_values g _ hvs).trans hcount
      obtain ⟨fr', hstore, hscope⟩ := M.store_with_receiver hl hlength fr v hhas hsort
      simp only [Option.isSome_some, hstore, pure_bind]
      exact hk _ _ hscope.symm

end Machine

end ScalaRs.TailCalls
