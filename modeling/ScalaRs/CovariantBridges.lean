import Mathlib.Data.List.TakeWhile
import ScalaRs.BridgeHierarchies

/-! # Bridges to narrower results

A member with several results is reached through the narrowest one if a most specific class
declares it. The bridges are those from the wider results, one for each. -/
namespace ScalaRs.InterfaceBridges
open Relation

/-- A method of the class file, neither static nor a bridge. -/
def Declares (path : BinaryPath) (owner name params ret : Str) (isAbstract : Bool) : Prop :=
  ∃ i desc acc, path owner = some i ∧ (name, desc, acc) ∈ i.methods ∧
    acc &&& (accStatic ||| accBridge) = 0 ∧ splitDesc desc = some (params, ret) ∧
    isAbstract = decide (acc &&& accAbstract ≠ 0)

section
variable (path : BinaryPath) (roots : List Str) (have' : List (Str × Str)) (name params : Str)

/-- A result of the member somewhere on the path. -/
def Returns (ret : Str) : Prop :=
  ∃ owner isAbstract, Ancestor path roots owner ∧ Declares path owner name params ret isAbstract

/-- An owner that is a sub-type of every other owner of the member. -/
def IsMost (owner : Str) : Prop :=
  Ancestor path roots owner ∧ ∀ other ret isAbstract, Ancestor path roots other →
    Declares path other name params ret isAbstract → Subtype' path owner other

/-- The result that is declared by the most specific owner and has an implementation. -/
structure IsTarget (ret : Str) : Prop where
  declared : ∃ owner isAbstract, IsMost path roots name params owner ∧
    Declares path owner name params ret isAbstract
  unique : ∀ owner ret' isAbstract, IsMost path roots name params owner →
    Declares path owner name params ret' isAbstract → ret' = ret
  implemented : (∃ owner, Ancestor path roots owner ∧ Declares path owner name params ret false) ∨
    (name, params ++ ret) ∈ have'

end

/-! ## Descriptors -/

theorem splitDesc_eq {desc params ret : Str} (hsplit : splitDesc desc = some (params, ret)) :
    ∃ inner, ')' ∉ inner ∧ params = inner ++ [')'] := by
  rw [splitDesc] at hsplit
  cases hd : desc.dropWhile (· ≠ ')') with
  | nil =>
      rw [hd] at hsplit
      exact absurd hsplit (by simp)
  | cons c rest =>
      have hc : c = ')' := by
        have hhead := List.head?_dropWhile_not (· ≠ ')') desc
        rw [hd] at hhead
        simpa using hhead
      rw [hd] at hsplit
      obtain ⟨rfl, -⟩ := Prod.mk.inj (Option.some.inj hsplit)
      refine ⟨_, fun hmem => ?_, by rw [hc]⟩
      exact absurd (List.mem_takeWhile_imp hmem) (by simp)

theorem splitDesc_append {inner : Str} (hinner : ')' ∉ inner) (ret : Str) :
    splitDesc (inner ++ [')'] ++ ret) = some (inner ++ [')'], ret) := by
  have hall : ∀ c ∈ inner, decide (c ≠ ')') = true := fun c hc =>
    decide_eq_true fun heq => hinner (heq ▸ hc)
  rw [splitDesc, List.append_assoc, List.dropWhile_append_of_pos hall,
    List.takeWhile_append_of_pos hall]
  simp

/-- Parameters are cut off where they were put. -/
theorem splitDesc_params {desc params ret : Str} (hsplit : splitDesc desc = some (params, ret))
    (wide : Str) : splitDesc (params ++ wide) = some (params, wide) := by
  obtain ⟨inner, hinner, rfl⟩ := splitDesc_eq hsplit
  exact splitDesc_append hinner wide

/-! ## Declarations -/

variable (h : Hierarchy) (roots : List Str) (have' : List (Str × Str))

theorem mem_declsOf {path : BinaryPath} {oi : ℕ} {owner name params ret : Str} {oj : ℕ}
    {isAbstract : Bool} :
    ((name, params), (oj, ret, isAbstract)) ∈ declsOf path oi owner ↔
      oj = oi ∧ Declares path owner name params ret isAbstract := by
  cases ho : path owner with
  | none =>
      rw [declsOf, ho]
      constructor
      · intro hmem
        exact absurd hmem List.not_mem_nil
      · intro hdecl
        obtain ⟨-, i, -, -, hi, -⟩ := hdecl
        exact absurd (ho.symm.trans hi) (by simp)
  | some info =>
      rw [declsOf, ho]
      simp only [List.mem_filterMap, Prod.exists]
      constructor
      · intro hmem
        obtain ⟨n, desc, acc, hmethod, heq⟩ := hmem
        split at heq
        · exact absurd heq (by simp)
        · next hacc =>
          obtain ⟨⟨params', ret'⟩, hsplit, heq⟩ := Option.map_eq_some_iff.1 heq
          cases heq
          exact ⟨rfl, info, desc, acc, ho, hmethod, not_not.1 hacc, hsplit, rfl⟩
      · intro hdecl
        obtain ⟨rfl, i, desc, acc, hi, hmethod, hacc, hsplit, rfl⟩ := hdecl
        cases ho.symm.trans hi
        refine ⟨name, desc, acc, hmethod, ?_⟩
        rw [if_neg (not_not.2 hacc), hsplit]
        rfl

theorem mem_entries {path : BinaryPath} {owners : List Str} {name params ret : Str} {oi : ℕ}
    {isAbstract : Bool} :
    ((name, params), (oi, ret, isAbstract)) ∈ entries path owners ↔
      ∃ owner, owners[oi]? = some owner ∧ Declares path owner name params ret isAbstract := by
  rw [entries, List.mem_flatMap]
  constructor
  · intro hmem
    obtain ⟨⟨owner, oj⟩, howner, hmem⟩ := hmem
    obtain ⟨rfl, hdecl⟩ := mem_declsOf.1 hmem
    exact ⟨owner, List.mem_zipIdx_iff_getElem?.1 howner, hdecl⟩
  · intro hdecl
    obtain ⟨owner, howner, hdecl⟩ := hdecl
    exact ⟨(owner, oi), List.mem_zipIdx_iff_getElem?.2 howner, mem_declsOf.2 ⟨rfl, hdecl⟩⟩

/-- What is declared under a name and parameters, as an entry of `by_sig` has it. -/
def candsOf (path : BinaryPath) (owners : List Str) (name params : Str) : List Decl :=
  ((entries path owners).filter (·.1 = (name, params))).map (·.2)

theorem mem_candsOf {path : BinaryPath} {owners : List Str} {name params ret : Str} {oi : ℕ}
    {isAbstract : Bool} :
    (oi, ret, isAbstract) ∈ candsOf path owners name params ↔
      ∃ owner, owners[oi]? = some owner ∧ Declares path owner name params ret isAbstract := by
  rw [← mem_entries, candsOf, List.mem_map]
  constructor
  · intro hmem
    obtain ⟨⟨key, d⟩, hmem, rfl⟩ := hmem
    obtain ⟨hentry, hkey⟩ := List.mem_filter.1 hmem
    exact of_decide_eq_true hkey ▸ hentry
  · intro hmem
    exact ⟨_, List.mem_filter.2 ⟨hmem, decide_eq_true rfl⟩, rfl⟩

theorem bySig_eq (path : BinaryPath) (owners : List Str) :
    bySig path owners = ((entries path owners).map (·.1)).dedup.map fun key =>
      (key, candsOf path owners key.1 key.2) := rfl

/-- The owners in the closure, by their index. -/
theorem exists_getElem?_closure {owner : Str} (howner : Ancestor h.path roots owner) :
    ∃ oi : ℕ, (closure h.path roots)[oi]? = some owner :=
  List.mem_iff_getElem?.1 ((mem_closure h).2 howner)

theorem isMost_iff {name params owner : Str} {oi : ℕ}
    (howner : (closure h.path roots)[oi]? = some owner) :
    isMost h.path (closure h.path roots) (candsOf h.path (closure h.path roots) name params) oi =
      true ↔ IsMost h.path roots name params owner := by
  have hanc : Ancestor h.path roots owner := (mem_closure h).1 (List.mem_of_getElem? howner)
  have hget : (closure h.path roots).getD oi [] = owner := by
    rw [List.getD_eq_getElem?_getD, howner]
    rfl
  rw [isMost, List.all_eq_true, IsMost, hget]
  constructor
  · intro hall
    refine ⟨hanc, fun other ret isAbstract hother hdecl => ?_⟩
    obtain ⟨oj, hoj⟩ := exists_getElem?_closure h roots hother
    have hmost := hall _ (mem_candsOf.2 ⟨other, hoj, hdecl⟩)
    simp only [Bool.or_eq_true, decide_eq_true_eq, List.getD_eq_getElem?_getD, hoj,
      Option.getD_some, isSub_iff] at hmost
    rcases hmost with rfl | hsub
    · cases howner.symm.trans hoj
      exact .inr .refl
    · exact hsub
  · intro hmost d hd
    obtain ⟨oj, ret, isAbstract⟩ := d
    obtain ⟨other, hoj, hdecl⟩ := mem_candsOf.1 hd
    have hsub := hmost.2 other ret isAbstract ((mem_closure h).1 (List.mem_of_getElem? hoj)) hdecl
    simp only [Bool.or_eq_true, List.getD_eq_getElem?_getD, hoj, Option.getD_some, isSub_iff]
    exact .inr hsub

/-! ## The target -/

/-- The first result of the most specific declarations, and whether there is another one. -/
structure Scanned (path : BinaryPath) (owners : List Str) (cands seen : List Decl)
    (acc : Option Str × Bool) : Prop where
  none_of : acc.1 = none → acc.2 = false ∧ ∀ d ∈ seen, ¬isMost path owners cands d.1 = true
  some_of : ∀ t, acc.1 = some t → (∃ d ∈ seen, isMost path owners cands d.1 = true ∧ d.2.1 = t) ∧
    (acc.2 = false ↔ ∀ d ∈ seen, isMost path owners cands d.1 = true → d.2.1 = t)

theorem scanned_foldl (path : BinaryPath) (owners : List Str) (cands seen : List Decl) :
    Scanned path owners cands seen (seen.foldl (targetStep path owners cands) (none, false)) := by
  induction seen using List.reverseRecOn with
  | nil => exact ⟨fun _ => ⟨rfl, by simp⟩, fun t ht => absurd ht (by simp)⟩
  | append_singleton seen d ih =>
      rw [List.foldl_concat]
      generalize seen.foldl (targetStep path owners cands) (none, false) = acc at ih
      obtain ⟨target, ambiguous⟩ := acc
      rw [targetStep]
      split
      · next hmost =>
        cases target with
        | none =>
            obtain ⟨hamb, hnone⟩ := ih.none_of rfl
            refine ⟨fun ht => absurd ht (by simp), fun t ht => ?_⟩
            cases ht
            refine ⟨⟨d, by simp, hmost, rfl⟩, fun _ e he hsel => ?_, fun _ => hamb⟩
            rcases List.mem_append.1 he with he | he
            · exact absurd hsel (hnone e he)
            · rw [List.mem_singleton.1 he]
        | some t =>
            obtain ⟨⟨e, he, hsel, het⟩, hamb⟩ := ih.some_of t rfl
            dsimp only
            split
            · next heq =>
              refine ⟨fun ht => absurd ht (by simp), fun t' ht => ?_⟩
              cases ht
              refine ⟨⟨e, List.mem_append_left _ he, hsel, het⟩, ?_⟩
              rw [hamb, List.forall_mem_append, List.forall_mem_singleton]
              exact ⟨fun hall => ⟨hall, fun _ => heq.symm⟩, fun hall => hall.1⟩
            · next hne =>
              refine ⟨fun ht => absurd ht (by simp), fun t' ht => ?_⟩
              cases ht
              refine ⟨⟨e, List.mem_append_left _ he, hsel, het⟩, ?_⟩
              constructor
              · intro htrue
                exact absurd htrue (by simp)
              · intro hall
                exact absurd (hall d (by simp) hmost).symm hne
      · next hmost =>
        have hall : ∀ p : Decl → Prop, (∀ e ∈ seen ++ [d],
            isMost path owners cands e.1 = true → p e) ↔
            ∀ e ∈ seen, isMost path owners cands e.1 = true → p e := by
          intro p
          rw [List.forall_mem_append, List.forall_mem_singleton]
          exact ⟨fun hall => hall.1, fun hall => ⟨hall, fun hsel => absurd hsel hmost⟩⟩
        refine ⟨fun ht => ⟨(ih.none_of ht).1, (hall _).2 (ih.none_of ht).2⟩, fun t ht => ?_⟩
        obtain ⟨⟨e, he, hsel⟩, hamb⟩ := ih.some_of t ht
        exact ⟨⟨e, List.mem_append_left _ he, hsel⟩, hamb.trans (hall _).symm⟩

/-- When the scan has a result, and which one. -/
theorem scanTarget_eq_iff {name params t : Str} :
    scanTarget h.path (closure h.path roots) (candsOf h.path (closure h.path roots) name params) =
        (some t, false) ↔
      (∃ owner isAbstract, IsMost h.path roots name params owner ∧
        Declares h.path owner name params t isAbstract) ∧
      ∀ owner ret isAbstract, IsMost h.path roots name params owner →
        Declares h.path owner name params ret isAbstract → ret = t := by
  have hscan := scanned_foldl h.path (closure h.path roots)
    (candsOf h.path (closure h.path roots) name params)
    (candsOf h.path (closure h.path roots) name params)
  rw [← scanTarget] at hscan
  generalize scanTarget h.path (closure h.path roots)
    (candsOf h.path (closure h.path roots) name params) = acc at hscan
  -- The candidates of the most specific owners are its declarations.
  have hselected : ∀ p : Str → Prop, (∀ d ∈ candsOf h.path (closure h.path roots) name params,
      isMost h.path (closure h.path roots) (candsOf h.path (closure h.path roots) name params)
        d.1 = true → p d.2.1) ↔
      ∀ owner ret isAbstract, IsMost h.path roots name params owner →
        Declares h.path owner name params ret isAbstract → p ret := by
    intro p
    constructor
    · intro hall owner ret isAbstract hmost hdecl
      obtain ⟨oi, hoi⟩ := exists_getElem?_closure h roots hmost.1
      exact hall _ (mem_candsOf.2 ⟨owner, hoi, hdecl⟩) ((isMost_iff h roots hoi).2 hmost)
    · intro hall d hd hsel
      obtain ⟨oi, ret, isAbstract⟩ := d
      obtain ⟨owner, hoi, hdecl⟩ := mem_candsOf.1 hd
      exact hall owner ret isAbstract ((isMost_iff h roots hoi).1 hsel) hdecl
  obtain ⟨target, ambiguous⟩ := acc
  constructor
  · intro heq
    cases heq
    obtain ⟨⟨⟨oi, ret, isAbstract⟩, hd, hsel, rfl⟩, hamb⟩ := hscan.some_of t rfl
    obtain ⟨owner, hoi, hdecl⟩ := mem_candsOf.1 hd
    exact ⟨⟨owner, isAbstract, (isMost_iff h roots hoi).1 hsel, hdecl⟩,
      (hselected (· = ret)).1 (hamb.1 rfl)⟩
  · intro htarget
    obtain ⟨⟨owner, isAbstract, hmost, hdecl⟩, hunique⟩ := htarget
    cases target with
    | none =>
        have hnone := (hselected fun _ => False).1 fun d hd hsel => (hscan.none_of rfl).2 d hd hsel
        exact absurd hdecl fun hdecl => hnone owner t isAbstract hmost hdecl
    | some t' =>
        obtain ⟨⟨⟨oi, ret, isAbstract'⟩, hd, hsel, rfl⟩, hamb⟩ := hscan.some_of t' rfl
        obtain ⟨owner', hoi, hdecl'⟩ := mem_candsOf.1 hd
        have heq := hunique owner' ret isAbstract' ((isMost_iff h roots hoi).1 hsel) hdecl'
        cases heq
        have hfalse := hamb.2 ((hselected (· = t)).2 hunique)
        exact congrArg (some t, ·) hfalse

/-! ## The bridges of a member -/

theorem narrowBridge_eq_some {path : BinaryPath} {have' : List (Str × Str)}
    {name params target tc wide : Str} {b : Bridge} :
    narrowBridge path have' name params target tc wide = some b ↔
      wide ≠ target ∧ (∃ wc, classOf wide = some wc ∧ isSub path tc wc = true) ∧
        (name, params ++ wide) ∉ have' ∧
        b = ⟨name, params ++ wide, .narrow (params ++ target)⟩ := by
  rw [narrowBridge]
  by_cases hwide : wide = target
  · simp [hwide]
  · cases hwc : classOf wide with
    | none => simp [hwide]
    | some wc =>
        by_cases hsub : isSub path tc wc = true
        · by_cases hhave : (name, params ++ wide) ∈ have'
          · simp [hwide, hsub, hhave]
          · simp only [hwide, hsub, hhave, ite_false, Option.bind_eq_bind, Option.bind_some,
              Bool.true_eq_false, Option.some.injEq, ne_eq, not_false_iff, true_and, exists_eq_left']
            exact eq_comm
        · simp [hwide, hsub]

/-- A bridge from a wider result to the target. -/
def IsNarrow (name params : Str) (b : Bridge) : Prop :=
  ∃ ret wide tc wc, IsTarget h.path roots have' name params ret ∧
    Returns h.path roots name params wide ∧ wide ≠ ret ∧
    classOf ret = some tc ∧ classOf wide = some wc ∧ Subtype' h.path tc wc ∧
    (name, params ++ wide) ∉ have' ∧ b = ⟨name, params ++ wide, .narrow (params ++ ret)⟩

theorem mem_rets {name params ret : Str} :
    ret ∈ ((candsOf h.path (closure h.path roots) name params).map (·.2.1)).dedup ↔
      Returns h.path roots name params ret := by
  rw [List.mem_dedup, List.mem_map]
  constructor
  · intro hret
    obtain ⟨⟨oi, ret, isAbstract⟩, hd, rfl⟩ := hret
    obtain ⟨owner, hoi, hdecl⟩ := mem_candsOf.1 hd
    exact ⟨owner, isAbstract, (mem_closure h).1 (List.mem_of_getElem? hoi), hdecl⟩
  · intro hret
    obtain ⟨owner, isAbstract, howner, hdecl⟩ := hret
    obtain ⟨oi, hoi⟩ := exists_getElem?_closure h roots howner
    exact ⟨_, mem_candsOf.2 ⟨owner, hoi, hdecl⟩, rfl⟩

theorem reachable_iff {name params ret : Str} :
    ((candsOf h.path (closure h.path roots) name params).any
        (fun d => d.2.1 = ret ∧ d.2.2 = false) = true ∨ (name, params ++ ret) ∈ have') ↔
      (∃ owner, Ancestor h.path roots owner ∧ Declares h.path owner name params ret false) ∨
        (name, params ++ ret) ∈ have' := by
  apply or_congr_left
  rw [List.any_eq_true]
  constructor
  · intro hd
    obtain ⟨⟨oi, ret', isAbstract⟩, hd, heq⟩ := hd
    obtain ⟨rfl, rfl⟩ := of_decide_eq_true heq
    obtain ⟨owner, hoi, hdecl⟩ := mem_candsOf.1 hd
    exact ⟨owner, (mem_closure h).1 (List.mem_of_getElem? hoi), hdecl⟩
  · intro hdecl
    obtain ⟨owner, howner, hdecl⟩ := hdecl
    obtain ⟨oi, hoi⟩ := exists_getElem?_closure h roots howner
    exact ⟨_, mem_candsOf.2 ⟨owner, hoi, hdecl⟩, by simp⟩

theorem mem_groupBridges {name params : Str} {b : Bridge} :
    b ∈ groupBridges h.path (closure h.path roots) have' name params
        (candsOf h.path (closure h.path roots) name params) ↔
      IsNarrow h roots have' name params b := by
  rw [groupBridges]
  dsimp only
  constructor
  · intro hb
    split at hb
    · exact absurd hb List.not_mem_nil
    · split at hb
      · next target hscan =>
        split at hb
        · next hreach =>
          cases htc : classOf target with
          | none =>
              rw [htc] at hb
              exact absurd hb List.not_mem_nil
          | some tc =>
              rw [htc] at hb
              obtain ⟨wide, hwide, hb⟩ := List.mem_filterMap.1 hb
              obtain ⟨hne, ⟨wc, hwc, hsub⟩, hhave, rfl⟩ := narrowBridge_eq_some.1 hb
              obtain ⟨hdeclared, hunique⟩ := (scanTarget_eq_iff h roots).1 hscan
              exact ⟨target, wide, tc, wc,
                ⟨hdeclared, hunique, (reachable_iff h roots have').1 hreach⟩,
                (mem_rets h roots).1 hwide, hne, htc, hwc, (isSub_iff h tc wc).1 hsub, hhave, rfl⟩
        · exact absurd hb List.not_mem_nil
      · exact absurd hb List.not_mem_nil
  · intro hb
    obtain ⟨ret, wide, tc, wc, htarget, hreturns, hne, htc, hwc, hsub, hhave, rfl⟩ := hb
    have hwide := (mem_rets h roots).2 hreturns
    have hret : Returns h.path roots name params ret := by
      obtain ⟨owner, isAbstract, hmost, hdecl⟩ := htarget.declared
      exact ⟨owner, isAbstract, hmost.1, hdecl⟩
    -- There are two results.
    have hmany : ¬((candsOf h.path (closure h.path roots) name params).map
        (·.2.1)).dedup.length < 2 := by
      have hpair : [wide, ret].Subperm ((candsOf h.path (closure h.path roots) name params).map
          (·.2.1)).dedup := by
        apply List.subperm_of_subset (by simp [hne])
        intro x hx
        rcases List.mem_pair.1 hx with rfl | rfl
        · exact hwide
        · exact (mem_rets h roots).2 hret
      exact Nat.not_lt.2 hpair.length_le
    rw [if_neg hmany, (scanTarget_eq_iff h roots).2 ⟨htarget.declared, htarget.unique⟩]
    dsimp only
    rw [if_pos ((reachable_iff h roots have').2 htarget.implemented), htc]
    apply List.mem_filterMap.2
    exact ⟨wide, hwide, narrowBridge_eq_some.2
      ⟨hne, ⟨wc, hwc, (isSub_iff h tc wc).2 hsub⟩, hhave, rfl⟩⟩

theorem mem_covariantBridges {b : Bridge} :
    b ∈ covariantBridges h.path (closure h.path roots) have' ↔
      ∃ name params, IsNarrow h roots have' name params b := by
  rw [covariantBridges, bySig_eq, List.mem_flatMap]
  constructor
  · intro hb
    obtain ⟨⟨⟨name, params⟩, cands⟩, hkey, hb⟩ := hb
    obtain ⟨⟨name, params⟩, -, heq⟩ := List.mem_map.1 hkey
    cases heq
    exact ⟨name, params, (mem_groupBridges h roots have').1 hb⟩
  · intro hb
    obtain ⟨name, params, hb⟩ := hb
    refine ⟨((name, params), candsOf h.path (closure h.path roots) name params), ?_,
      (mem_groupBridges h roots have').2 hb⟩
    obtain ⟨ret, wide, tc, wc, htarget, -⟩ := hb
    obtain ⟨owner, isAbstract, hmost, hdecl⟩ := htarget.declared
    obtain ⟨oi, hoi⟩ := exists_getElem?_closure h roots hmost.1
    apply List.mem_map.2
    exact ⟨(name, params), List.mem_dedup.2
      (List.mem_map.2 ⟨_, mem_entries.2 ⟨owner, hoi, hdecl⟩, rfl⟩), rfl⟩

/-! ## All bridges -/

def Bridge.signature (b : Bridge) : Str × Str := (b.name, b.desc)

theorem nodup_groupBridges {path : BinaryPath} {owners : List Str} {have' : List (Str × Str)}
    {name params : Str} {cands : List Decl} :
    ((groupBridges path owners have' name params cands).map Bridge.signature).Nodup := by
  rw [groupBridges]
  dsimp only
  split
  · exact List.nodup_nil
  · split
    · split
      · split
        · exact List.nodup_nil
        · rw [List.map_filterMap]
          apply List.Nodup.filterMap _ (List.nodup_dedup _)
          intro wide wide' k hk hk'
          obtain ⟨b, hb, rfl⟩ := Option.map_eq_some_iff.1 hk
          obtain ⟨b', hb', heq⟩ := Option.map_eq_some_iff.1 hk'
          obtain ⟨-, -, -, rfl⟩ := narrowBridge_eq_some.1 hb
          obtain ⟨-, -, -, rfl⟩ := narrowBridge_eq_some.1 hb'
          exact (List.append_cancel_left (Prod.mk.inj heq).2).symm
      · exact List.nodup_nil
    · exact List.nodup_nil

/-- A bridge tells the parameters of its member. -/
theorem IsNarrow.splitDesc {name params : Str} {b : Bridge}
    (hb : IsNarrow h roots have' name params b) :
    b.name = name ∧ ∃ wide, splitDesc b.desc = some (params, wide) := by
  obtain ⟨ret, wide, tc, wc, htarget, -, -, -, -, -, -, rfl⟩ := hb
  obtain ⟨owner, isAbstract, -, i, desc, acc, -, -, -, hsplit, -⟩ := htarget.declared
  exact ⟨rfl, wide, splitDesc_params hsplit wide⟩

theorem nodup_covariantBridges :
    ((covariantBridges h.path (closure h.path roots) have').map Bridge.signature).Nodup := by
  rw [covariantBridges, bySig_eq, List.flatMap_map, List.map_flatMap, List.nodup_flatMap]
  refine ⟨fun key _ => nodup_groupBridges, ?_⟩
  apply (List.nodup_dedup _).imp
  intro key key' hne k hk hk'
  obtain ⟨b, hb, rfl⟩ := List.mem_map.1 hk
  obtain ⟨b', hb', heq⟩ := List.mem_map.1 hk'
  obtain ⟨hname, wide, hsplit⟩ := ((mem_groupBridges h roots have').1 hb).splitDesc
  obtain ⟨hname', wide', hsplit'⟩ := ((mem_groupBridges h roots have').1 hb').splitDesc
  obtain ⟨hnames, hdescs⟩ := Prod.mk.inj heq
  rw [hdescs, hsplit] at hsplit'
  apply hne
  exact Prod.ext (hname.symm.trans (hnames.symm.trans hname'))
    (Prod.mk.inj (Option.some.inj hsplit')).1

def Bridge.isNarrow (b : Bridge) : Bool :=
  match b.kind with
  | .narrow _ => true
  | .static .. => false

/-- The bridges to narrower results that are emitted. -/
def narrowBridges (path : BinaryPath) (roots : List Str) (have' : List (Str × Str)) : List Bridge :=
  (bridges path roots have').filter Bridge.isNarrow

theorem clashForwarder_name {path : BinaryPath} {owners : List Str} {have' : List (Str × Str)}
    {name desc : Str} {b : Bridge} (hb : clashForwarder path owners have' name desc = some b) :
    b.name = name ∧ b.isNarrow = false := by
  rw [clashForwarder] at hb
  split at hb
  · exact absurd hb (by simp)
  · split at hb
    · exact absurd hb (by simp)
    · split at hb
      · obtain ⟨⟨params, ret⟩, -, hb⟩ := Option.bind_eq_some_iff.1 hb
        dsimp only at hb
        split at hb
        · cases hb
          exact ⟨rfl, rfl⟩
        · exact absurd hb (by simp)
      · exact absurd hb (by simp)

theorem clashForwarder_nil (path : BinaryPath) (have' : List (Str × Str)) (name desc : Str) :
    clashForwarder path [] have' name desc = none := by
  rw [clashForwarder]
  split <;> rfl

/-- The bridges are those of both kinds, in some order. -/
theorem bridges_perm (path : BinaryPath) (roots : List Str) (have' : List (Str × Str)) :
    (bridges path roots have').Perm (covariantBridges path (closure path roots) have' ++
      objectClashForwarders path (closure path roots) have') := by
  rw [bridges]
  split
  · next hempty =>
    have hnone : objectClashForwarders path [] have' = [] :=
      List.filterMap_eq_nil_iff.2 fun member _ => clashForwarder_nil path have' member.1 member.2
    rw [List.isEmpty_iff.1 hempty, hnone]
    exact .refl _
  · exact List.mergeSort_perm _ _

theorem isNarrow_of_mem_covariantBridges {b : Bridge}
    (hb : b ∈ covariantBridges h.path (closure h.path roots) have') : b.isNarrow = true := by
  obtain ⟨name, params, ret, wide, tc, wc, -, -, -, -, -, -, -, rfl⟩ :=
    (mem_covariantBridges h roots have').1 hb
  rfl

theorem narrowBridges_perm :
    (narrowBridges h.path roots have').Perm
      (covariantBridges h.path (closure h.path roots) have') := by
  have hnarrow : ∀ b ∈ covariantBridges h.path (closure h.path roots) have', b.isNarrow = true :=
    fun b hb => isNarrow_of_mem_covariantBridges h roots have' hb
  have hstatic : ∀ b ∈ objectClashForwarders h.path (closure h.path roots) have',
      ¬b.isNarrow = true := by
    intro b hb
    obtain ⟨⟨name, desc⟩, -, hb⟩ := List.mem_filterMap.1 hb
    simp [(clashForwarder_name hb).2]
  apply ((bridges_perm h.path roots have').filter _).trans
  rw [List.filter_append, List.filter_eq_self.2 hnarrow, List.filter_eq_nil_iff.2 hstatic,
    List.append_nil]

theorem narrowBridges_correct :
    ((narrowBridges h.path roots have').map Bridge.signature).Nodup ∧
    (∀ b ∈ narrowBridges h.path roots have', b.signature ∉ have' ∧ b.kind ≠ .narrow b.desc ∧
      ∃ params ret wide tc wc, b.desc = params ++ wide ∧ b.kind = .narrow (params ++ ret) ∧
        IsTarget h.path roots have' b.name params ret ∧
        Returns h.path roots b.name params wide ∧
        classOf ret = some tc ∧ classOf wide = some wc ∧ Subtype' h.path tc wc) ∧
    ∀ name params ret tc wide wc, IsTarget h.path roots have' name params ret →
      classOf ret = some tc → Returns h.path roots name params wide → classOf wide = some wc →
      wide ≠ ret → Subtype' h.path tc wc →
      (name, params ++ wide) ∈ have' ∨
        ⟨name, params ++ wide, .narrow (params ++ ret)⟩ ∈ narrowBridges h.path roots have' := by
  have hperm := narrowBridges_perm h roots have'
  refine ⟨?_, fun b hb => ?_, ?_⟩
  · rw [(hperm.map Bridge.signature).nodup_iff]
    exact nodup_covariantBridges h roots have'
  · rw [hperm.mem_iff, mem_covariantBridges] at hb
    obtain ⟨name, params, ret, wide, tc, wc, htarget, hreturns, hne, htc, hwc, hsub, hhave, rfl⟩ := hb
    refine ⟨hhave, fun heq => ?_, params, ret, wide, tc, wc, rfl, rfl, htarget, hreturns, htc, hwc,
      hsub⟩
    injection heq with heq
    exact hne (List.append_cancel_left heq).symm
  · intro name params ret tc wide wc htarget htc hreturns hwc hne hsub
    by_cases hhave : (name, params ++ wide) ∈ have'
    · exact .inl hhave
    · apply Or.inr
      rw [hperm.mem_iff, mem_covariantBridges]
      exact ⟨name, params, ret, wide, tc, wc, htarget, hreturns, hne, htc, hwc, hsub, hhave, rfl⟩

end ScalaRs.InterfaceBridges
