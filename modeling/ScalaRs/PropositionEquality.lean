import ScalaRs.Propositions
import Mathlib.Data.List.Perm.Subperm
import Mathlib.Logic.Equiv.Multiset

/-! # Equality of propositions as sets of operands

`code p` is a number that forgets the order of operands at every level. On
propositions whose operand lists are sets, the equality of the source is
equality of codes, and the hash depends on the code only, so that the operand
sets under construction drop exactly the operands seen before. -/
namespace ScalaRs.Patmat.Proposition

def code : Proposition → ℕ
  | eq v c => Nat.pair 0 (Nat.pair v c)
  | and ops => Nat.pair 1 (Encodable.encode (ops.map code : Multiset ℕ))
  | or ops => Nat.pair 2 (Encodable.encode (ops.map code : Multiset ℕ))
  | not a => Nat.pair 3 (code a)
  | atMostOne ops => Nat.pair 4 (Encodable.encode ops)
  | true => Nat.pair 5 0
  | false => Nat.pair 6 0
  | sym s => Nat.pair 7 s

/-- The operands of every connective are pairwise different. -/
inductive SetLike : Proposition → Prop
  | eq (v c) : SetLike (eq v c)
  | and {ops} : (∀ o ∈ ops, SetLike o) → (ops.map code).Nodup → SetLike (and ops)
  | or {ops} : (∀ o ∈ ops, SetLike o) → (ops.map code).Nodup → SetLike (or ops)
  | not {a} : SetLike a → SetLike (not a)
  | atMostOne (ops) : SetLike (atMostOne ops)
  | true : SetLike true
  | false : SetLike false
  | sym (s) : SetLike (sym s)

theorem code_and {a b : List Proposition} :
    (and a).code = (and b).code ↔ (a.map code).Perm (b.map code) := by
  simp [code, Nat.pair_eq_pair, Encodable.encode_injective.eq_iff]

theorem code_or {a b : List Proposition} :
    (or a).code = (or b).code ↔ (a.map code).Perm (b.map code) := by
  simp [code, Nat.pair_eq_pair, Encodable.encode_injective.eq_iff]

/-- Lists with the same values of `f` have the same values of whatever `f` determines. -/
theorem perm_map_of_perm_map {α β γ : Type*} [Inhabited γ] {f : α → β} {g : α → γ} {a b : List α}
    (h : (a.map f).Perm (b.map f)) (hfg : ∀ x ∈ a, ∀ y, f x = f y → g x = g y) :
    (a.map g).Perm (b.map g) := by
  classical
  let back : β → γ := fun n => if hn : ∃ x ∈ a, f x = n then g hn.choose else default
  have hback : ∀ y, (∃ x ∈ a, f x = f y) → back (f y) = g y := by
    intro y hy
    simp only [back, dif_pos hy]
    exact hfg _ hy.choose_spec.1 y hy.choose_spec.2
  have ha : a.map g = (a.map f).map back := by
    rw [List.map_map]
    exact List.map_congr_left fun x hx => (hback x ⟨x, hx, rfl⟩).symm
  have hb : b.map g = (b.map f).map back := by
    rw [List.map_map]
    refine List.map_congr_left fun y hy => (hback y ?_).symm
    exact List.mem_map.mp (h.mem_iff.mpr (List.mem_map_of_mem hy))
  rw [ha, hb]
  exact h.map back

theorem words_eq_of_code_eq (fx : List UInt64 → UInt64) (p : Proposition) :
    ∀ q : Proposition, p.code = q.code → p.words fx = q.words fx := by
  have operands : ∀ a b : List Proposition, (∀ o ∈ a, ∀ q : Proposition, o.code = q.code →
      o.words fx = q.words fx) → (a.map code).Perm (b.map code) →
      (a.map fun o => fx (o.words fx)).sum = (b.map fun o => fx (o.words fx)).sum := by
    intro a b ih h
    refine (perm_map_of_perm_map h fun x hx y hxy => ?_).foldr_eq' (fun x _ y _ z => ?_) 0
    · rw [ih x hx y hxy]
    · rw [← UInt64.add_assoc, UInt64.add_comm y x, UInt64.add_assoc]
  induction p with
  | and a ih =>
    rintro (_ | b | _ | _ | _ | _ | _ | _) h
    case and => simp only [words, operands a b ih (code_and.mp h)]
    all_goals simp [code, Nat.pair_eq_pair] at h
  | or a ih =>
    rintro (_ | _ | b | _ | _ | _ | _ | _) h
    case or => simp only [words, operands a b ih (code_or.mp h)]
    all_goals simp [code, Nat.pair_eq_pair] at h
  | not a ih =>
    rintro (_ | _ | _ | b | _ | _ | _ | _) h
    case not => simp only [words, ih b (by simpa [code, Nat.pair_eq_pair] using h)]
    all_goals simp [code, Nat.pair_eq_pair] at h
  | _ =>
    rintro (_ | _ | _ | _ | _ | _ | _ | _) h <;> simp_all [code, words, Nat.pair_eq_pair]

theorem hash_eq_of_code_eq (fx : List UInt64 → UInt64) {p q : Proposition} (h : p.code = q.code) :
    p.hash fx = q.hash fx := by
  rw [hash, hash, words_eq_of_code_eq fx p q h]

theorem perm_code_iff {a b : List Proposition} (ha : (a.map code).Nodup) :
    (a.map code).Perm (b.map code) ↔
      a.length = b.length ∧ ∀ x ∈ a, ∃ y ∈ b, y.code = x.code := by
  constructor
  · intro h
    refine ⟨by simpa using h.length_eq, fun x hx => ?_⟩
    exact List.mem_map.mp (h.mem_iff.mp (List.mem_map_of_mem hx))
  · rintro ⟨hlen, hsub⟩
    refine (List.subperm_of_subset ha fun n hn => ?_).perm_of_length_le (by simp [hlen])
    obtain ⟨x, hx, rfl⟩ := List.mem_map.mp hn
    obtain ⟨y, hy, hxy⟩ := hsub x hx
    exact hxy ▸ List.mem_map_of_mem hy

variable {fx : List UInt64 → UInt64}

theorem beq_and {a b : List Proposition} : beq fx (and a) (and b) = Bool.true ↔
    a.length = b.length ∧ ∀ x ∈ a, ∃ y ∈ b,
      if a.length ≤ 8 then beq fx y x = Bool.true
      else x.hash fx = y.hash fx ∧ beq fx x y = Bool.true := by
  rw [beq]
  split <;> simp [and_left_comm]

theorem beq_or {a b : List Proposition} : beq fx (or a) (or b) = Bool.true ↔
    a.length = b.length ∧ ∀ x ∈ a, ∃ y ∈ b,
      if a.length ≤ 8 then beq fx y x = Bool.true
      else x.hash fx = y.hash fx ∧ beq fx x y = Bool.true := by
  rw [beq]
  split <;> simp [and_left_comm]

/-- Looking every operand up in the other list compares the lists as sets. -/
private theorem lookup_iff {a b : List Proposition} (ha : (a.map code).Nodup)
    (h : ∀ x ∈ a, ∀ y ∈ b, (beq fx x y = Bool.true ↔ x.code = y.code) ∧
      (beq fx y x = Bool.true ↔ y.code = x.code)) :
    (a.length = b.length ∧ ∀ x ∈ a, ∃ y ∈ b,
      if a.length ≤ 8 then beq fx y x = Bool.true
      else x.hash fx = y.hash fx ∧ beq fx x y = Bool.true) ↔
    (a.map code).Perm (b.map code) := by
  rw [perm_code_iff ha]
  refine and_congr_right fun _ => forall₂_congr fun x hx => exists_congr fun y =>
    and_congr_right fun hy => ?_
  split
  · exact (h x hx y hy).2
  · rw [(h x hx y hy).1]
    exact ⟨fun hxy => hxy.2.symm, fun hxy => ⟨hash_eq_of_code_eq fx hxy.symm, hxy.symm⟩⟩

theorem beq_iff_code_eq {p : Proposition} (hp : p.SetLike) : ∀ {q : Proposition}, q.SetLike →
    (beq fx p q = Bool.true ↔ p.code = q.code) ∧ (beq fx q p = Bool.true ↔ q.code = p.code) := by
  induction hp with
  | @and a ha hna ih =>
    intro q hq
    cases hq with
    | @and b hb hnb =>
      rw [beq_and, beq_and, code_and, code_and]
      exact ⟨lookup_iff hna fun x hx y hy => ih x hx (hb y hy),
        lookup_iff hnb fun y hy x hx => (ih x hx (hb y hy)).symm⟩
    | _ => simp [beq, code, Nat.pair_eq_pair]
  | @or a ha hna ih =>
    intro q hq
    cases hq with
    | @or b hb hnb =>
      rw [beq_or, beq_or, code_or, code_or]
      exact ⟨lookup_iff hna fun x hx y hy => ih x hx (hb y hy),
        lookup_iff hnb fun y hy x hx => (ih x hx (hb y hy)).symm⟩
    | _ => simp [beq, code, Nat.pair_eq_pair]
  | not ha ih =>
    intro q hq
    cases hq with
    | not hb => simpa [beq, code, Nat.pair_eq_pair] using ih hb
    | _ => simp [beq, code, Nat.pair_eq_pair]
  | _ =>
    intro q hq
    cases hq <;> simp [beq, code, Nat.pair_eq_pair, Encodable.encode_injective.eq_iff]


/-- The codes of the operands so far are those of the operands given. -/
theorem contains_iff {items : List Proposition} (hitems : ∀ o ∈ items, o.SetLike)
    {p : Proposition} (hp : p.SetLike) :
    contains fx items p = Bool.true ↔ p.code ∈ items.map code := by
  simp only [contains, List.any_eq_true, Bool.and_eq_true, decide_eq_true_eq, List.mem_map]
  refine exists_congr fun q => and_congr_right fun hq => ?_
  rw [(beq_iff_code_eq (hitems q hq) hp).1]
  exact ⟨And.right, fun h => ⟨hash_eq_of_code_eq fx h, h⟩⟩

/-- Operands under construction: a set of `SetLike` propositions. -/
structure OperandSet (items : List Proposition) : Prop where
  setLike : ∀ o ∈ items, o.SetLike
  nodup : (items.map code).Nodup

theorem OperandSet.nil : OperandSet [] := ⟨by simp, by simp⟩

theorem OperandSet.and {items : List Proposition} (h : OperandSet items) :
    (Proposition.and items).SetLike := .and h.setLike h.nodup

theorem OperandSet.or {items : List Proposition} (h : OperandSet items) :
    (Proposition.or items).SetLike := .or h.setLike h.nodup

variable (fx)

theorem OperandSet.insert {items : List Proposition} (h : OperandSet items) {p : Proposition}
    (hp : p.SetLike) : OperandSet (insert fx items p) ∧
      ∀ n, n ∈ (Proposition.insert fx items p).map code ↔ n ∈ items.map code ∨ n = p.code := by
  unfold Proposition.insert
  split
  case isTrue hc =>
    have hmem := (contains_iff h.setLike hp).mp hc
    exact ⟨h, fun n => ⟨.inl, fun hn => hn.elim id fun e => e ▸ hmem⟩⟩
  case isFalse hc =>
    have hmem := fun hm => hc ((contains_iff h.setLike hp).mpr hm)
    refine ⟨⟨?_, ?_⟩, by simp [eq_comm]⟩
    · intro o ho
      rcases List.mem_append.mp ho with ho | ho
      · exact h.setLike o ho
      · exact List.mem_singleton.mp ho ▸ hp
    · rw [List.map_append, List.nodup_append]
      refine ⟨h.nodup, by simp, fun n hn m hm e => hmem ?_⟩
      rw [List.map_singleton, List.mem_singleton] at hm
      exact hm ▸ e ▸ hn

theorem OperandSet.foldl_insert {ps : List Proposition} (hps : ∀ p ∈ ps, p.SetLike) :
    ∀ {items : List Proposition}, OperandSet items → OperandSet (ps.foldl (Proposition.insert fx) items) ∧
      ∀ n, n ∈ (ps.foldl (Proposition.insert fx) items).map code ↔
        n ∈ items.map code ∨ n ∈ ps.map code := by
  induction ps with
  | nil => simp
  | cons p ps ih =>
    intro items h
    have hp := h.insert fx (hps p List.mem_cons_self)
    have hrest := ih (fun q hq => hps q (List.mem_cons_of_mem p hq)) hp.1
    refine ⟨hrest.1, fun n => ?_⟩
    rw [List.foldl_cons, hrest.2, hp.2, List.map_cons, List.mem_cons, or_assoc]

theorem operandSet_unique {ps : List Proposition} (hps : ∀ p ∈ ps, p.SetLike) :
    OperandSet (unique fx ps) := (OperandSet.nil.foldl_insert fx hps).1

theorem mem_code_unique {ps : List Proposition} (hps : ∀ p ∈ ps, p.SetLike) (n : ℕ) :
    n ∈ (unique fx ps).map code ↔ n ∈ ps.map code := by
  rw [unique, (OperandSet.nil.foldl_insert fx hps).2 n]
  simp

end ScalaRs.Patmat.Proposition
