import ScalaRs.ConstantEvaluation
import ScalaRs.ModifiedUtf8Units

/-! # Folded constants are the values of their trees

Each operation of the folder gives the value of the operator of that name, and by
induction on the tree so does the folder. -/
namespace ScalaRs.ConstFold

open MachineArithmetic CodeUnits NameTransformer ModifiedUtf8

variable {F D : Type}

/-! ## Names -/

def encodedNames : List (String × BinOp) := [("$plus", .add), ("$minus", .sub), ("$times", .mul),
  ("$div", .div), ("$percent", .rem), ("$less$less", .shl), ("$greater$greater", .shr),
  ("$greater$greater$greater", .ushr), ("$amp", .and), ("$bar", .or), ("$up", .xor),
  ("$eq$eq", .eq), ("$bang$eq", .ne), ("$less", .lt), ("$less$eq", .le), ("$greater", .gt),
  ("$greater$eq", .ge), ("$amp$amp", .land), ("$bar$bar", .lor)]

theorem opName_of_not_encoded {name : String} (h : name ∉ encodedNames.map Prod.fst) :
    opName name = name := by
  unfold opName
  split
  all_goals first
    | rfl
    | exact absurd (by decide) h

theorem opName_cases (name : String) : opName name = name ∨
    ∃ op, (name, op) ∈ encodedNames ∧ opName name = op.method := by
  have hall : ∀ entry ∈ encodedNames, opName entry.1 = entry.2.method := by decide
  by_cases h : name ∈ encodedNames.map Prod.fst
  · obtain ⟨⟨_, op⟩, hmem, rfl⟩ := List.mem_map.mp h
    exact .inr ⟨op, hmem, hall _ hmem⟩
  · exact .inl (opName_of_not_encoded h)

theorem ofName_of_encodedNames {name : String} {op : BinOp} (h : (name, op) ∈ encodedNames) :
    BinOp.ofName name = some op := by
  have hall : ∀ entry ∈ encodedNames, BinOp.ofName entry.1 = some entry.2 := by decide
  exact hall _ h

theorem ofName_method (op : BinOp) : BinOp.ofName op.method = some op := by
  have hall : ∀ op ∈ BinOp.all, BinOp.ofName op.method = some op := by decide
  exact hall op op.mem_all

theorem method_injective {a b : BinOp} (h : a.method = b.method) : a = b := by
  have hname := ofName_method a
  rw [h, ofName_method b] at hname
  exact (Option.some.inj hname).symm

theorem ofName_unary (op : UnOp) :
    UnOp.ofName op.method = some op ∧ BinOp.ofName op.method = none := by
  have hall : ∀ op ∈ UnOp.all, UnOp.ofName op.method = some op ∧
      BinOp.ofName op.method = none := by decide
  exact hall op op.mem_all

/-- The operator that the folder reads from a name is the one that has it. -/
theorem binOp_of_opName {name : String} {op : BinOp} (h : opName name = op.method) :
    BinOp.ofName name = some op := by
  rcases opName_cases name with hname | ⟨op', hmem, hname⟩
  · rw [← hname, h]
    exact ofName_method op
  · have hop : op' = op := method_injective (hname.symm.trans h)
    exact hop ▸ ofName_of_encodedNames hmem

theorem unOp_of_opName {name : String} {op : UnOp} (h : opName name = op.method) :
    UnOp.ofName name = some op := by
  obtain ⟨hop, hno⟩ := ofName_unary op
  rcases opName_cases name with hname | ⟨op', -, hname⟩
  · rw [← hname, h]
    exact hop
  · rw [← h, hname, ofName_method] at hno
    cases hno

/-! ## Numbers -/

/-- A `Char` is a code unit. -/
def Lit.IsScala (lit : Lit F D) : Prop := ∀ c, lit = .char c → c.toNat < 0x10000

def Answer.lit {α : Type} (mk : α → Lit F D) : Answer α → Lit F D
  | number a => mk a
  | truth b => .boolean b

/-- Neither a shift nor lazy. -/
def BinOp.isPlain (op : BinOp) : Bool := !op.isShift && op != .land && op != .lor

section Numbers

/-- The answer of a comparison, given how the operands compare. -/
def BinOp.comparison (eq lt le gt ge : Bool) : BinOp → Option Bool
  | .eq => some eq
  | .ne => some !eq
  | .lt => some lt
  | .le => some le
  | .gt => some gt
  | .ge => some ge
  | _ => none

theorem cmp_sound {s : String} {eq lt le gt ge : Bool} {lit : Lit F D}
    (h : cmp s eq lt le gt ge = some lit) : ∃ (op : BinOp) (t : Bool), s = op.method ∧
      op.isPlain = true ∧ op.comparison eq lt le gt ge = some t ∧ lit = .boolean t := by
  unfold cmp at h
  split at h
  · exact ⟨.eq, eq, rfl, rfl, rfl, (Option.some.inj h).symm⟩
  · exact ⟨.ne, !eq, rfl, rfl, rfl, (Option.some.inj h).symm⟩
  · exact ⟨.lt, lt, rfl, rfl, rfl, (Option.some.inj h).symm⟩
  · exact ⟨.le, le, rfl, rfl, rfl, (Option.some.inj h).symm⟩
  · exact ⟨.gt, gt, rfl, rfl, rfl, (Option.some.inj h).symm⟩
  · exact ⟨.ge, ge, rfl, rfl, rfl, (Option.some.inj h).symm⟩
  · cases h

theorem whole_of_comparison {w : ℕ} {a b : BitVec w} {op : BinOp} {t : Bool}
    (h : op.comparison (a == b) (a.slt b) (a.sle b) (b.slt a) (b.sle a) = some t) :
    op.whole a b = .value (.truth t) := by
  have heq : (a == b) = decide (a.toInt = b.toInt) := by
    rw [Bool.eq_iff_iff, beq_iff_eq, decide_eq_true_eq, toInt_eq_iff]
  rw [heq] at h
  cases op with
  | eq => cases h; rfl
  | ne => cases h; rw [BinOp.whole, decide_not]
  | lt => cases h; rfl
  | le => cases h; rfl
  | gt => cases h; rfl
  | ge => cases h; rfl
  | _ => cases h

theorem fraction_of_comparison {G : Type} [Format G] {a b : G} {op : BinOp} {t : Bool}
    (h : op.comparison (Format.eq a b) (Format.lt a b) (Format.le a b) (Format.lt b a)
      (Format.le b a) = some t) : op.fraction a b = .value (.truth t) := by
  cases op with
  | eq => cases h; rfl
  | ne => cases h; rfl
  | lt => cases h; rfl
  | le => cases h; rfl
  | gt => cases h; rfl
  | ge => cases h; rfl
  | _ => cases h

theorem foldWhole_sound {w : ℕ} {mk : BitVec w → Lit F D} {s : String} {a b : BitVec w}
    {lit : Lit F D} (h : foldWhole mk s a b = some lit) : ∃ (op : BinOp) (r : Answer (BitVec w)),
      s = op.method ∧ op.isPlain = true ∧ op.whole a b = .value r ∧ lit = r.lit mk := by
  have hzero : b ≠ 0 → ¬ b.toInt = 0 := by
    intro hb hb'
    apply hb
    rw [← toInt_eq_iff, hb']
    exact BitVec.toInt_zero.symm
  have hsome : ∀ {r : Answer (BitVec w)}, some (r.lit mk) = some lit → lit = r.lit mk :=
    fun h => (Option.some.inj h).symm
  unfold foldWhole at h
  split at h
  · exact ⟨.add, .number (a + b), rfl, rfl, by rw [BinOp.whole, ofInt_add], hsome h⟩
  · exact ⟨.sub, .number (a - b), rfl, rfl, by rw [BinOp.whole, ofInt_sub], hsome h⟩
  · exact ⟨.mul, .number (a * b), rfl, rfl, by rw [BinOp.whole, ofInt_mul], hsome h⟩
  · split at h
    · next hb =>
      exact ⟨.div, .number (a.sdiv b), rfl, rfl,
        by rw [BinOp.whole, if_neg (hzero hb), ofInt_tdiv], hsome h⟩
    · cases h
  · split at h
    · next hb =>
      exact ⟨.rem, .number (a.srem b), rfl, rfl,
        by rw [BinOp.whole, if_neg (hzero hb), ofInt_tmod], hsome h⟩
    · cases h
  · exact ⟨.and, .number (a &&& b), rfl, rfl, rfl, hsome h⟩
  · exact ⟨.or, .number (a ||| b), rfl, rfl, rfl, hsome h⟩
  · exact ⟨.xor, .number (a ^^^ b), rfl, rfl, rfl, hsome h⟩
  · obtain ⟨op, t, hname, hplain, ht, rfl⟩ := cmp_sound h
    exact ⟨op, .truth t, hname, hplain, whole_of_comparison ht, rfl⟩

theorem foldFraction_sound {G : Type} [Format G] {mk : G → Lit F D} {s : String} {a b : G}
    {lit : Lit F D} (h : foldFraction mk s a b = some lit) : ∃ (op : BinOp) (r : Answer G),
      s = op.method ∧ op.isPlain = true ∧ op.fraction a b = .value r ∧ lit = r.lit mk := by
  have hsome : ∀ {r : Answer G}, some (r.lit mk) = some lit → lit = r.lit mk :=
    fun h => (Option.some.inj h).symm
  unfold foldFraction at h
  split at h
  · exact ⟨.add, .number _, rfl, rfl, rfl, hsome h⟩
  · exact ⟨.sub, .number _, rfl, rfl, rfl, hsome h⟩
  · exact ⟨.mul, .number _, rfl, rfl, rfl, hsome h⟩
  · exact ⟨.div, .number _, rfl, rfl, rfl, hsome h⟩
  · exact ⟨.rem, .number _, rfl, rfl, rfl, hsome h⟩
  · obtain ⟨op, t, hname, hplain, ht, rfl⟩ := cmp_sound h
    exact ⟨op, .truth t, hname, hplain, fraction_of_comparison ht, rfl⟩

/-- Shifting by the masked count, at the width `2 ^ k`. -/
theorem foldShift_sound {k : ℕ} (hk : k ≤ 64) {s : String} (hs : s = "<<" ∨ s = ">>" ∨ s = ">>>")
    (v : BitVec (2 ^ k)) (count : BitVec 64) :
    ∃ op : BinOp, s = op.method ∧ op.isShift = true ∧ op.shift v count.toInt =
      .value (foldShift s v (count &&& BitVec.ofNat 64 (2 ^ k - 1)).toNat) := by
  have hpow : ((2 ^ k : ℕ) : ℤ) = (2 : ℤ) ^ k := Int.natCast_pow 2 k
  have hmask : (count &&& BitVec.ofNat 64 (2 ^ k - 1)).toNat =
      (count.toInt % ((2 ^ k : ℕ) : ℤ)).toNat := by
    rw [hpow]
    exact toNat_and_mask count hk
  rw [hmask]
  rcases hs with rfl | rfl | rfl
  · exact ⟨.shl, rfl, rfl, by rw [BinOp.shift, ofInt_shiftLeft]; rfl⟩
  · exact ⟨.shr, rfl, rfl, by rw [BinOp.shift, ofInt_shiftRight]; rfl⟩
  · exact ⟨.ushr, rfl, rfl, by rw [BinOp.shift, ofNat_shiftRight]; rfl⟩

theorem isScala_of_ne {lit : Lit F D} (h : ∀ c, lit ≠ .char c) : lit.IsScala :=
  fun c hc => absurd hc (h c)

theorem isScala_lit {α : Type} {mk : α → Lit F D} (h : ∀ a c, mk a ≠ .char c) (r : Answer α) :
    (r.lit mk).IsScala := by
  cases r with
  | number a => exact isScala_of_ne (h a)
  | truth b => exact isScala_of_ne nofun

/-- The number the folder reads from a constant is that of its value. -/
theorem numeric_of {x : Lit F D} {n : Num F D} (hx : x.IsScala) (h : Num.of x = some n) :
    x.value.numeric = some n := by
  cases x with
  | char c =>
    have hc : (BitVec.ofNat 16 c.toNat).toNat = c.toNat := by
      rw [BitVec.toNat_ofNat]
      exact Nat.mod_eq_of_lt (hx c rfl)
    rw [← h, Lit.value, Value.numeric, hc, BitVec.ofInt_natCast]
    rfl
  | int n => exact h
  | long n => exact h
  | float n => exact h
  | double n => exact h
  | _ => cases h

/-- What is answered to operands of one type, as a value and as a constant. -/
theorem bind_answer {α : Type} {o : Outcome (Answer α)} {r : Answer α} (h : o = .value r)
    {mk : α → Lit F D} {mk' : α → Value F D} (hmk : ∀ a, (mk a).value = mk' a) :
    (o.bind fun r => .value (r.value mk')) = .value (r.lit mk).value := by
  rw [h, Outcome.value_bind]
  cases r with
  | number a => exact congrArg Outcome.value (hmk a).symm
  | truth b => rfl

variable [Format F] [Format D]

theorem foldSame_sound {s : String} {x y : Num F D} {lit : Lit F D}
    (h : foldSame s x y = some lit) : ∃ op : BinOp, s = op.method ∧ op.isPlain = true ∧
      op.evalSame (x, y) = .value lit.value ∧ lit.IsScala := by
  unfold foldSame at h
  split at h
  · obtain ⟨op, r, hname, hop, hr, rfl⟩ := foldWhole_sound h
    exact ⟨op, hname, hop, bind_answer hr fun _ => rfl, isScala_lit nofun r⟩
  · obtain ⟨op, r, hname, hop, hr, rfl⟩ := foldWhole_sound h
    exact ⟨op, hname, hop, bind_answer hr fun _ => rfl, isScala_lit nofun r⟩
  · obtain ⟨op, r, hname, hop, hr, rfl⟩ := foldFraction_sound h
    exact ⟨op, hname, hop, bind_answer hr fun _ => rfl, isScala_lit nofun r⟩
  · obtain ⟨op, r, hname, hop, hr, rfl⟩ := foldFraction_sound h
    exact ⟨op, hname, hop, bind_answer hr fun _ => rfl, isScala_lit nofun r⟩
  · cases h

variable [Widening F D]

theorem toRank_eq_promote (a b : Num F D) :
    (a.toRank (max a.rank b.rank), b.toRank (max a.rank b.rank)) = promote a b := by
  cases a <;> cases b <;> rfl

/-- What the folder makes of two numbers is the value of an operator at them. -/
theorem foldNum_sound {s : String} {a b : Num F D} {lit : Lit F D}
    (h : foldNum s a b = some lit) : ∃ op : BinOp, s = op.method ∧ op ≠ .land ∧ op ≠ .lor ∧
      op.evalNum a b = .value lit.value ∧ lit.IsScala := by
  unfold foldNum at h
  split at h
  · next hs =>
    obtain ⟨count, hcount, h⟩ := Option.bind_eq_some_iff.mp h
    have hshift : ∀ op : BinOp, op.isShift = true →
        op.evalNum a b = op.evalShift a count.toInt := by
      intro op hop
      unfold BinOp.evalNum
      rw [if_pos hop]
      cases b with
      | i c =>
        dsimp only
        rw [← Option.some.inj hcount, BitVec.toInt_signExtend_of_le (by decide)]
      | l c =>
        dsimp only
        rw [← Option.some.inj hcount]
      | f c => cases hcount
      | d c => cases hcount
    have hlazy : ∀ op : BinOp, op.isShift = true → op ≠ .land ∧ op ≠ .lor := by
      intro op hop
      constructor
      · intro heq
        simp [heq, BinOp.isShift] at hop
      · intro heq
        simp [heq, BinOp.isShift] at hop
    cases a with
    | i v =>
      cases h
      obtain ⟨op, hname, hop, hvalue⟩ := foldShift_sound (k := 5) (by decide) hs v count
      refine ⟨op, hname, (hlazy op hop).1, (hlazy op hop).2, ?_, isScala_of_ne nofun⟩
      rw [hshift op hop, BinOp.evalShift]
      exact congrArg (Outcome.bind · _) hvalue
    | l v =>
      cases h
      obtain ⟨op, hname, hop, hvalue⟩ := foldShift_sound (k := 6) (by decide) hs v count
      refine ⟨op, hname, (hlazy op hop).1, (hlazy op hop).2, ?_, isScala_of_ne nofun⟩
      rw [hshift op hop, BinOp.evalShift]
      exact congrArg (Outcome.bind · _) hvalue
    | f v => cases h
    | d v => cases h
  · next hs =>
    obtain ⟨op, hname, hop, hvalue, hlit⟩ := foldSame_sound h
    simp only [BinOp.isPlain, Bool.and_eq_true, Bool.not_eq_true', bne_iff_ne] at hop
    refine ⟨op, hname, hop.1.2, hop.2, ?_, hlit⟩
    rw [← hvalue, toRank_eq_promote]
    unfold BinOp.evalNum
    rw [hop.1.1]
    rfl

/-! ## Operators -/

theorem eval_eq_evalStrict {op : BinOp} (hland : op ≠ .land) (hlor : op ≠ .lor)
    (a b : Value F D) : op.eval (.value a) (.value b) = op.evalStrict a b := by
  cases op <;> first | rfl | exact absurd rfl hland | exact absurd rfl hlor

theorem evalStrict_of_numeric (op : BinOp) {x y : Value F D} {a b : Num F D}
    (hx : x.numeric = some a) (hy : y.numeric = some b) : op.evalStrict x y = op.evalNum a b := by
  cases x with
  | int n => simp only [BinOp.evalStrict, hx, hy]
  | long n => simp only [BinOp.evalStrict, hx, hy]
  | float n => simp only [BinOp.evalStrict, hx, hy]
  | double n => simp only [BinOp.evalStrict, hx, hy]
  | char u => simp only [BinOp.evalStrict, hx, hy]
  | _ => cases hx

theorem foldBoolean_sound {s : String} {a b r : Bool} (h : foldBoolean s a b = some r) :
    ∃ op : BinOp, s = op.method ∧
      op.eval (.value (.boolean a : Value F D)) (.value (.boolean b)) = .value (.boolean r) := by
  unfold foldBoolean at h
  split at h
  · cases h
    refine ⟨.land, rfl, ?_⟩
    cases a <;> rfl
  · cases h
    exact ⟨.and, rfl, rfl⟩
  · cases h
    refine ⟨.lor, rfl, ?_⟩
    cases a <;> rfl
  · cases h
    exact ⟨.or, rfl, rfl⟩
  · cases h
    exact ⟨.xor, rfl, rfl⟩
  · cases h
    exact ⟨.ne, rfl, rfl⟩
  · cases h
    exact ⟨.eq, rfl, rfl⟩
  · cases h

theorem foldBinop_sound {s : String} {x y lit : Lit F D} (hx : x.IsScala) (hy : y.IsScala)
    (h : foldBinop s x y = some lit) : ∃ op : BinOp, s = op.method ∧
      op.eval (.value x.value) (.value y.value) = .value lit.value ∧ lit.IsScala := by
  unfold foldBinop at h
  split at h
  · next a b =>
    split at h
    · next hs =>
      cases h
      refine ⟨.add, hs, ?_, isScala_of_ne nofun⟩
      rw [Lit.value, Lit.value, Lit.value, utf16.text_append]
      rfl
    · cases h
  · cases h
  · cases h
  · next a b =>
    obtain ⟨r, hr, rfl⟩ := Option.map_eq_some_iff.mp h
    obtain ⟨op, hname, hop⟩ := foldBoolean_sound (F := F) (D := D) hr
    exact ⟨op, hname, hop, isScala_of_ne nofun⟩
  · obtain ⟨a, ha, h⟩ := Option.bind_eq_some_iff.mp h
    obtain ⟨b, hb, h⟩ := Option.bind_eq_some_iff.mp h
    obtain ⟨op, hname, hland, hlor, hvalue, hlit⟩ := foldNum_sound h
    refine ⟨op, hname, ?_, hlit⟩
    rw [eval_eq_evalStrict hland hlor, evalStrict_of_numeric op (numeric_of hx ha)
      (numeric_of hy hb), hvalue]

theorem evalNum_of_numeric (op : UnOp) {x : Value F D} {n : Num F D} (hx : x.numeric = some n) :
    op.eval x = op.evalNum n := by
  cases x with
  | int n => simp only [UnOp.eval, hx]
  | long n => simp only [UnOp.eval, hx]
  | float n => simp only [UnOp.eval, hx]
  | double n => simp only [UnOp.eval, hx]
  | char u => simp only [UnOp.eval, hx]
  | _ => cases hx

/-- The bits of a number that make a `Char`. -/
def Num.code : Num F D → BitVec 16
  | i v => v.setWidth 16
  | l v => v.setWidth 16
  | f v => (Format.toInt 32 (widen v : D)).setWidth 16
  | d v => (Format.toInt 32 v).setWidth 16

theorem code_eq_toChar (n : Num F D) : n.code = n.toChar := by
  cases n with
  | i v => exact (ofInt_toInt_of_le v (by decide)).symm
  | l v =>
    rw [Num.toChar, Num.toInt, ofInt_toInt_of_le _ (by decide), ofInt_toInt_of_le _ (by decide),
      BitVec.setWidth_setWidth_of_le _ (by decide)]
    rfl
  | f v =>
    rw [Num.toChar, Num.toInt, ofInt_toInt_of_le _ (by decide), Num.code, toInt_widen]
  | d v => exact (ofInt_toInt_of_le _ (by decide)).symm

theorem foldUnop_sound {s : String} {x lit : Lit F D} (hx : x.IsScala)
    (h : foldUnop s x = some lit) :
    ∃ op : UnOp, s = op.method ∧ op.eval x.value = .value lit.value ∧ lit.IsScala := by
  unfold foldUnop at h
  split at h
  · split at h
    · next hs =>
      cases h
      exact ⟨.not, hs, rfl, isScala_of_ne nofun⟩
    · cases h
  · obtain ⟨n, hn, h⟩ := Option.bind_eq_some_iff.mp h
    have heval := fun op : UnOp => evalNum_of_numeric op (numeric_of hx hn)
    dsimp only at h
    split at h
    · cases h
      refine ⟨.toInt, rfl, ?_, isScala_of_ne nofun⟩
      rw [heval, UnOp.evalNum]
      cases n with
      | i v => rfl
      | l v => rw [Num.toInt, ofInt_toInt_of_le v (by decide)]; rfl
      | f v => rw [Lit.value, toInt_widen]; rfl
      | d v => rfl
    · cases h
      refine ⟨.toLong, rfl, ?_, isScala_of_ne nofun⟩
      rw [heval, UnOp.evalNum]
      cases n with
      | f v => rw [Lit.value, toInt_widen]; rfl
      | _ => rfl
    · cases h
      refine ⟨.toFloat, rfl, ?_, isScala_of_ne nofun⟩
      rw [heval, UnOp.evalNum]
      cases n <;> rfl
    · cases h
      refine ⟨.toDouble, rfl, ?_, isScala_of_ne nofun⟩
      rw [heval, UnOp.evalNum]
      cases n <;> rfl
    · obtain ⟨c, hc, rfl⟩ := Option.map_eq_some_iff.mp h
      have hcode : c.toNat = n.toChar.toNat := by
        rw [← code_eq_toChar, toNat_of_charFromU32 hc]
        cases n <;> rfl
      refine ⟨.toChar, rfl, ?_, ?_⟩
      · rw [heval, UnOp.evalNum, Lit.value, hcode, BitVec.ofNat_toNat, BitVec.setWidth_eq]
      · intro d hd
        rw [← Lit.char.inj hd, hcode]
        exact n.toChar.isLt
    · split at h
      · cases h
        refine ⟨.plus, rfl, ?_, ?_⟩
        · rw [heval, UnOp.evalNum]
          cases n <;> rfl
        · cases n <;> exact isScala_of_ne nofun
      · cases h
        exact ⟨.minus, rfl, by rw [heval, UnOp.evalNum, ofInt_neg]; rfl, isScala_of_ne nofun⟩
      · cases h
        exact ⟨.minus, rfl, by rw [heval, UnOp.evalNum, ofInt_neg]; rfl, isScala_of_ne nofun⟩
      · cases h
        exact ⟨.minus, rfl, by rw [heval]; rfl, isScala_of_ne nofun⟩
      · cases h
        exact ⟨.minus, rfl, by rw [heval]; rfl, isScala_of_ne nofun⟩
      · cases h
        exact ⟨.complement, rfl, by rw [heval, UnOp.evalNum, ofInt_complement]; rfl,
          isScala_of_ne nofun⟩
      · cases h
        exact ⟨.complement, rfl, by rw [heval, UnOp.evalNum, ofInt_complement]; rfl,
          isScala_of_ne nofun⟩
      · cases h

/-! ## Trees -/

/-- The trees that are built from constants, references of constant type and operators. -/
inductive Built : Tree F D → Prop
  | literal {lit : Lit F D} (h : lit.IsScala) : Built (.literal lit)
  | ident {name : String} {ty : Ty F D} {lit : Lit F D} (hty : constantOf ty = some lit)
      (h : lit.IsScala) : Built (.ident name ty)
  | reference {qual : Tree F D} {name : String} {ty : Ty F D} {lit : Lit F D}
      (hty : constantOf ty = some lit) (h : lit.IsScala) : Built (.select qual name ty)
  | select {qual : Tree F D} {name : String} {ty : Ty F D} (hty : constantOf ty = none)
      (h : Built qual) : Built (.select qual name ty)
  | nullary {qual : Tree F D} {name : String} {ty : Ty F D} (h : Built qual) :
      Built (.apply (.select qual name ty) [])
  | binary {qual arg : Tree F D} {name : String} {ty : Ty F D} (h : Built qual) (harg : Built arg) :
      Built (.apply (.select qual name ty) [arg])

theorem evalUnary_of_fold {name : String} {x lit : Lit F D} (hx : x.IsScala)
    (h : foldUnop (opName name) x = some lit) :
    evalUnary name (.value x.value) = .value lit.value ∧ lit.IsScala := by
  obtain ⟨op, hname, hvalue, hlit⟩ := foldUnop_sound hx h
  refine ⟨?_, hlit⟩
  rw [evalUnary, unOp_of_opName hname]
  exact hvalue

theorem evalBinary_of_fold {name : String} {x y lit : Lit F D} (hx : x.IsScala) (hy : y.IsScala)
    (h : foldBinop (opName name) x y = some lit) :
    evalBinary name (.value x.value) (.value y.value) = .value lit.value ∧ lit.IsScala := by
  obtain ⟨op, hname, hvalue, hlit⟩ := foldBinop_sound hx hy h
  refine ⟨?_, hlit⟩
  rw [evalBinary, binOp_of_opName hname]
  exact hvalue

/-- A folded tree has the value of its constant, a code unit if it is a `Char`. -/
theorem eval_of_fold {tree : Tree F D} (hbuilt : Built tree) {lit : Lit F D}
    (h : fold tree = some lit) : eval tree = .value lit.value ∧ lit.IsScala := by
  induction hbuilt generalizing lit with
  | @literal lit' hlit =>
    have hsame : lit' = lit := by
      cases lit' with
      | unit => simp [fold] at h
      | symbol s => simp [fold] at h
      | _ => simpa [fold] using h
    subst hsame
    exact ⟨by rw [eval], hlit⟩
  | ident hty hlit =>
    rw [fold, hty] at h
    cases h
    exact ⟨by rw [eval, hty], hlit⟩
  | reference hty hlit =>
    rw [fold, hty] at h
    cases h
    exact ⟨by rw [eval, hty], hlit⟩
  | select hty _ ih =>
    rw [fold, hty] at h
    obtain ⟨x, hx, h⟩ := Option.bind_eq_some_iff.mp h
    obtain ⟨hvalue, hscala⟩ := ih hx
    rw [eval, hty, hvalue]
    exact evalUnary_of_fold hscala h
  | nullary _ ih =>
    rw [fold] at h
    obtain ⟨x, hx, h⟩ := Option.bind_eq_some_iff.mp h
    obtain ⟨hvalue, hscala⟩ := ih hx
    rw [eval, hvalue]
    exact evalUnary_of_fold hscala h
  | binary _ _ ih iharg =>
    rw [fold] at h
    obtain ⟨x, hx, h⟩ := Option.bind_eq_some_iff.mp h
    obtain ⟨y, hy, h⟩ := Option.bind_eq_some_iff.mp h
    obtain ⟨hvalue, hscala⟩ := ih hx
    obtain ⟨hvalue', hscala'⟩ := iharg hy
    rw [eval, hvalue, hvalue']
    exact evalBinary_of_fold hscala hscala' h

/-- The constant a tree is folded to is its value, and no tree that throws is folded. -/
theorem fold_sound {tree : Tree F D} (hbuilt : Built tree) :
    (∀ lit, fold tree = some lit → eval tree = .value lit.value) ∧
      (eval tree = .throws → fold tree = none) := by
  constructor
  · intro lit h
    exact (eval_of_fold hbuilt h).1
  · intro hthrows
    cases h : fold tree with
    | none => rfl
    | some lit =>
      rw [(eval_of_fold hbuilt h).1] at hthrows
      cases hthrows

end Numbers

/-- Whole numbers, which both formats hold exactly while they are small. -/
instance : Format ℤ where
  ofInt n := n
  toInt w v := BitVec.ofInt w (max (-2 ^ (w - 1)) (min v (2 ^ (w - 1) - 1)))
  neg := Int.neg
  add := Int.add
  sub := Int.sub
  mul := Int.mul
  div := Int.tdiv
  rem := Int.tmod
  eq a b := a = b
  lt a b := a < b
  le a b := a ≤ b

instance : Widening ℤ ℤ where
  widen n := n
  narrow n := n
  toInt_widen _ _ := rfl

/-- `('a' + 1.toFloat.toInt) $less$less 33L` -/
theorem fold_sound_shift :
    eval (F := ℤ) (D := ℤ) (.apply (.select (.apply (.select (.literal (.char 'a')) "+" .other)
      [.select (.select (.literal (.int 1)) "toFloat" .other) "toInt" .other]) "$less$less" .other)
      [.literal (.long 33)]) = .value (.int 196) := by
  have hone : Built (.literal (.int 1) : Tree ℤ ℤ) := .literal (isScala_of_ne nofun)
  have hcount : Built (.literal (.long 33) : Tree ℤ ℤ) := .literal (isScala_of_ne nofun)
  have hchar : Built (.literal (.char 'a') : Tree ℤ ℤ) := by
    apply Built.literal
    intro c hc
    rw [← Lit.char.inj hc]
    decide
  have hfloat : Built (.select (.literal (.int 1)) "toFloat" .other : Tree ℤ ℤ) := .select rfl hone
  have hsum : Built (.apply (.select (.literal (.char 'a')) "+" .other)
      [.select (.select (.literal (.int 1)) "toFloat" .other) "toInt" .other] : Tree ℤ ℤ) :=
    .binary hchar (.select rfl hfloat)
  exact (fold_sound (.binary hsum hcount)).1 (.int 196) (by rfl)

end ScalaRs.ConstFold
