import ScalaRs.ExpressionParser
import ScalaRs.OperatorTrees

/-! # Infix expressions

The tree that the parser builds for operands with operators between them. -/
namespace ScalaRs.Parsing
open Lexing OperatorTrees

/-- The token of an infix operator. -/
structure Operator where
  name : List Char
  span : Span

section
variable [NameTables]

def Operator.prec (op : Operator) : ℤ := opPrecedence op.name

def Operator.rightAssoc (op : Operator) : Bool := isRightAssociative op.name

theorem opPrecedence_nonneg (op : List Char) : 0 ≤ opPrecedence op := by
  unfold opPrecedence
  split
  · exact le_refl _
  · split
    all_goals first
      | decide
      | split <;> decide

theorem wellShaped_node {op : Operator} {left right : OperatorTree Operator Tree}
    (hleft : WellShaped Operator.prec Operator.rightAssoc left)
    (hright : WellShaped Operator.prec Operator.rightAssoc right)
    (hpending : ∀ o, left.root = some o → op.prec < nextMinPrec o.name)
    (hassoc : ∀ o, left.root = some o → o.prec = op.prec → o.rightAssoc = op.rightAssoc)
    (htight : ∀ o, right.root = some o → nextMinPrec op.name ≤ o.prec) :
    WellShaped Operator.prec Operator.rightAssoc (.node op left right) := by
  have hnext : ∀ o : Operator,
      nextMinPrec o.name = if o.rightAssoc then o.prec else o.prec + 1 := fun o => rfl
  refine .node op left right ?_ ?_ hleft hright
  · intro o ho
    have hlt := hpending o ho
    have hsame := hassoc o ho
    rw [hnext] at hlt
    cases hright : o.rightAssoc with
    | true =>
      rw [hright, if_pos rfl] at hlt
      exact .inl hlt
    | false =>
      rw [hright, if_neg Bool.false_ne_true] at hlt
      rcases lt_or_eq_of_le (Int.lt_add_one_iff.mp hlt) with hlt | heq
      · exact .inl hlt
      · exact .inr ⟨heq.symm, by rw [← hsame heq.symm, hright]⟩
  · intro o ho
    have hle := htight o ho
    rw [hnext] at hle
    cases hright : op.rightAssoc with
    | true =>
      rw [hright, if_pos rfl] at hle
      rcases lt_or_eq_of_le hle with hlt | heq
      · exact .inl hlt
      · exact .inr ⟨heq.symm, rfl⟩
    | false =>
      rw [hright, if_neg Bool.false_ne_true] at hle
      exact .inl (by omega)

end

/-- The tree that the parser builds for a tree of operators. -/
def build : OperatorTree Operator Tree → Tree
  | .operand t => t
  | .node op left right => infixTree op.name op.span (build left) (build right)

section
variable {σ : Type*} [TokenTables] (prods : Productions σ)

/-- A simple expression is read from one state to another. A raw `+`, `-`, `!` or `~` in front of
an expression begins none. -/
structure Operand (p : Parser σ) (t : Tree) (p' : Parser σ) : Prop where
  begins : looksLikePrefixStart p.kind = true
  noPrefix : p.prefixOperator = none
  reads : p.parseSimpleExpr prods = some (t, p')

/-- On one line, operators and an operand after each, up to a token that is no name. -/
inductive Operations : Parser σ → List (Operator × Tree) → Parser σ → Prop
  | stop (p : Parser σ) (last : p.identText = none) : Operations p [] p
  | next (p p' q : Parser σ) (op : Operator) (t : Tree) (items : List (Operator × Tree))
      (name : p.identText = some op.name) (span : p.span = op.span)
      (operand : Operand prods p.bump t p') (rest : Operations p' items q) :
      Operations p ((op, t) :: items) q

variable {prods} {p p' q : Parser σ} {t : Tree} {items : List (Operator × Tree)}

theorem Operand.kind_ne_newline (h : Operand prods p t p') : p.kind ≠ .newline := by
  intro hkind
  have hbegins := h.begins
  rw [hkind] at hbegins
  cases hbegins

theorem Operand.parsePrefixExpr (h : Operand prods p t p') (fuel : ℕ) :
    parsePrefixExpr prods (fuel + 1) p = some (t, p') := by
  rw [Parsing.parsePrefixExpr]
  dsimp only
  rw [Parser.skipNl_of_kind_ne h.kind_ne_newline, h.noPrefix]
  exact h.reads

variable [NameTables]

/-- The loop over an operator that binds tight enough. -/
theorem infixLoop_next {op : Operator} {minPrec : ℤ} {left : Tree}
    (hname : p.identText = some op.name) (hspan : p.span = op.span) (h : Operand prods p.bump t p') (hprec : minPrec ≤ op.prec)
    (fuel : ℕ) :
    infixLoop prods (fuel + 2) minPrec left p =
      (infixLoop prods (fuel + 1) (nextMinPrec op.name) t p').bind fun right =>
        infixLoop prods (fuel + 1) minPrec (infixTree op.name op.span left right.1) right.2 := by
  rw [infixLoop, hname]
  dsimp only
  have hmin : ¬opPrecedence op.name < minPrec := not_lt.mpr hprec
  rw [if_neg hmin, if_neg h.kind_ne_newline, h.begins, Bool.not_true,
    if_neg Bool.false_ne_true, h.parsePrefixExpr, hspan]
  rfl

/-- A turn of the loop, at the next operator or at the end. -/
theorem infixLoop_stop {minPrec : ℤ} {left : Tree}
    (h : ∀ op, p.identText = some op → opPrecedence op < minPrec) (fuel : ℕ) :
    infixLoop prods (fuel + 1) minPrec left p = some (left, p) := by
  rw [infixLoop]
  cases hname : p.identText with
  | none => rfl
  | some op =>
    dsimp only
    rw [if_pos (h op hname)]

/-- The loop makes a tree of the operations that bind at least as tight as `minPrec`. -/
structure Climbs (prods : Productions σ) (minPrec : ℤ) (left : OperatorTree Operator Tree)
    (p : Parser σ) (items : List (Operator × Tree)) (tree : OperatorTree Operator Tree)
    (p' : Parser σ) (items' : List (Operator × Tree)) (q : Parser σ) : Prop where
  operations : Operations prods p' items' q
  shorter : items'.length ≤ items.length
  result : ∃ least, ∀ fuel, least ≤ fuel →
    infixLoop prods fuel minPrec (build left) p = some (build tree, p')
  first : tree.first = left.first
  reading : tree.rest ++ items' = left.rest ++ items
  wellShaped : WellShaped Operator.prec Operator.rightAssoc tree
  tight : ∀ o, tree.root = some o → minPrec ≤ o.prec
  loose : ∀ x, items'.head? = some x → x.1.prec < minPrec

/-- The loop, from a tree whose last operator waits for none of the operations. -/
theorem infixLoop_climbs (minPrec : ℤ) (hops : Operations prods p items q)
    {left : OperatorTree Operator Tree} (hleft : WellShaped Operator.prec Operator.rightAssoc left)
    (hassoc : Homogeneous Operator.prec Operator.rightAssoc (left.rest ++ items))
    (htight : ∀ o, left.root = some o → minPrec ≤ o.prec)
    (hpending : ∀ o x, left.root = some o → items.head? = some x → x.1.prec < nextMinPrec o.name) :
    ∃ tree p' items', Climbs prods minPrec left p items tree p' items' q := by
  induction hn : items.length using Nat.strong_induction_on generalizing p items left minPrec with
  | h n ih =>
    cases hops with
    | stop _ last =>
      refine ⟨left, _, [], .stop _ last, le_refl _, ⟨1, ?_⟩, rfl, rfl, hleft, htight, by simp⟩
      intro fuel hfuel
      obtain ⟨fuel, rfl⟩ : ∃ m, fuel = m + 1 := ⟨fuel - 1, by omega⟩
      exact infixLoop_stop (by simp [last]) fuel
    | next _ p₁ _ op t items name span operand rest =>
      by_cases hprec : op.prec < minPrec
      · refine ⟨left, _, (op, t) :: items, .next _ p₁ _ op t items name span operand rest, le_refl _,
          ⟨1, ?_⟩, rfl, rfl, hleft, htight, ?_⟩
        · intro fuel hfuel
          obtain ⟨fuel, rfl⟩ : ∃ m, fuel = m + 1 := ⟨fuel - 1, by omega⟩
          apply infixLoop_stop
          intro name' hname'
          rw [name, Option.some.injEq] at hname'
          exact hname' ▸ hprec
        · intro x hx
          cases hx
          exact hprec
      · -- the right operand climbs first, from the operand after the operator
        rw [List.length_cons] at hn
        have hsub : (OperatorTree.operand t).rest ++ items ⊆ left.rest ++ (op, t) :: items :=
          fun x hx => List.mem_append_right _ (List.mem_cons_of_mem _ hx)
        obtain ⟨right, p₂, items₂, hright⟩ := ih items.length (by omega) (nextMinPrec op.name)
          rest (.operand t) (hassoc.subset hsub) (by simp [OperatorTree.root])
          (by simp [OperatorTree.root]) rfl
        have hfirst : right.first = t := hright.first
        have hreading : (OperatorTree.node op left right).rest ++ items₂ =
            left.rest ++ (op, t) :: items := by
          rw [OperatorTree.rest, List.append_assoc, List.cons_append, hright.reading, hfirst]
          rfl
        have hnode : WellShaped Operator.prec Operator.rightAssoc (.node op left right) := by
          refine wellShaped_node hleft hright.wellShaped
            (fun o ho => hpending o (op, t) ho rfl) ?_ hright.tight
          intro o ho
          obtain ⟨b, hb⟩ := left.root_mem ho
          exact hassoc _ (List.mem_append_left _ hb) _
            (List.mem_append_right _ List.mem_cons_self)
        have hloose : ∀ o x, (OperatorTree.node op left right).root = some o →
            items₂.head? = some x → x.1.prec < nextMinPrec o.name := by
          intro o x ho hx
          cases ho
          exact hright.loose x hx
        have hroot : ∀ o, (OperatorTree.node op left right).root = some o → minPrec ≤ o.prec := by
          intro o ho
          cases ho
          exact not_lt.mp hprec
        obtain ⟨tree, p', items', htree⟩ := ih items₂.length
          (by have := hright.shorter; omega) minPrec hright.operations hnode (hreading ▸ hassoc) hroot
          hloose rfl
        obtain ⟨least₁, hfuel₁⟩ := hright.result
        obtain ⟨least₂, hfuel₂⟩ := htree.result
        refine ⟨tree, p', items', htree.operations, ?_, ⟨max least₁ least₂ + 2, ?_⟩, htree.first,
          htree.reading.trans hreading, htree.wellShaped, htree.tight, htree.loose⟩
        · have h₁ := hright.shorter
          have h₂ := htree.shorter
          rw [List.length_cons]
          omega
        · intro fuel hfuel
          obtain ⟨fuel, rfl⟩ : ∃ m, fuel = m + 2 := ⟨fuel - 2, by omega⟩
          rw [infixLoop_next name span operand (not_lt.mp hprec)]
          have hright' := hfuel₁ (fuel + 1) (by omega)
          rw [build] at hright'
          rw [hright', Option.bind_some]
          exact hfuel₂ (fuel + 1) (by omega)

/-- An infix expression on one line, whose operators of equal precedence do not differ in
associativity, is read whole, and its tree is the well-shaped one. -/
theorem parseInfixExpr_correct (hoperand : Operand prods p t p')
    (hops : Operations prods p' items q)
    (hassoc : Homogeneous Operator.prec Operator.rightAssoc items) :
    ∃ tree : OperatorTree Operator Tree,
      (tree.first = t ∧ tree.rest = items ∧
        WellShaped Operator.prec Operator.rightAssoc tree) ∧
      (∀ tree', tree'.first = t → tree'.rest = items →
        WellShaped Operator.prec Operator.rightAssoc tree' → tree' = tree) ∧
      ∃ least, ∀ fuel, least ≤ fuel →
        parseInfixExpr prods fuel 0 p = some (build tree, q) := by
  obtain ⟨tree, p₁, items', h⟩ := infixLoop_climbs 0 hops (.operand t) hassoc
    (by simp [OperatorTree.root]) (by simp [OperatorTree.root])
  have hnil : items' = [] := by
    cases items' with
    | nil => rfl
    | cons x items' => exact absurd (h.loose x rfl) (not_lt.mpr (opPrecedence_nonneg x.1.name))
  have hrest : tree.rest = items := by
    have hreading := h.reading
    rw [hnil, List.append_nil] at hreading
    exact hreading
  have hend : p₁ = q := by
    have hops' := h.operations
    rw [hnil] at hops'
    cases hops'
    rfl
  refine ⟨tree, ⟨h.first, hrest, h.wellShaped⟩, ?_, ?_⟩
  · intro tree' hfirst' hrest' hwell
    exact hwell.unique h.wellShaped (hrest' ▸ hassoc) (hfirst'.trans h.first.symm)
      (hrest'.trans hrest.symm)
  · obtain ⟨least, hfuel⟩ := h.result
    refine ⟨max least 1, fun fuel hle => ?_⟩
    obtain ⟨fuel, rfl⟩ : ∃ m, fuel = m + 1 := ⟨fuel - 1, by omega⟩
    rw [parseInfixExpr, hoperand.parsePrefixExpr, Option.bind_some, ← hend]
    exact hfuel (fuel + 1) (by omega)

end

attribute [local instance] asciiNames plainTables in
/-- `a + b * c`. -/
theorem parseInfixExpr_correct_sum :
    ∃ (prods : Productions Unit) (p p' q : Parser Unit) (t : Tree)
      (items : List (Operator × Tree)),
      (Operand prods p t p' ∧ Operations prods p' items q ∧
        Homogeneous Operator.prec Operator.rightAssoc items ∧ items.length = 2) ∧
      ∃ tree : OperatorTree Operator Tree, (tree.first = t ∧ tree.rest = items ∧
          WellShaped Operator.prec Operator.rightAssoc tree) ∧
        (∀ tree', tree'.first = t → tree'.rest = items →
          WellShaped Operator.prec Operator.rightAssoc tree' → tree' = tree) ∧
        ∃ least, ∀ fuel, least ≤ fuel →
          parseInfixExpr prods fuel 0 p = some (build tree, q) := by
  let name (c : Char) (lo : UInt32) : Token := ⟨.ident [c], ⟨lo, lo + 1⟩, false, false⟩
  let tree (c : Char) (lo : UInt32) : Tree := .ident ⟨lo, lo + 1⟩ none [c] false false
  let p : Parser Unit := {
    src := "a + b * c".toList, fileIndex := 0, pos := 0, diags := [], others := ()
    tokens := [name 'a' 0, name '+' 2, name 'b' 4, name '*' 6, name 'c' 8,
      ⟨.eof, ⟨9, 9⟩, false, false⟩]
    ends := rfl }
  let prods : Productions Unit := {
    xmlLiteral _ := none, newExpr _ := none, blockExpr _ := none, parenExpr _ := none
    interpolated _ _ := none, freshPlaceholder _ := none
    simpleExprRest t _ p := some (t, p) }
  have hfirst : Operand prods p (tree 'a' 0) (p.reset 1) := ⟨rfl, rfl, rfl⟩
  have hlast : Operations prods (p.reset 3) [(⟨['*'], ⟨6, 7⟩⟩, tree 'c' 8)] (p.reset 5) :=
    .next _ (p.reset 5) _ _ _ _ rfl rfl ⟨rfl, rfl, rfl⟩ (.stop _ rfl)
  have hops : Operations prods (p.reset 1)
      [(⟨['+'], ⟨2, 3⟩⟩, tree 'b' 4), (⟨['*'], ⟨6, 7⟩⟩, tree 'c' 8)] (p.reset 5) :=
    .next _ (p.reset 3) _ _ _ _ rfl rfl ⟨rfl, rfl, rfl⟩ hlast
  have hassoc : Homogeneous Operator.prec Operator.rightAssoc
      [((⟨['+'], ⟨2, 3⟩⟩ : Operator), tree 'b' 4), (⟨['*'], ⟨6, 7⟩⟩, tree 'c' 8)] := by
    intro x hx y hy _
    have hleft : ∀ z ∈ [((⟨['+'], ⟨2, 3⟩⟩ : Operator), tree 'b' 4), (⟨['*'], ⟨6, 7⟩⟩, tree 'c' 8)],
        z.1.rightAssoc = false := by
      intro z hz
      rcases List.mem_cons.mp hz with rfl | hz
      · rfl
      · rw [List.mem_singleton.mp hz]
        rfl
    rw [hleft x hx, hleft y hy]
  exact ⟨prods, p, p.reset 1, p.reset 5, _, _, ⟨hfirst, hops, hassoc, rfl⟩,
    parseInfixExpr_correct hfirst hops hassoc⟩

end ScalaRs.Parsing
