import ScalaRs.MachineArithmetic
import ScalaRs.ModifiedUtf8

/-! # Constant folding

The folder of the typer, on literals, references of constant type, and selections and
applications of operators. `F` and `D` are the values of `Float` and `Double`. -/
namespace ScalaRs.ConstFold

open MachineArithmetic ModifiedUtf8

variable {F D : Type}

inductive Lit (F D : Type) where
  | unit
  | boolean (b : Bool)
  | int (n : BitVec 32)
  | long (n : BitVec 64)
  | float (n : F)
  | double (n : D)
  | char (c : Char)
  | string (s : List Char)
  | symbol (s : List Char)
  | null

inductive Ty (F D : Type) where
  | constant (lit : Lit F D)
  | annotated (tpe : Ty F D)
  | other

inductive Tree (F D : Type) where
  | literal (lit : Lit F D)
  | ident (name : String) (ty : Ty F D)
  | select (qual : Tree F D) (name : String) (ty : Ty F D)
  | apply (called : Tree F D) (args : List (Tree F D))
  | other

def constantOf : Ty F D → Option (Lit F D)
  | .constant .unit => none
  | .constant (.symbol _) => none
  | .constant lit => some lit
  | .annotated tpe => constantOf tpe
  | .other => none

def opName (name : String) : String :=
  match name with
  | "$plus" => "+"
  | "$minus" => "-"
  | "$times" => "*"
  | "$div" => "/"
  | "$percent" => "%"
  | "$less$less" => "<<"
  | "$greater$greater" => ">>"
  | "$greater$greater$greater" => ">>>"
  | "$amp" => "&"
  | "$bar" => "|"
  | "$up" => "^"
  | "$eq$eq" => "=="
  | "$bang$eq" => "!="
  | "$less" => "<"
  | "$less$eq" => "<="
  | "$greater" => ">"
  | "$greater$eq" => ">="
  | "$amp$amp" => "&&"
  | "$bar$bar" => "||"
  | n => n

/-- A numeric constant, with `Char` promoted to `Int`. -/
inductive Num (F D : Type) where
  | i (n : BitVec 32)
  | l (n : BitVec 64)
  | f (n : F)
  | d (n : D)

section Fold

variable [Format F] [Format D] [Widening F D]

def Num.of : Lit F D → Option (Num F D)
  | .int n => some (.i n)
  | .char c => some (.i (BitVec.ofNat 32 c.toNat))
  | .long n => some (.l n)
  | .float n => some (.f n)
  | .double n => some (.d n)
  | _ => none

def Num.rank : Num F D → ℕ
  | .i _ => 0
  | .l _ => 1
  | .f _ => 2
  | .d _ => 3

def Num.toRank : Num F D → ℕ → Num F D
  | .i n, 1 => .l (n.signExtend 64)
  | .i n, 2 => .f (Format.ofInt n.toInt)
  | .i n, 3 => .d (Format.ofInt n.toInt)
  | .l n, 2 => .f (Format.ofInt n.toInt)
  | .l n, 3 => .d (Format.ofInt n.toInt)
  | .f n, 3 => .d (widen n)
  | n, _ => n

def Num.asF64 : Num F D → D
  | .d v => v
  | _ => Format.ofInt 0

def Num.lit : Num F D → Lit F D
  | .i n => .int n
  | .l n => .long n
  | .f n => .float n
  | .d n => .double n

def foldUnop (op : String) (x : Lit F D) : Option (Lit F D) :=
  match x with
  | .boolean b => if op = "unary_!" then some (.boolean !b) else none
  | x => do
    let n ← Num.of x
    let wide : D := match n with
      | .i v => Format.ofInt v.toInt
      | .l v => Format.ofInt v.toInt
      | .f v => widen v
      | .d v => v
    match op with
    | "toInt" => some (.int (match n with
      | .i v => v
      | .l v => v.setWidth 32
      | _ => Format.toInt 32 wide))
    | "toLong" => some (.long (match n with
      | .i v => v.signExtend 64
      | .l v => v
      | _ => Format.toInt 64 wide))
    | "toFloat" => some (.float (match n with
      | .f v => v
      | .i v => Format.ofInt v.toInt
      | .l v => Format.ofInt v.toInt
      | .d v => narrow v))
    | "toDouble" => some (.double (n.toRank 3).asF64)
    | "toChar" =>
      let code : BitVec 16 := match n with
        | .i v => v.setWidth 16
        | .l v => v.setWidth 16
        | _ => (Format.toInt 32 wide).setWidth 16
      (charFromU32 code.toNat).map .char
    | _ => match op, n with
      | "unary_+", n => some n.lit
      | "unary_-", .i v => some (.int (-v))
      | "unary_-", .l v => some (.long (-v))
      | "unary_-", .f v => some (.float (Format.neg v))
      | "unary_-", .d v => some (.double (Format.neg v))
      | "unary_~", .i v => some (.int (~~~v))
      | "unary_~", .l v => some (.long (~~~v))
      | _, _ => none

def foldBoolean (op : String) (a b : Bool) : Option Bool :=
  match op with
  | "&&" | "&" => some (a && b)
  | "||" | "|" => some (a || b)
  | "^" | "!=" => some (a != b)
  | "==" => some (a == b)
  | _ => none

/-- A shift of an `Int` or a `Long`, by a count that is masked already. -/
def foldShift {w : ℕ} (op : String) (v : BitVec w) (c : ℕ) : BitVec w :=
  match op with
  | "<<" => v <<< c
  | ">>" => v.sshiftRight c
  | _ => v >>> c

/-- `cmp!`, given how the operands compare. -/
def cmp (op : String) (eq lt le gt ge : Bool) : Option (Lit F D) :=
  match op with
  | "==" => some (.boolean eq)
  | "!=" => some (.boolean !eq)
  | "<" => some (.boolean lt)
  | "<=" => some (.boolean le)
  | ">" => some (.boolean gt)
  | ">=" => some (.boolean ge)
  | _ => none

/-- Two operands of one integer type. -/
def foldWhole {w : ℕ} (mk : BitVec w → Lit F D) (op : String) (a b : BitVec w) :
    Option (Lit F D) :=
  match op with
  | "+" => some (mk (a + b))
  | "-" => some (mk (a - b))
  | "*" => some (mk (a * b))
  | "/" => if b ≠ 0 then some (mk (a.sdiv b)) else none
  | "%" => if b ≠ 0 then some (mk (a.srem b)) else none
  | "&" => some (mk (a &&& b))
  | "|" => some (mk (a ||| b))
  | "^" => some (mk (a ^^^ b))
  | _ => cmp op (a == b) (a.slt b) (a.sle b) (b.slt a) (b.sle a)

/-- Two operands of one floating-point type. -/
def foldFraction {G : Type} [Format G] (mk : G → Lit F D) (op : String) (a b : G) :
    Option (Lit F D) :=
  match op with
  | "+" => some (mk (Format.add a b))
  | "-" => some (mk (Format.sub a b))
  | "*" => some (mk (Format.mul a b))
  | "/" => some (mk (Format.div a b))
  | "%" => some (mk (Format.rem a b))
  | _ => cmp op (Format.eq a b) (Format.lt a b) (Format.le a b) (Format.lt b a) (Format.le b a)

/-- Two operands after their promotion. -/
def foldSame (op : String) : Num F D → Num F D → Option (Lit F D)
  | .i a, .i b => foldWhole .int op a b
  | .l a, .l b => foldWhole .long op a b
  | .f a, .f b => foldFraction .float op a b
  | .d a, .d b => foldFraction .double op a b
  | _, _ => none

/-- The count of a shift, before it is masked. -/
def Num.count : Num F D → Option (BitVec 64)
  | .i c => some (c.signExtend 64)
  | .l c => some c
  | _ => none

def foldNum (op : String) (a b : Num F D) : Option (Lit F D) :=
  if op = "<<" ∨ op = ">>" ∨ op = ">>>" then do
    let count ← b.count
    match a with
    | .i v => some (.int (foldShift op v (count &&& 31).toNat))
    | .l v => some (.long (foldShift op v (count &&& 63).toNat))
    | _ => none
  else
    let rank := max a.rank b.rank
    foldSame op (a.toRank rank) (b.toRank rank)

def foldBinop (op : String) (x y : Lit F D) : Option (Lit F D) :=
  match x, y with
  | .string a, .string b => if op = "+" then some (.string (a ++ b)) else none
  | .string _, _ => none
  | _, .string _ => none
  | .boolean a, .boolean b => (foldBoolean op a b).map .boolean
  | x, y => do
    let a ← Num.of x
    let b ← Num.of y
    foldNum op a b

/-- The constant `tree` evaluates to, if it is one. -/
def fold : Tree F D → Option (Lit F D)
  | .literal .unit => none
  | .literal (.symbol _) => none
  | .literal lit => some lit
  | .ident _ ty => constantOf ty
  | .select qual name ty => match constantOf ty with
    | some lit => some lit
    | none => do
      let x ← fold qual
      foldUnop (opName name) x
  | .apply (.select qual name _) [] => do
    let x ← fold qual
    foldUnop (opName name) x
  | .apply (.select qual name _) [arg] => do
    let x ← fold qual
    let y ← fold arg
    foldBinop (opName name) x y
  | _ => none

end Fold

end ScalaRs.ConstFold
