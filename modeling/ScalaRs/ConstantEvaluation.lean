import ScalaRs.CodeUnits
import ScalaRs.ConstantFolding
import ScalaRs.NameTransformer

/-! # Evaluation of constant trees

What a tree of constants and operators evaluates to: operands are promoted to the
wider of their types, results keep the low bits of the exact result, and a division
by the integer zero throws. -/
namespace ScalaRs.ConstFold

open MachineArithmetic CodeUnits NameTransformer

variable {F D : Type}

/-- A value with its type. A `Char` is a code unit. -/
inductive Value (F D : Type) where
  | unit
  | boolean (b : Bool)
  | int (n : BitVec 32)
  | long (n : BitVec 64)
  | float (n : F)
  | double (n : D)
  | char (u : BitVec 16)
  | string (s : List UInt16)
  | symbol (s : List Char)
  | null

def Lit.value : Lit F D → Value F D
  | unit => .unit
  | boolean b => .boolean b
  | int n => .int n
  | long n => .long n
  | float n => .float n
  | double n => .double n
  | char c => .char (BitVec.ofNat 16 c.toNat)
  | string s => .string (utf16.text s)
  | symbol s => .symbol s
  | null => .null

/-- `undefined` is a tree without a meaning here. -/
inductive Outcome (α : Type) where
  | value (a : α)
  | throws
  | undefined

def Outcome.bind {α β : Type} : Outcome α → (α → Outcome β) → Outcome β
  | value a, f => f a
  | throws, _ => throws
  | undefined, _ => undefined

@[simp]
theorem Outcome.value_bind {α β : Type} (a : α) (f : α → Outcome β) : (value a).bind f = f a := rfl

/-! ## Operators -/

inductive UnOp where
  | plus | minus | complement | not | toInt | toLong | toFloat | toDouble | toChar
deriving DecidableEq

def UnOp.method : UnOp → String
  | plus => "unary_+"
  | minus => "unary_-"
  | complement => "unary_~"
  | not => "unary_!"
  | toInt => "toInt"
  | toLong => "toLong"
  | toFloat => "toFloat"
  | toDouble => "toDouble"
  | toChar => "toChar"

inductive BinOp where
  | add | sub | mul | div | rem | shl | shr | ushr | and | or | xor
  | eq | ne | lt | le | gt | ge | land | lor
deriving DecidableEq

def BinOp.method : BinOp → String
  | add => "+"
  | sub => "-"
  | mul => "*"
  | div => "/"
  | rem => "%"
  | shl => "<<"
  | shr => ">>"
  | ushr => ">>>"
  | and => "&"
  | or => "|"
  | xor => "^"
  | eq => "=="
  | ne => "!="
  | lt => "<"
  | le => "<="
  | gt => ">"
  | ge => ">="
  | land => "&&"
  | lor => "||"

/-- A method is named as it is written, or encoded. -/
def spells (method name : String) : Bool :=
  name = method || name.toList = encodeMethodName method.toList

def UnOp.all : List UnOp :=
  [plus, minus, complement, not, toInt, toLong, toFloat, toDouble, toChar]

def BinOp.all : List BinOp :=
  [add, sub, mul, div, rem, shl, shr, ushr, and, or, xor, eq, ne, lt, le, gt, ge, land, lor]

theorem UnOp.mem_all (op : UnOp) : op ∈ all := by cases op <;> decide

theorem BinOp.mem_all (op : BinOp) : op ∈ all := by cases op <;> decide

def UnOp.ofName (name : String) : Option UnOp := all.find? fun op => spells op.method name

def BinOp.ofName (name : String) : Option BinOp := all.find? fun op => spells op.method name

/-! ## Numbers -/

def Value.numeric : Value F D → Option (Num F D)
  | int n => some (.i n)
  | long n => some (.l n)
  | float n => some (.f n)
  | double n => some (.d n)
  | char u => some (.i (BitVec.ofInt 32 u.toNat))
  | _ => none

def Num.value : Num F D → Value F D
  | i n => .int n
  | l n => .long n
  | f n => .float n
  | d n => .double n

section Evaluation

variable [Format F] [Format D] [Widening F D]

def Num.toInt : Num F D → BitVec 32
  | i n => n
  | l n => BitVec.ofInt 32 n.toInt
  | f n => Format.toInt 32 n
  | d n => Format.toInt 32 n

def Num.toLong : Num F D → BitVec 64
  | i n => BitVec.ofInt 64 n.toInt
  | l n => n
  | f n => Format.toInt 64 n
  | d n => Format.toInt 64 n

def Num.toFloat : Num F D → F
  | i n => Format.ofInt n.toInt
  | l n => Format.ofInt n.toInt
  | f n => n
  | d n => narrow n

def Num.toDouble : Num F D → D
  | i n => Format.ofInt n.toInt
  | l n => Format.ofInt n.toInt
  | f n => widen n
  | d n => n

/-- A number is made a `Char` by way of an `Int`. -/
def Num.toChar (n : Num F D) : BitVec 16 := BitVec.ofInt 16 n.toInt.toInt

/-- Binary numeric promotion. -/
def promote : Num F D → Num F D → Num F D × Num F D
  | .d a, b => (.d a, .d b.toDouble)
  | a, .d b => (.d a.toDouble, .d b)
  | .f a, b => (.f a, .f b.toFloat)
  | a, .f b => (.f a.toFloat, .f b)
  | .l a, b => (.l a, .l b.toLong)
  | a, .l b => (.l a.toLong, .l b)
  | .i a, .i b => (.i a, .i b)

/-- Of the operands' type, or the answer to a comparison. -/
inductive Answer (α : Type) where
  | number (a : α)
  | truth (b : Bool)

def Answer.value {α : Type} (mk : α → Value F D) : Answer α → Value F D
  | number a => mk a
  | truth b => .boolean b

/-- Integers: the exact result, of which the low bits are kept. -/
def BinOp.whole {w : ℕ} (a b : BitVec w) : BinOp → Outcome (Answer (BitVec w))
  | add => .value (.number (BitVec.ofInt w (a.toInt + b.toInt)))
  | sub => .value (.number (BitVec.ofInt w (a.toInt - b.toInt)))
  | mul => .value (.number (BitVec.ofInt w (a.toInt * b.toInt)))
  | div => if b.toInt = 0 then .throws else .value (.number (BitVec.ofInt w (a.toInt.tdiv b.toInt)))
  | rem => if b.toInt = 0 then .throws else .value (.number (BitVec.ofInt w (a.toInt.tmod b.toInt)))
  | and => .value (.number (a &&& b))
  | or => .value (.number (a ||| b))
  | xor => .value (.number (a ^^^ b))
  | eq => .value (.truth (a.toInt = b.toInt))
  | ne => .value (.truth (a.toInt ≠ b.toInt))
  | lt => .value (.truth (a.toInt < b.toInt))
  | le => .value (.truth (a.toInt ≤ b.toInt))
  | gt => .value (.truth (b.toInt < a.toInt))
  | ge => .value (.truth (b.toInt ≤ a.toInt))
  | _ => .undefined

def BinOp.fraction {G : Type} [Format G] (a b : G) : BinOp → Outcome (Answer G)
  | add => .value (.number (Format.add a b))
  | sub => .value (.number (Format.sub a b))
  | mul => .value (.number (Format.mul a b))
  | div => .value (.number (Format.div a b))
  | rem => .value (.number (Format.rem a b))
  | eq => .value (.truth (Format.eq a b))
  | ne => .value (.truth (!Format.eq a b))
  | lt => .value (.truth (Format.lt a b))
  | le => .value (.truth (Format.le a b))
  | gt => .value (.truth (Format.lt b a))
  | ge => .value (.truth (Format.le b a))
  | _ => .undefined

/-- A shift by the low bits of the count, as many as number the bits of the operand. -/
def BinOp.shift {w : ℕ} (a : BitVec w) (count : ℤ) : BinOp → Outcome (BitVec w)
  | shl => .value (BitVec.ofInt w (a.toInt * 2 ^ (count % w).toNat))
  | shr => .value (BitVec.ofInt w (a.toInt / 2 ^ (count % w).toNat))
  | ushr => .value (BitVec.ofNat w (a.toNat / 2 ^ (count % w).toNat))
  | _ => .undefined

def BinOp.isShift : BinOp → Bool
  | shl | shr | ushr => true
  | _ => false

def BinOp.evalShift (op : BinOp) (a : Num F D) (count : ℤ) : Outcome (Value F D) :=
  match a with
  | .i v => (op.shift v count).bind fun n => .value (.int n)
  | .l v => (op.shift v count).bind fun n => .value (.long n)
  | _ => .undefined

/-- Operands of one type. -/
def BinOp.evalSame (op : BinOp) : Num F D × Num F D → Outcome (Value F D)
  | (.i a, .i b) => (op.whole a b).bind fun r => .value (r.value .int)
  | (.l a, .l b) => (op.whole a b).bind fun r => .value (r.value .long)
  | (.f a, .f b) => (op.fraction a b).bind fun r => .value (r.value .float)
  | (.d a, .d b) => (op.fraction a b).bind fun r => .value (r.value .double)
  | _ => .undefined

/-- A shift has the type of its left operand alone. -/
def BinOp.evalNum (op : BinOp) (a b : Num F D) : Outcome (Value F D) :=
  if op.isShift then
    match b with
    | .i c => op.evalShift a c.toInt
    | .l c => op.evalShift a c.toInt
    | _ => .undefined
  else op.evalSame (promote a b)

def BinOp.evalBoolean (a b : Bool) : BinOp → Outcome (Value F D)
  | and => .value (.boolean (a && b))
  | or => .value (.boolean (a || b))
  | xor => .value (.boolean (a != b))
  | eq => .value (.boolean (a == b))
  | ne => .value (.boolean (a != b))
  | _ => .undefined

def BinOp.evalStrict (op : BinOp) : Value F D → Value F D → Outcome (Value F D)
  | .string a, .string b => if op = .add then .value (.string (a ++ b)) else .undefined
  | .boolean a, .boolean b => op.evalBoolean a b
  | a, b => match a.numeric, b.numeric with
    | some a, some b => op.evalNum a b
    | _, _ => .undefined

/-- The right operand of `&&` and `||` is evaluated if the left does not decide. -/
def BinOp.eval (op : BinOp) (x y : Outcome (Value F D)) : Outcome (Value F D) :=
  match op with
  | .land => x.bind fun
    | .boolean true => y.bind fun
      | .boolean b => .value (.boolean b)
      | _ => .undefined
    | .boolean false => .value (.boolean false)
    | _ => .undefined
  | .lor => x.bind fun
    | .boolean true => .value (.boolean true)
    | .boolean false => y.bind fun
      | .boolean b => .value (.boolean b)
      | _ => .undefined
    | _ => .undefined
  | op => x.bind fun a => y.bind fun b => op.evalStrict a b

def UnOp.evalNum (n : Num F D) : UnOp → Outcome (Value F D)
  | plus => .value n.value
  | minus => match n with
    | .i v => .value (.int (BitVec.ofInt 32 (-v.toInt)))
    | .l v => .value (.long (BitVec.ofInt 64 (-v.toInt)))
    | .f v => .value (.float (Format.neg v))
    | .d v => .value (.double (Format.neg v))
  | complement => match n with
    | .i v => .value (.int (BitVec.ofInt 32 (-v.toInt - 1)))
    | .l v => .value (.long (BitVec.ofInt 64 (-v.toInt - 1)))
    | _ => .undefined
  | toInt => .value (.int n.toInt)
  | toLong => .value (.long n.toLong)
  | toFloat => .value (.float n.toFloat)
  | toDouble => .value (.double n.toDouble)
  | toChar => .value (.char n.toChar)
  | not => .undefined

def UnOp.eval (op : UnOp) (v : Value F D) : Outcome (Value F D) :=
  match v with
  | .boolean b => if op = .not then .value (.boolean !b) else .undefined
  | v => match v.numeric with
    | some n => op.evalNum n
    | none => .undefined

def evalUnary (name : String) (x : Outcome (Value F D)) : Outcome (Value F D) :=
  match UnOp.ofName name with
  | some op => x.bind op.eval
  | none => .undefined

def evalBinary (name : String) (x y : Outcome (Value F D)) : Outcome (Value F D) :=
  match BinOp.ofName name with
  | some op => op.eval x y
  | none => .undefined

/-- A reference of constant type has the value of its type. -/
def eval : Tree F D → Outcome (Value F D)
  | .literal lit => .value lit.value
  | .ident _ ty => match constantOf ty with
    | some lit => .value lit.value
    | none => .undefined
  | .select qual name ty => match constantOf ty with
    | some lit => .value lit.value
    | none => evalUnary name (eval qual)
  | .apply (.select qual name _) [] => evalUnary name (eval qual)
  | .apply (.select qual name _) [arg] => evalBinary name (eval qual) (eval arg)
  | _ => .undefined

end Evaluation

end ScalaRs.ConstFold
