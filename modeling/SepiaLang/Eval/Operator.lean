import SepiaLang.Eval.Stop
import SepiaLang.Word64

/-!
# Operators

What the operators mean. A tree may hold any text in the place of an operator; most texts mean
nothing.

* `UnaryOp.ofText?`, `BinaryOp.ofText?`: the operator that a text writes.
* `applyBinary`: the value of an operation on two values. Integers are compared by value, everything
  else by identity.
-/

namespace SepiaLang

/-- An operator before its operand. `step amount` adds the amount to a name. -/
inductive UnaryOp where
  | not
  | negate
  | step (amount : Int)
  deriving DecidableEq, Repr

/-- The operator that a text writes. -/
def UnaryOp.ofText? (text : String) : Option UnaryOp :=
  if text = "!" then some .not
  else if text = "-" then some .negate
  else if text = "++" then some (.step 1)
  else if text = "--" then some (.step (-1))
  else none

/-- The operations of arithmetic. -/
inductive Arith where
  | add
  | sub
  | mul
  | div
  deriving DecidableEq, Repr

/-- The comparisons. -/
inductive Comparison where
  | lt
  | gt
  | le
  | ge
  | eq
  | ne
  deriving DecidableEq, Repr

/-- The operations of logic. -/
inductive Logic where
  | and
  | or
  deriving DecidableEq, Repr

/-- An operator between two operands. The result of arithmetic is assigned to the left operand if
`assigns` is set. -/
inductive BinaryOp where
  | arith (op : Arith) (assigns : Bool)
  | compare (op : Comparison)
  | logic (op : Logic)
  deriving DecidableEq, Repr

/-- The operators between two operands, as they are written. -/
def BinaryOp.table : List (String × BinaryOp) :=
  [("+", .arith .add false), ("-", .arith .sub false), ("*", .arith .mul false),
   ("/", .arith .div false), ("+=", .arith .add true), ("-=", .arith .sub true),
   ("*=", .arith .mul true), ("/=", .arith .div true), ("<", .compare .lt), (">", .compare .gt),
   ("<=", .compare .le), (">=", .compare .ge), ("==", .compare .eq), ("!=", .compare .ne),
   ("&&", .logic .and), ("and", .logic .and), ("||", .logic .or), ("or", .logic .or)]

/-- The operator that a text writes. -/
def BinaryOp.ofText? (text : String) : Option BinaryOp := table.lookup text

/-- The operator assigns its result to the left operand. -/
def BinaryOp.assigns : BinaryOp → Bool
  | arith _ assigns => assigns
  | _ => false

/-- The comparison holds between two integers. -/
def Comparison.holds (op : Comparison) (a b : Int) : Bool :=
  match op with
  | lt => a < b
  | gt => a > b
  | le => a ≤ b
  | ge => a ≥ b
  | eq => a == b
  | ne => a != b

/-- The result of an operation of logic. -/
def Logic.apply (op : Logic) (a b : Bool) : Bool :=
  match op with
  | and => a && b
  | or => a || b

/-- The quotient of two integers, which has no meaning for the divisor zero. -/
def quotient (a b : Int) : Run Int :=
  match Word64.divide? a b with
  | some q => pure q
  | none => throw (.fault .divisionByZero)

/-- Arithmetic on words. -/
def Arith.apply (op : Arith) (a b : Int) : Run Int :=
  match op with
  | add => pure (Word64.wrap (a + b))
  | sub => pure (Word64.wrap (a - b))
  | mul => pure (Word64.wrap (a * b))
  | div => if b = 0 then fail .divisionByZero else quotient a b

/-- An operation on two integers. -/
def applyIntegers (text : String) (a b : Int) : Run Value :=
  match BinaryOp.ofText? text with
  | some (.arith op _) => return .integer (← op.apply a b)
  | some (.compare op) => return .boolean (op.holds a b)
  | _ => fail (.unknownBinary .integer text .integer)

/-- An operation on two values that are not both integers and whose identities are not asked for. -/
def applyOthers (text : String) (op : Option BinaryOp) (left right : Value) : Run Value :=
  match left, right, op with
  | .boolean a, .boolean b, some (.logic op) => return .boolean (op.apply a b)
  | .string _ a, .string _ b, some (.arith .add _) => newString (a ++ b)
  | _, _, _ =>
    if left.type = right.type then fail (.unknownBinary left.type text right.type)
    else fail (.typeMismatch left.type text right.type)

/-- The value of an operation on two values. -/
def applyBinary (text : String) (left right : Value) : Run Value :=
  match left, right with
  | .integer a, .integer b => applyIntegers text a b
  | _, _ =>
    match BinaryOp.ofText? text with
    | some (.compare .eq) => return .boolean (left.identical right)
    | some (.compare .ne) => return .boolean (!left.identical right)
    | op => applyOthers text op left right

end SepiaLang
