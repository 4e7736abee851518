import Jess.Value

/-!
What operators do to values. Addition joins text when its left operand is a string; all
other arithmetic and every comparison of size is for numbers alone.
-/

namespace Jess

def Value.onNumbers (op : BinaryOp) (f : Float → Float → Value) :
    Value → Value → Except Fault.Cause Value
  | .number x, .number y => .ok (f x y)
  | _, _ => .error (.operandsMustBeNumbers op)

/-- Numbers are added. A string takes the printed text of its right operand behind it. -/
def Value.plus : Value → Value → Except Fault.Cause Value
  | .number x, .number y => .ok (.number (x + y))
  | .string s, right => .ok (.string (s ++ right.text))
  | left, right => .error (.invalidPlusOperands left.type right.type)

def BinaryOp.apply (op : BinaryOp) (left right : Value) : Except Fault.Cause Value :=
  match op with
  | .add => left.plus right
  | .sub => Value.onNumbers op (fun x y => .number (x - y)) left right
  | .mul => Value.onNumbers op (fun x y => .number (x * y)) left right
  | .div => Value.onNumbers op (fun x y => .number (x / y)) left right
  | .lt => Value.onNumbers op (fun x y => .boolean (decide (x < y))) left right
  | .ltEq => Value.onNumbers op (fun x y => .boolean (decide (x ≤ y))) left right
  | .gt => Value.onNumbers op (fun x y => .boolean (decide (y < x))) left right
  | .gtEq => Value.onNumbers op (fun x y => .boolean (decide (y ≤ x))) left right
  | .eq => .ok (.boolean (left.equals right))
  | .notEq => .ok (.boolean (!left.equals right))

def UnaryOp.apply (op : UnaryOp) (operand : Value) : Except Fault.Cause Value :=
  match op, operand with
  | .negate, .number x => .ok (.number (-x))
  | .negate, _ => .error .operandMustBeNumber
  | .not, v => .ok (.boolean (!v.isTruthy))

/-- Whether the left operand is already the value of the whole. -/
def LogicalOp.decidedBy (op : LogicalOp) (left : Value) : Bool :=
  match op with
  | .or => left.isTruthy
  | .and => !left.isTruthy

end Jess
