import LoxLang.Eval.Basic

/-!
# Operators

What the operators do to their operands. Numbers are added, subtracted, multiplied, divided and
compared as IEEE says; texts can be joined; every two values can be compared for equality.
-/

namespace LoxLang

variable {σ : Scoping}

/-- Apply an operator to its operand. -/
def UnaryOp.apply (op : UnaryOp) (line : Int) (v : Value) : Eval σ Value :=
  match op, v with
  | .complement, v => return .bool (!v.isTruthy)
  | .negate, .number x => return .number (-x)
  | .negate, _ => Eval.fault .operandNotNumber (.ofSymbol op.symbol line)

namespace Number

/-- The quotient of two numbers. A number divided by zero is infinite, unless it is zero or
undefined itself. -/
def divide (x y : Number) : Except Defect Number :=
  if y == 0 then
    if x == 0 || x.isNaN then .ok notANumber
    else .ok (withSign (isNegative x != isNegative y) infinity)
  else
    match quotient? x y with
    | some z => .ok z
    | none => .error .zeroDivisor

/-- The remainder of two numbers, which is undefined where there is none. -/
def modulo (x y : Number) : Except Defect Number :=
  if y == 0 || x.isInf then .ok notANumber
  else
    match remainder? x y with
    | some z => .ok z
    | none => .error .noRemainder

end Number

namespace BinaryOp

/-- What an operator makes of two numbers. -/
def onNumbers (op : BinaryOp) (x y : Number) : Except Defect Value :=
  match op with
  | equal => return .bool (x == y)
  | notEqual => return .bool (x != y)
  | less => return .bool (x < y)
  | lessEqual => return .bool (x ≤ y)
  | greater => return .bool (x > y)
  | greaterEqual => return .bool (x ≥ y)
  | add => return .number (x + y)
  | subtract => return .number (x - y)
  | multiply => return .number (x * y)
  | divide => return .number (← x.divide y)
  | remainder => return .number (← x.modulo y)

/-- Apply an operator to its operands. -/
def apply (depth : Nat) (op : BinaryOp) (line : Int) (left right : Value) : Eval σ Value :=
  let token := Token.ofSymbol op.symbol line
  match op with
  | equal => return .bool (← Eval.equal depth left right)
  | notEqual => return .bool (!(← Eval.equal depth left right))
  | add =>
    match left, right with
    | .number x, .number y => Eval.expect (onNumbers add x y)
    | .string s, .string t => return .string (s ++ t)
    | _, _ => Eval.fault .operandsNotAddable token
  | op =>
    match left, right with
    | .number x, .number y => Eval.expect (onNumbers op x y)
    | _, _ => Eval.fault .operandsNotNumbers token

end BinaryOp

/-- The left operand decides, so the right one is not needed. -/
def LogicalOp.decides (op : LogicalOp) (left : Value) : Bool :=
  match op with
  | .and => !left.isTruthy
  | .or => left.isTruthy

end LoxLang
