import TuneLang.Eval.Equality
import TuneLang.Fault

/-!
# Operators on values

What each operator makes of its operands once they are evaluated. Arithmetic with a tune on the left works on its notes: addition
and subtraction transpose, multiplication and division scale durations. Equality and inequality are both false of values that
cannot be compared.
-/

namespace TuneLang

/-- Whether a number can count repetitions: the signed integers of 64 bits can. -/
def Operator.isCount (k : Int) : Bool := decide (-9223372036854775808 ≤ k) && decide (k ≤ 9223372036854775807)

/-- The answer of a comparison that holds when equality has the given answer, and is false of values that cannot be compared. -/
def Operator.compare (depth : Nat) (s : Store) (v w : Value) (wanted : Bool) : Except Fault Value :=
  if v.comparable w then
    match Value.same? s depth v w with
    | some answer => .ok (.bool (answer == wanted))
    | none => .error .endless
  else .ok (.bool false)

/-- Apply an operator to two values. `depth` bounds the comparison of closures. -/
def BinaryOp.apply (depth : Nat) (s : Store) : BinaryOp → Value → Value → Except Fault Value
  | .add, .int a, .int b => .ok (.int (a + b))
  | .add, .tune t, .int k => .ok (.tune (Tune.transpose t k))
  | .add, _, _ => .error (.misuse .addition)
  | .sub, .int a, .int b => .ok (.int (a - b))
  | .sub, .tune t, .int k => .ok (.tune (Tune.transpose t (-k)))
  | .sub, _, _ => .error (.misuse .subtraction)
  | .mul, .int a, .int b => .ok (.int (a * b))
  | .mul, .tune t, .int k => if k ≤ 0 then .error (.misuse .scaling) else .ok (.tune (Tune.stretch t k))
  | .mul, _, _ => .error (.misuse .multiplication)
  | .div, .int a, .int b => if b = 0 then .error (.misuse .divisionByZero) else .ok (.int (a.fdiv b))
  | .div, .tune t, .int k => if k ≤ 0 then .error (.misuse .scaling) else .ok (.tune (Tune.shrink t k))
  | .div, _, _ => .error (.misuse .division)
  | .eq, v, w => Operator.compare depth s v w true
  | .ne, v, w => Operator.compare depth s v w false
  | .lt, .int a, .int b => .ok (.bool (decide (a < b)))
  | .gt, .int a, .int b => .ok (.bool (decide (b < a)))
  | .le, .int a, .int b => .ok (.bool (decide (a ≤ b)))
  | .ge, .int a, .int b => .ok (.bool (decide (b ≤ a)))
  | .lt, _, _ => .error (.misuse .comparison)
  | .gt, _, _ => .error (.misuse .comparison)
  | .le, _, _ => .error (.misuse .comparison)
  | .ge, _, _ => .error (.misuse .comparison)
  | .join, .tune t, .tune u => .ok (.tune (t ++ u))
  | .join, _, _ => .error (.misuse .join)
  | .times, .int k, .tune t => if Operator.isCount k then .ok (.tune (Tune.times t k.toNat)) else .error .countTooLarge
  | .times, _, _ => .error (.misuse .repetition)

/-- Apply an operator to one value. -/
def UnaryOp.apply : UnaryOp → Value → Except Fault Value
  | .neg, .int a => .ok (.int (-a))
  | .neg, _ => .error (.misuse .negation)
  | .not, .bool b => .ok (.bool (!b))
  | .not, _ => .error (.misuse .negatedOperand)
  | .reverse, .tune t => .ok (.tune t.reverse)
  | .reverse, _ => .error (.misuse .reversal)

/-- Take a slice of a value. -/
def Value.slice : Value → Value → Value → Except Fault Value
  | .tune t, .int i, .int j => .ok (.tune (Tune.slice t i j))
  | _, _, _ => .error (.misuse .slice)

/-- The truth value on the left that settles a connective without its right operand. -/
def Connective.settling : Connective → Bool
  | .and => false
  | .or => true

end TuneLang
