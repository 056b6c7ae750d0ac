import TuneLang.World.Recording

/-!
# Faults

How an evaluation ends when it does not end with a value. A misuse is an operator applied to what it does not take; a failed
exchange is one with the user, a file or the player; and a few faults stop the program outright. `endless` is the fault of an
evaluation that was given up because it went deeper than it may.
-/

namespace TuneLang

/-- An operator applied to what it does not take. -/
inductive Misuse where
  | addition | subtraction | multiplication | division | divisionByZero | scaling | negation | leftOperand | rightOperand
  | negatedOperand | comparison | condition | join | slice | application | assignment | repetition | reversal
  | notExpression (text : String)
  deriving DecidableEq, Repr

/-- The text of a misuse. -/
def Misuse.message : Misuse → String
  | .addition => "addition of non-integers or unsupported types"
  | .subtraction => "subtraction of non-integers or unsupported types"
  | .multiplication => "multiplication of non-integers"
  | .division => "division of non-integers"
  | .divisionByZero => "division by zero"
  | .scaling => "duration modifier must be positive"
  | .negation => "negation of non-integer"
  | .leftOperand => "Left logical operation on non-boolean"
  | .rightOperand => "Right logical operation on non-boolean"
  | .negatedOperand => "logical operation on non-boolean"
  | .comparison => "relational operation on non-integer"
  | .condition => "if condition must be a boolean"
  | .join => "non-joinable type"
  | .slice => "non-sliceable type"
  | .application => "application of non-function"
  | .assignment => "attempted assignment to name bound function"
  | .repetition => "expected integer and tune"
  | .reversal => "expected tune"
  | .notExpression text => s!"unknown expression type: {text}"

/-- A failed exchange with the user, a file or the player. -/
inductive ExchangeFailure where
  | integerExpected
  | tuneExpected
  | notWritten (e : RecordFailure)
  | notPlayed (e : PlayFailure)
  deriving DecidableEq, Repr

/-- The text of a failed exchange. -/
def ExchangeFailure.message : ExchangeFailure → String
  | .integerExpected => "Expected Integer"
  | .tuneExpected => "Expected Tune"
  | .notWritten e => "Failed to write Midi: " ++ e.message
  | .notPlayed e => "Failed to run Midi: " ++ e.message

/-- How an evaluation ends without a value. -/
inductive Fault where
  | misuse (m : Misuse)
  | unbound (x : String)
  | exchange (e : ExchangeFailure)
  | interrupted
  | numeralTooLong
  | countTooLarge
  | endless
  deriving DecidableEq, Repr

/-- The text of the fault of a name that is not in scope. -/
def Fault.unboundMessage (x : String) : String := "name is not in environment: " ++ x

end TuneLang
