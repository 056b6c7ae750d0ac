import TuneLang.Tune

/-!
# Expressions and values

The language has integers, truth values, tunes and functions of one argument. A function is a value that carries the environment
it was made in, so expressions and values are defined together: a literal holds a value, and a closure holds the expression of its
body. Two further kinds of value, the text and the absence of a value, arise only from literals.
-/

namespace TuneLang

/-- The operators that evaluate both operands before they act. -/
inductive BinaryOp where
  | add | sub | mul | div | eq | ne | lt | gt | le | ge | join | times
  deriving DecidableEq, Repr

/-- The operators that may leave their right operand unevaluated. -/
inductive Connective where
  | and | or
  deriving DecidableEq, Repr

/-- The operators with one operand. -/
inductive UnaryOp where
  | neg | not | reverse
  deriving DecidableEq, Repr

/-- A place in the store. -/
abbrev Loc := Nat

/-- The names in scope, innermost first, each with the location it is bound to. -/
abbrev Env := List (String × Loc)

mutual

/-- What an expression can evaluate to. -/
inductive Value where
  | int (n : Int)
  | bool (b : Bool)
  | nothing
  | text (s : String)
  | tune (notes : Tune)
  | closure (param : String) (body : Expr) (env : Env)

/-- The expressions of the language. `stray` is a value that stands where an expression is expected without being a literal. -/
inductive Expr where
  | lit (v : Value)
  | note (pitch : Pitch) (duration : Int)
  | binary (op : BinaryOp) (left right : Expr)
  | logic (op : Connective) (left right : Expr)
  | unary (op : UnaryOp) (operand : Expr)
  | slice (tune start stop : Expr)
  | cond (test yes no : Expr)
  | name (x : String)
  | letIn (x : String) (definition body : Expr)
  | letFun (f param : String) (body scope : Expr)
  | app (function argument : Expr)
  | assign (x : String) (value : Expr)
  | seq (first second : Expr)
  | display (shown : Expr)
  | read
  | write (tune : Expr) (path : String)
  | run (path : String)
  | stray (v : Value)

end

deriving instance DecidableEq for Value, Expr
deriving instance Repr for Value, Expr

instance : Inhabited Value := ⟨.nothing⟩

instance : Inhabited Expr := ⟨.read⟩

/-- Whether a value is a function. -/
def Value.isClosure : Value → Bool
  | .closure _ _ _ => true
  | _ => false

end TuneLang
