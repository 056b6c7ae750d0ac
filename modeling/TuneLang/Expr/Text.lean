import TuneLang.Expr
import TuneLang.Text.Numeral

/-!
# The plain text of expressions and values

How values appear in results and messages, and how an expression is announced before it runs. Every compound expression but a
slice and a function definition stands in parentheses. A text does not exist when it would hold a numeral that is too long to be
written.
-/

namespace TuneLang

/-- The word or sign of an operator in plain text. -/
def BinaryOp.symbol : BinaryOp → String
  | .add => "+"
  | .sub => "-"
  | .mul => "*"
  | .div => "//"
  | .eq => "=="
  | .ne => "!="
  | .lt => "<"
  | .gt => ">"
  | .le => "<="
  | .ge => ">="
  | .join => "|"
  | .times => "repeat"

/-- The word of a connective in plain text. -/
def Connective.symbol : Connective → String
  | .and => "and"
  | .or => "or"

/-- The word or sign of an operator with one operand in plain text. -/
def UnaryOp.symbol : UnaryOp → String
  | .neg => "-"
  | .not => "not"
  | .reverse => "reverse"

/-- Plain text of an operator between its operands; a repetition has its word in front. -/
def BinaryOp.text (op : BinaryOp) (left right : String) : String :=
  let symbol := op.symbol
  match op with
  | .times => s!"({symbol} {left} {right})"
  | _ => s!"({left} {symbol} {right})"

/-- The truth values in plain text. -/
def Value.boolText (b : Bool) : String := if b then "True" else "False"

/-- A note in plain text. -/
def Note.text? (n : Note) : Option String := do
  let pitch := n.pitch
  let duration ← Numeral.write? n.duration
  return s!"({pitch}, {duration})"

/-- A tune in plain text. -/
def Tune.text? (t : Tune) : Option String := do
  let notes ← t.mapM Note.text?
  let listed := String.intercalate "," notes
  return s!"[{listed}]"

mutual

/-- A value in plain text. -/
def Value.text? : Value → Option String
  | .int n => Numeral.write? n
  | .bool b => some (Value.boolText b)
  | .nothing => some "None"
  | .text s => some s
  | .tune notes => Tune.text? notes
  | .closure param body _ => do
    let b ← body.text?
    return s!"({param}, {b})"

/-- An expression in plain text. -/
def Expr.text? : Expr → Option String
  | .lit v => v.text?
  | .note pitch duration => Note.text? ⟨pitch, duration⟩
  | .binary op left right => do
    let l ← left.text?
    let r ← right.text?
    return op.text l r
  | .logic op left right => do
    let l ← left.text?
    let r ← right.text?
    let symbol := op.symbol
    return s!"({l} {symbol} {r})"
  | .unary op operand => do
    let e ← operand.text?
    let symbol := op.symbol
    return s!"({symbol} {e})"
  | .slice tune start stop => do
    let t ← tune.text?
    let i ← start.text?
    let j ← stop.text?
    return s!"{t}[{i}:{j}]"
  | .cond test yes no => do
    let c ← test.text?
    let t ← yes.text?
    let e ← no.text?
    return s!"(if {c} then {t} else {e})"
  | .name x => some x
  | .letIn x definition body => do
    let d ← definition.text?
    let b ← body.text?
    return s!"(let {x} = {d} in {b})"
  | .letFun f param body scope => do
    let b ← body.text?
    let i ← scope.text?
    return s!"letfun {f} ({param}) = {b} in {i} end"
  | .app function argument => do
    let f ← function.text?
    let a ← argument.text?
    return s!"({f} ({a}))"
  | .assign x value => do
    let v ← value.text?
    return s!"({x} := {v})"
  | .seq first second => do
    let a ← first.text?
    let b ← second.text?
    return s!"({a}; {b})"
  | .display shown => do
    let e ← shown.text?
    return s!"(show {e})"
  | .read => some "read"
  | .write tune path => do
    let t ← tune.text?
    return s!"(write {t} {path})"
  | .run path => some s!"(run {path})"
  | .stray v => v.text?

end

end TuneLang
