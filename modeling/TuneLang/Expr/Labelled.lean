import TuneLang.Expr.Text
import TuneLang.Text.Quoted

/-!
# The labelled text of expressions and values

The form in which an expression is inspected: each construct by its name, with its parts labelled, and texts in quotes. Notes of
a tune that is shown are listed in the same form. As in plain text, a numeral that is too long has no written form.
-/

namespace TuneLang

/-- A construct with its labelled parts. -/
def Labelled.form (name : String) (parts : List (String × String)) : String :=
  let listed := String.intercalate ", " (parts.map (fun p => p.1 ++ "=" ++ p.2))
  s!"{name}({listed})"

/-- The name of an operator's construct. -/
def BinaryOp.label : BinaryOp → String
  | .add => "Add"
  | .sub => "Sub"
  | .mul => "Mul"
  | .div => "Div"
  | .eq => "Eq"
  | .ne => "Neq"
  | .lt => "Lt"
  | .gt => "Gt"
  | .le => "Leq"
  | .ge => "Geq"
  | .join => "Join"
  | .times => "Repeat"

/-- The labels of an operator's two parts. -/
def BinaryOp.parts : BinaryOp → String × String
  | .times => ("count", "tune")
  | _ => ("left", "right")

/-- The name of a connective's construct. -/
def Connective.label : Connective → String
  | .and => "And"
  | .or => "Or"

/-- The name of the construct of an operator with one operand. -/
def UnaryOp.label : UnaryOp → String
  | .neg => "Neg"
  | .not => "Not"
  | .reverse => "Reverse"

/-- The label of an operator's only part. -/
def UnaryOp.part : UnaryOp → String
  | .reverse => "tune"
  | _ => "subexpr"

/-- A note with its parts labelled. -/
def Note.labelled? (n : Note) : Option String := do
  let duration ← Numeral.write? n.duration
  return Labelled.form "Note" [("pitch", Text.quoted n.pitch), ("duration", duration)]

/-- The notes of a tune, each with its parts labelled, as a list in brackets. -/
def Tune.listing? (t : Tune) : Option String := do
  let notes ← t.mapM Note.labelled?
  let listed := String.intercalate ", " notes
  return s!"[{listed}]"

mutual

/-- A value with its parts labelled. A closure is shown without what it captured. -/
def Value.labelled? : Value → Option String
  | .int n => Numeral.write? n
  | .bool b => some (Value.boolText b)
  | .nothing => some "None"
  | .text s => some (Text.quoted s)
  | .tune notes => do
    let listing ← Tune.listing? notes
    return Labelled.form "Tune" [("notes", listing)]
  | .closure param body _ => do
    let b ← body.labelled?
    return Labelled.form "Closure" [("param", Text.quoted param), ("body", b), ("env", "()")]

/-- An expression with its parts labelled. -/
def Expr.labelled? : Expr → Option String
  | .lit v => do
    let value ← v.labelled?
    return Labelled.form "Lit" [("value", value)]
  | .note pitch duration => Note.labelled? ⟨pitch, duration⟩
  | .binary op left right => do
    let l ← left.labelled?
    let r ← right.labelled?
    return Labelled.form op.label [(op.parts.1, l), (op.parts.2, r)]
  | .logic op left right => do
    let l ← left.labelled?
    let r ← right.labelled?
    return Labelled.form op.label [("left", l), ("right", r)]
  | .unary op operand => do
    let e ← operand.labelled?
    return Labelled.form op.label [(op.part, e)]
  | .slice tune start stop => do
    let t ← tune.labelled?
    let i ← start.labelled?
    let j ← stop.labelled?
    return Labelled.form "Slice" [("tune", t), ("start", i), ("end", j)]
  | .cond test yes no => do
    let c ← test.labelled?
    let t ← yes.labelled?
    let e ← no.labelled?
    return Labelled.form "If" [("cond", c), ("thenexpr", t), ("elseexpr", e)]
  | .name x => some (Labelled.form "Name" [("name", Text.quoted x)])
  | .letIn x definition body => do
    let d ← definition.labelled?
    let b ← body.labelled?
    return Labelled.form "Let" [("name", Text.quoted x), ("defexpr", d), ("bodyexpr", b)]
  | .letFun f param body scope => do
    let b ← body.labelled?
    let i ← scope.labelled?
    return Labelled.form "Letfun" [("name", Text.quoted f), ("param", Text.quoted param), ("bodyexpr", b), ("inexpr", i)]
  | .app function argument => do
    let f ← function.labelled?
    let a ← argument.labelled?
    return Labelled.form "App" [("fun", f), ("arg", a)]
  | .assign x value => do
    let v ← value.labelled?
    return Labelled.form "Assign" [("name", Text.quoted x), ("value", v)]
  | .seq first second => do
    let a ← first.labelled?
    let b ← second.labelled?
    return Labelled.form "Seq" [("expr1", a), ("expr2", b)]
  | .display shown => do
    let e ← shown.labelled?
    return Labelled.form "Show" [("expr", e)]
  | .read => some (Labelled.form "Read" [])
  | .write tune path => do
    let t ← tune.labelled?
    return Labelled.form "Write" [("tune", t), ("name", Text.quoted path)]
  | .run path => some (Labelled.form "Run" [("name", Text.quoted path)])
  | .stray v => v.labelled?

end

end TuneLang
