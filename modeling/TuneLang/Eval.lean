import TuneLang.Eval.Operator
import TuneLang.Expr.Labelled

/-!
# Evaluation

An expression is evaluated in an environment and changes a machine, which is the store together with the world around it. A fault
ends the evaluation and leaves the machine as it was at that moment: what was assigned, printed or written before stays.

Operands are evaluated from left to right. A function keeps the environment it was made in, with its own name bound to itself in
front, and its argument is bound to a new location in front of that when it is applied. Assignment changes the location of a name;
a location that holds a function is not assigned to.

Evaluation is bounded by its depth, the number of expressions that are evaluated within one another. An evaluation that reaches
the bound ends with the fault `endless`.
-/

namespace TuneLang

/-- The store and the world around it. -/
structure Machine where
  store : Store := {}
  world : World := {}
  deriving DecidableEq, Repr

/-- A step of an evaluation: it changes the machine and ends with a value or a fault. -/
abbrev EvalM := EStateM Fault Machine

/-- The outcome of an operation that leaves the machine as it is. -/
def EvalM.ofExcept {α : Type} : Except Fault α → EvalM α
  | .ok a => pure a
  | .error e => throw e

/-- A change of the world. -/
def EvalM.onWorld {α : Type} (change : World → α × World) : EvalM α := fun m =>
  .ok (change m.world).1 { m with world := (change m.world).2 }

/-- The text of something to be printed. A numeral that is too long ends the evaluation. -/
def EvalM.written (text : Option String) : EvalM String :=
  match text with
  | some s => pure s
  | none => throw .numeralTooLong

/-- Print a line. -/
def EvalM.printLine (s : String) : EvalM Unit := EvalM.onWorld (fun w => ((), w.printLine s))

/-- A new location that holds a value. -/
def EvalM.allocate (v : Value) : EvalM Loc := fun m => .ok m.store.next { m with store := m.store.push v }

/-- What a location holds. -/
def EvalM.fetch (l : Loc) : EvalM Value := fun m => .ok (m.store.get l) m

/-- Put another value at a location. -/
def EvalM.update (l : Loc) (v : Value) : EvalM Unit := fun m => .ok () { m with store := m.store.set l v }

/-- The location of a name. -/
def EvalM.locate (env : Env) (x : String) : EvalM Loc :=
  match env.find? x with
  | some l => pure l
  | none => throw (.unbound x)

/-- Show a value: a tune is listed and played, with a line about what went wrong; any other value is printed. -/
def EvalM.display (v : Value) : EvalM Unit :=
  match v with
  | .tune t => do
    let listing ← EvalM.written (Tune.listing? t)
    EvalM.printLine listing
    match ← EvalM.onWorld (fun w => w.playTune t) with
    | none => pure ()
    | some reason => EvalM.printLine s!"failed to play tune: {reason}"
  | v => do
    let text ← EvalM.written v.text?
    EvalM.printLine text

/-- Ask the user for an integer. -/
def EvalM.readInteger : EvalM Value := do
  match ← EvalM.onWorld (fun w => w.ask "enter Integer: ") with
  | none => throw (.exchange .integerExpected)
  | some .interrupt => throw .interrupted
  | some (.typed line) =>
    match Numeral.read? line with
    | some n => pure (.int n)
    | none => throw (.exchange .integerExpected)

/-- Record a tune to a file. -/
def EvalM.write (v : Value) (path : String) : EvalM Value :=
  match v with
  | .tune t => do
    match ← EvalM.onWorld (fun w => w.record t path) with
    | none => pure (.bool true)
    | some e => throw (.exchange (.notWritten e))
  | _ => throw (.exchange .tuneExpected)

/-- Play a file. -/
def EvalM.run (path : String) : EvalM Value := do
  match ← EvalM.onWorld (fun w => w.play path) with
  | none => pure (.bool true)
  | some e => throw (.exchange (.notPlayed e))

/-- Evaluate an expression in an environment, at most `n` expressions deep. -/
def Expr.eval : Nat → Env → Expr → EvalM Value
  | 0, _, _ => throw .endless
  | n + 1, env, e =>
    match e with
    | .lit v => pure v
    | .note pitch duration => pure (.tune [⟨pitch, duration⟩])
    | .binary op left right => do
      let v ← left.eval n env
      let w ← right.eval n env
      let m ← get
      EvalM.ofExcept (op.apply n m.store v w)
    | .logic op left right => do
      match ← left.eval n env with
      | .bool b =>
        if b = op.settling then pure (.bool b)
        else match ← right.eval n env with
          | .bool c => pure (.bool c)
          | _ => throw (.misuse .rightOperand)
      | _ => throw (.misuse .leftOperand)
    | .unary op operand => do
      let v ← operand.eval n env
      EvalM.ofExcept (op.apply v)
    | .slice tune start stop => do
      let t ← tune.eval n env
      let i ← start.eval n env
      let j ← stop.eval n env
      EvalM.ofExcept (t.slice i j)
    | .cond test yes no => do
      match ← test.eval n env with
      | .bool true => yes.eval n env
      | .bool false => no.eval n env
      | _ => throw (.misuse .condition)
    | .name x => do
      let l ← EvalM.locate env x
      EvalM.fetch l
    | .letIn x definition body => do
      let v ← definition.eval n env
      let l ← EvalM.allocate v
      body.eval n ((x, l) :: env)
    | .letFun f param body scope => do
      let m ← get
      let own := (f, m.store.next) :: env
      let _ ← EvalM.allocate (.closure param body own)
      scope.eval n own
    | .app function argument => do
      match ← function.eval n env with
      | .closure param body captured =>
        let v ← argument.eval n env
        let l ← EvalM.allocate v
        body.eval n ((param, l) :: captured)
      | _ => throw (.misuse .application)
    | .assign x value => do
      let l ← EvalM.locate env x
      match ← EvalM.fetch l with
      | .closure _ _ _ => throw (.misuse .assignment)
      | _ =>
        let v ← value.eval n env
        EvalM.update l v
        pure v
    | .seq first second => do
      let _ ← first.eval n env
      second.eval n env
    | .display shown => do
      let v ← shown.eval n env
      EvalM.display v
      pure v
    | .read => EvalM.readInteger
    | .write tune path => do
      let v ← tune.eval n env
      EvalM.write v path
    | .run path => EvalM.run path
    | .stray v => do
      let text ← EvalM.written v.text?
      throw (.misuse (.notExpression text))

/-- How deep an evaluation may go. -/
def Expr.depthLimit : Nat := 4000

/-- Evaluate an expression without names in scope, from an empty store. -/
def Expr.evalClosed (depth : Nat) (e : Expr) (w : World) : EStateM.Result Fault Machine Value :=
  e.eval depth [] ⟨.empty, w⟩

end TuneLang
