import TuneLang.Eval
import TuneLang.Expr.Draft
import TuneLang.Grammar.Parse

/-!
# Running programs

What happens around an evaluation. An expression is announced, evaluated without names in scope, and its result printed; a misuse
is printed in place of the result. A source is read into a tree and then an expression, each of which may be shown on the way.
-/

namespace TuneLang

/-- Why a run was cut short: a fault other than a misuse, or a result that could not be recorded. -/
inductive RunFailure where
  | fault (f : Fault)
  | notRecorded (e : RecordFailure)
  deriving DecidableEq, Repr

/-- Where the result of a run is recorded. -/
def Program.recordPath : String := "tune.mid"

/-- Print the result of a run, and record it when it is a tune and that is asked for. -/
def Program.report (record : Bool) (v : Value) (w : World) : Option RunFailure × World :=
  match v.text? with
  | none => (some (.fault .numeralTooLong), w)
  | some text =>
    match v, record with
    | .tune t, true =>
      match (w.printLine s!"result: {text}").record t Program.recordPath with
      | (failure, w) => (failure.map .notRecorded, w)
    | _, _ => (none, w.printLine s!"result: {text}")

/-- Evaluate an expression and print its result, or its misuse. -/
def Program.execute (depth : Nat) (e : Expr) (record : Bool) (w : World) : Option RunFailure × World :=
  match e.evalClosed depth w with
  | .ok v m => Program.report record v m.world
  | .error (.misuse misuse) m => (none, m.world.printLine misuse.message)
  | .error f m => (some (.fault f), m.world)

/-- Run an expression, announced or not. -/
def Program.run (depth : Nat) (e : Expr) (announce record : Bool) (w : World) : Option RunFailure × World :=
  if announce then
    match e.text? with
    | none => (some (.fault .numeralTooLong), w)
    | some text => Program.execute depth e record (w.printLine s!"running {text}")
  else Program.execute depth e record w

/-- The lines that announce the parts of the sequences of a source. -/
def Program.announcements (counts : List Nat) : String := String.join (counts.map (fun n => toString n ++ "\n"))

/-- Convert a tree and print its announcements. -/
def Program.convert (t : Tree) (w : World) : Except BuildError Expr × World :=
  match Expr.ofTree t [] with
  | .ok e counts => (.ok e, w.print (Program.announcements counts))
  | .error e counts => (.error e, w.print (Program.announcements counts))

/-- Why a source was not run to its end. -/
inductive ProgramFailure where
  | build (e : BuildError)
  | run (f : RunFailure)
  deriving DecidableEq, Repr

/-- The line about a source that cannot be read. -/
def Program.parseErrorLine (e : ParseError) : String := "parse error: " ++ e.message

/-- The line about a tree with an ambiguity. -/
def Program.ambiguousLine : String := "ambiguous parse"

/-- Show the outline of a source and run it. -/
def Program.perform (depth : Nat) (source : String) (w : World) : Option ProgramFailure × World :=
  match Tree.parse source with
  | .error e => (none, w.printLine (Program.parseErrorLine e))
  | .ok t =>
    match Program.convert t (w.printLine t.outline) with
    | (.error .ambiguous, w) => (none, w.printLine Program.ambiguousLine)
    | (.error e, w) => (some (.build e), w)
    | (.ok e, w) =>
      match Program.run depth e true false w with
      | (some f, w) => (some (.run f), w)
      | (none, w) => (none, w.printLine "")

/-- Show a source as a tree, as an outline and as an expression, and give the expression. -/
def Program.examine (source : String) (w : World) : Except ProgramFailure (Option Expr) × World :=
  match Tree.parse source with
  | .error e => (.ok none, w.printLine (Program.parseErrorLine e))
  | .ok t =>
    match Program.convert t ((w.printLine ("raw: " ++ t.inspect)).printLine ("pretty: " ++ t.outline)) with
    | (.error .ambiguous, w) => (.ok none, w.printLine Program.ambiguousLine)
    | (.error e, w) => (.error (.build e), w)
    | (.ok e, w) =>
      match e.labelled? with
      | some text => (.ok (some e), w.printLine ("raw AST: " ++ text))
      | none => (.error (.run (.fault .numeralTooLong)), w)

end TuneLang
