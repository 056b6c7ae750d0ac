/-!
# Rules

The rules whose nodes make up a tree, by the names they are shown under. A tree that was not read from a source may have nodes of
other rules as well, and of the rule that marks an ambiguity.
-/

namespace TuneLang

/-- The rule of a node. -/
inductive Rule where
  | seq | cond | display | assign | or | and | not | eq | ne | lt | gt | le | ge | write | run | times | reverse | join | add | sub
  | mul | div | neg | slice | int | name | note | letIn | letFun | app | truth | falsity | ambiguous
  | other (label : String)
  deriving DecidableEq, Repr

/-- The name of a rule. -/
def Rule.label : Rule → String
  | .seq => "seq"
  | .cond => "if_"
  | .display => "show"
  | .assign => "assign"
  | .or => "or_"
  | .and => "and_"
  | .not => "not_"
  | .eq => "eq"
  | .ne => "neq"
  | .lt => "lt"
  | .gt => "gt"
  | .le => "leq"
  | .ge => "geq"
  | .write => "write"
  | .run => "run"
  | .times => "repeat"
  | .reverse => "reverse"
  | .join => "join"
  | .add => "add"
  | .sub => "sub"
  | .mul => "mul"
  | .div => "div"
  | .neg => "neg"
  | .slice => "slice"
  | .int => "int"
  | .name => "name"
  | .note => "note"
  | .letIn => "let"
  | .letFun => "letfun"
  | .app => "app"
  | .truth => "true"
  | .falsity => "false"
  | .ambiguous => "_ambig"
  | .other label => label

/-- The rules that have a meaning. -/
def Rule.known : List Rule :=
  [.seq, .cond, .display, .assign, .or, .and, .not, .eq, .ne, .lt, .gt, .le, .ge, .write, .run, .times, .reverse, .join, .add,
    .sub, .mul, .div, .neg, .slice, .int, .name, .note, .letIn, .letFun, .app, .truth, .falsity, .ambiguous]

/-- The rule of a name. -/
def Rule.ofName (name : String) : Rule := (Rule.known.find? (fun r => r.label == name)).getD (.other name)

end TuneLang
