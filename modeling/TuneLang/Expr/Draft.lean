import TuneLang.Expr
import TuneLang.Grammar.Tree
import TuneLang.Text.Numeral

/-!
# From trees to expressions

A tree is converted from its leaves up. Each node becomes a draft: a construct of the language with the drafts of its parts. A
tree that was read from a source gives a draft in which every part is what its construct asks for, and so an expression
(`Draft.toExpr?`). A tree from elsewhere may lack parts, have parts of the wrong kind, or nodes of unknown rules, which are kept;
a rule that cannot be applied to its parts fails and is named.

Some rules take all their parts as they are and ask for an exact number of them. The others pick the parts they need by position,
and of a part that stands for a name, a number or a path they take the value it carries.

Each sequence announces how many parts it has when it is converted.
-/

namespace TuneLang

/-- The constructs a draft can have. -/
inductive Form where
  | lit | note
  | binary (op : BinaryOp)
  | logic (op : Connective)
  | unary (op : UnaryOp)
  | slice | cond | name | letIn | letFun | app | assign | seq | display | read | write | run
  deriving DecidableEq, Repr

/-- How many parts a construct has. -/
def Form.arity : Form → Nat
  | .read => 0
  | .lit | .unary _ | .name | .display | .run => 1
  | .note | .binary _ | .logic _ | .app | .assign | .seq | .write => 2
  | .slice | .cond | .letIn => 3
  | .letFun => 4

/-- A converted tree: a construct with its parts, a value that a part carries, or a leaf or node that was kept. -/
inductive Draft where
  | form (f : Form) (parts : List Draft)
  | int (n : Int)
  | bool (b : Bool)
  | text (s : String)
  | leaf (label text : String)
  | node (rule : Rule) (parts : List Draft)
  deriving Repr, Inhabited

/-- Why a rule cannot be applied to its parts. -/
inductive BuildFault where
  | wrongCount | missingPart | noValue | notNumeral | notNumber
  deriving DecidableEq, Repr

/-- Why a tree has no expression. -/
inductive BuildError where
  | ambiguous
  | failed (rule : String) (fault : BuildFault)
  | loneLeaf
  | leftover
  deriving DecidableEq, Repr

/-- The part at a position. -/
def Draft.part (parts : List Draft) (i : Nat) : Except BuildFault Draft :=
  match parts[i]? with
  | some d => .ok d
  | none => .error .missingPart

/-- The value that a draft carries: the text of a leaf, the value of a literal, the right side of an assignment. -/
def Draft.value : Draft → Except BuildFault Draft
  | .leaf _ s => .ok (.text s)
  | .form .lit [v] => .ok v
  | .form .assign [_, v] => .ok v
  | _ => .error .noValue

/-- The value that the part at a position carries. -/
def Draft.valueAt (parts : List Draft) (i : Nat) : Except BuildFault Draft := do
  let d ← Draft.part parts i
  d.value

/-- The text that a draft is. -/
def Draft.text? : Draft → Option String
  | .text s => some s
  | .leaf _ s => some s
  | _ => none

/-- The integer that a draft is or writes. -/
def Draft.number : Draft → Except BuildFault Int
  | .int n => .ok n
  | .bool b => .ok (if b then 1 else 0)
  | .text s | .leaf _ s =>
    match Numeral.read? s with
    | some n => .ok n
    | none => .error .notNumeral
  | _ => .error .notNumber

/-- The construct of a rule that takes all its parts as they are. -/
def Rule.form? : Rule → Option Form
  | .seq => some .seq
  | .cond => some .cond
  | .display => some .display
  | .or => some (.logic .or)
  | .and => some (.logic .and)
  | .not => some (.unary .not)
  | .eq => some (.binary .eq)
  | .ne => some (.binary .ne)
  | .lt => some (.binary .lt)
  | .gt => some (.binary .gt)
  | .le => some (.binary .le)
  | .ge => some (.binary .ge)
  | .times => some (.binary .times)
  | .reverse => some (.unary .reverse)
  | .join => some (.binary .join)
  | .add => some (.binary .add)
  | .sub => some (.binary .sub)
  | .mul => some (.binary .mul)
  | .div => some (.binary .div)
  | .neg => some (.unary .neg)
  | .slice => some .slice
  | .app => some .app
  | _ => none

/-- The draft of a name: three names are words of the language. -/
def Draft.ofName (v : Draft) : Draft :=
  if v.text? = some "true" then .form .lit [.bool true]
  else if v.text? = some "false" then .form .lit [.bool false]
  else if v.text? = some "read" then .form .read []
  else .form .name [v]

/-- Apply a rule that picks its parts by position. A rule without meaning keeps its node. -/
def Rule.pick (rule : Rule) (parts : List Draft) : Except BuildFault Draft :=
  match rule with
  | .truth => .ok (.form .lit [.bool true])
  | .falsity => .ok (.form .lit [.bool false])
  | .int => do
    let v ← Draft.valueAt parts 0
    let n ← v.number
    return .form .lit [.int n]
  | .name => do
    let v ← Draft.valueAt parts 0
    return v.ofName
  | .note => do
    let p ← Draft.valueAt parts 0
    let v ← Draft.valueAt parts 1
    let d ← v.number
    return .form .note [p, .int d]
  | .letIn => do
    let x ← Draft.valueAt parts 0
    let d ← Draft.part parts 1
    let b ← Draft.part parts 2
    return .form .letIn [x, d, b]
  | .letFun => do
    let f ← Draft.valueAt parts 0
    let p ← Draft.valueAt parts 1
    let b ← Draft.part parts 2
    let i ← Draft.part parts 3
    return .form .letFun [f, p, b, i]
  | .assign => do
    let x ← Draft.valueAt parts 0
    let v ← Draft.part parts 1
    return .form .assign [x, v]
  | .write => do
    let t ← Draft.part parts 0
    let path ← Draft.valueAt parts 1
    return .form .write [t, path]
  | .run => do
    let path ← Draft.valueAt parts 0
    return .form .run [path]
  | rule => .ok (.node rule parts)

/-- Apply a rule to its parts. -/
def Rule.apply (rule : Rule) (parts : List Draft) : Except BuildFault Draft :=
  match rule.form? with
  | some f => if parts.length = f.arity then .ok (.form f parts) else .error .wrongCount
  | none => rule.pick parts

/-- A conversion in progress: it collects the announcements, and may fail. -/
abbrev BuildM := EStateM BuildError (List Nat)

/-- The announcements after a rule was met. -/
def Rule.announced (rule : Rule) (parts : List Draft) (counts : List Nat) : List Nat :=
  if rule = .seq then counts ++ [parts.length] else counts

/-- Apply a rule, after a sequence has announced how many parts it has. -/
def Rule.build (rule : Rule) (parts : List Draft) : BuildM Draft := fun counts =>
  if rule = .ambiguous then .error .ambiguous counts
  else match rule.apply parts with
    | .ok d => .ok d (rule.announced parts counts)
    | .error fault => .error (.failed rule.label fault) (rule.announced parts counts)

/-- The draft of a leaf. A leaf is kept, unless its label is the name of a rule: then the rule is applied to its characters. -/
def Draft.ofLeaf (label text : String) : BuildM Draft :=
  match Rule.ofName label with
  | .other _ => pure (.leaf label text)
  | rule => rule.build (text.toList.map (fun c => .text (String.ofList [c])))

mutual

/-- The draft of a tree that is a part of another. -/
def Draft.ofPart : Tree → BuildM Draft
  | .leaf label s => Draft.ofLeaf label s
  | .node rule children => do
    let parts ← Draft.ofParts children
    rule.build parts

/-- The drafts of the parts of a tree, from left to right. -/
def Draft.ofParts : List Tree → BuildM (List Draft)
  | [] => pure []
  | t :: ts => do
    let d ← Draft.ofPart t
    let ds ← Draft.ofParts ts
    return d :: ds

end

/-- The draft of a tree. A leaf is converted as a part only, and is no tree to start from. -/
def Draft.ofTree : Tree → BuildM Draft
  | .leaf _ _ => throw .loneLeaf
  | t => Draft.ofPart t

/-- The expression of a draft, when each part is what its construct asks for. -/
def Draft.toExpr? : Draft → Option Expr
  | .form .lit [.int n] => some (.lit (.int n))
  | .form .lit [.bool b] => some (.lit (.bool b))
  | .form .note [.text p, .int d] => some (.note p d)
  | .form (.binary op) [l, r] => do
    let l ← l.toExpr?
    let r ← r.toExpr?
    return .binary op l r
  | .form (.logic op) [l, r] => do
    let l ← l.toExpr?
    let r ← r.toExpr?
    return .logic op l r
  | .form (.unary op) [e] => do
    let e ← e.toExpr?
    return .unary op e
  | .form .slice [t, i, j] => do
    let t ← t.toExpr?
    let i ← i.toExpr?
    let j ← j.toExpr?
    return .slice t i j
  | .form .cond [c, t, e] => do
    let c ← c.toExpr?
    let t ← t.toExpr?
    let e ← e.toExpr?
    return .cond c t e
  | .form .name [.text x] => some (.name x)
  | .form .letIn [.text x, d, b] => do
    let d ← d.toExpr?
    let b ← b.toExpr?
    return .letIn x d b
  | .form .letFun [.text f, .text p, b, i] => do
    let b ← b.toExpr?
    let i ← i.toExpr?
    return .letFun f p b i
  | .form .app [f, a] => do
    let f ← f.toExpr?
    let a ← a.toExpr?
    return .app f a
  | .form .assign [.text x, v] => do
    let v ← v.toExpr?
    return .assign x v
  | .form .seq [a, b] => do
    let a ← a.toExpr?
    let b ← b.toExpr?
    return .seq a b
  | .form .display [e] => do
    let e ← e.toExpr?
    return .display e
  | .form .read [] => some .read
  | .form .write [t, .text path] => do
    let t ← t.toExpr?
    return .write t path
  | .form .run [.text path] => some (.run path)
  | _ => none

/-- The expression of a tree. -/
def Expr.ofTree (t : Tree) : BuildM Expr := do
  let d ← Draft.ofTree t
  match d.toExpr? with
  | some e => pure e
  | none => throw .leftover

end TuneLang
