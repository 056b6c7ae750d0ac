import TuneLang.Grammar.Rule
import TuneLang.Grammar.Terminal

/-!
# Levels

The grammar is a ladder of thirteen levels, from the sequence at the bottom to the atom at the top. Each construct has a level of
its own, and asks for a level in each of its parts: a part may be any construct of at least that level.
-/

namespace TuneLang

/-- How tightly a construct holds together. -/
abbrev Level := Nat

/-- A sequence, and any expression whatever. -/
abbrev Level.sequence : Level := 0

/-- A conditional, a shown expression, an assignment. -/
abbrev Level.statement : Level := 1

/-- A disjunction. -/
abbrev Level.disjunction : Level := 2

/-- A conjunction. -/
abbrev Level.conjunction : Level := 3

/-- A logical negation. -/
abbrev Level.negation : Level := 4

/-- A comparison. -/
abbrev Level.comparison : Level := 5

/-- A tune that is written, played, repeated or reversed. -/
abbrev Level.performance : Level := 6

/-- A join of tunes. -/
abbrev Level.join : Level := 7

/-- A sum or difference. -/
abbrev Level.sum : Level := 8

/-- A product or quotient. -/
abbrev Level.product : Level := 9

/-- An arithmetical negation. -/
abbrev Level.minus : Level := 10

/-- A slice. -/
abbrev Level.slice : Level := 11

/-- An atom or an application. -/
abbrev Level.atom : Level := 12

/-- The signs that stand between two operands. -/
inductive Sign where
  | seq | or | and | eq | ne | lt | gt | le | ge | join | add | sub | mul | div
  deriving DecidableEq, Repr

/-- All signs. -/
def Sign.all : List Sign := [.seq, .or, .and, .eq, .ne, .lt, .gt, .le, .ge, .join, .add, .sub, .mul, .div]

/-- The terminal of a sign. -/
def Sign.terminal : Sign → Terminal
  | .seq => .semicolon
  | .or => .or
  | .and => .and
  | .eq => .eq
  | .ne => .ne
  | .lt => .less
  | .gt => .more
  | .le => .le
  | .ge => .ge
  | .join => .bar
  | .add => .plus
  | .sub => .minus
  | .mul => .star
  | .div => .slash

/-- The rule of a sign. -/
def Sign.rule : Sign → Rule
  | .seq => .seq
  | .or => .or
  | .and => .and
  | .eq => .eq
  | .ne => .ne
  | .lt => .lt
  | .gt => .gt
  | .le => .le
  | .ge => .ge
  | .join => .join
  | .add => .add
  | .sub => .sub
  | .mul => .mul
  | .div => .div

/-- The level of what a sign makes of its operands. -/
def Sign.level : Sign → Level
  | .seq => .sequence
  | .or => .disjunction
  | .and => .conjunction
  | .join => .join
  | .add | .sub => .sum
  | .mul | .div => .product
  | _ => .comparison

/-- The level a sign asks for on its left. -/
def Sign.left : Sign → Level
  | .seq => .statement
  | .or => .disjunction
  | .and => .conjunction
  | .join => .sum
  | .add | .sub => .sum
  | .mul | .div => .product
  | _ => .performance

/-- The level a sign asks for on its right. -/
def Sign.right : Sign → Level
  | .seq => .sequence
  | .or => .conjunction
  | .and => .negation
  | .join => .join
  | .add | .sub => .product
  | .mul | .div => .minus
  | _ => .performance

/-- The words and signs that stand in front of one operand. -/
inductive Lead where
  | display | not | neg | reverse
  deriving DecidableEq, Repr

/-- The rule of a leading word. -/
def Lead.rule : Lead → Rule
  | .display => .display
  | .not => .not
  | .neg => .neg
  | .reverse => .reverse

/-- The level of what a leading word makes of its operand. -/
def Lead.level : Lead → Level
  | .display => .statement
  | .not => .negation
  | .neg => .minus
  | .reverse => .performance

/-- The level a leading word asks for. -/
def Lead.operand : Lead → Level
  | .display => .statement
  | .not => .negation
  | .neg => .minus
  | .reverse => .join

end TuneLang
