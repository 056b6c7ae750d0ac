import TuneLang.Grammar.Tree
import TuneLang.Grammar.Terminal

/-!
# Derivations

The grammar of the language as a list of productions, apart from how a source is read. Each production belongs to a category and
consists of phrases and words; those that are given a rule make a node of the tree, and the others hand on the tree of the one phrase
in them. A derivation applies productions to one another down to words, and so has a word for each of its leaves and a tree, in
which only the words with a text of their own are left.
-/

namespace TuneLang

/-- The categories of phrases. -/
inductive Category where
  | start | expression | sequence | statement | disjunction | conjunction | negation | comparison | performance | join | sum | product
  | minus | slice | atom
  deriving DecidableEq, Repr

/-- What a production consists of: phrases of a category, and words. -/
inductive Symbol where
  | phrase (c : Category)
  | word (t : Terminal)
  deriving DecidableEq, Repr

/-- A production with its category, its parts, and the rule of the node that it makes, if it makes one. -/
structure Production where
  head : Category
  body : List Symbol
  rule : Option Rule
  deriving DecidableEq, Repr

/-- The productions of the grammar. -/
def Grammar.productions : List Production :=
  [⟨.start, [.phrase .expression], none⟩,
    ⟨.expression, [.phrase .sequence], none⟩,
    ⟨.sequence, [.phrase .statement, .word .semicolon, .phrase .sequence], some .seq⟩,
    ⟨.sequence, [.phrase .statement], none⟩,
    ⟨.statement, [.word .ifWord, .phrase .expression, .word .thenWord, .phrase .expression, .word .elseWord, .phrase .statement],
      some .cond⟩,
    ⟨.statement, [.word .showWord, .phrase .statement], some .display⟩,
    ⟨.statement, [.word .name, .word .assign, .phrase .statement], some .assign⟩,
    ⟨.statement, [.phrase .disjunction], none⟩,
    ⟨.disjunction, [.phrase .disjunction, .word .or, .phrase .conjunction], some .or⟩,
    ⟨.disjunction, [.phrase .conjunction], none⟩,
    ⟨.conjunction, [.phrase .conjunction, .word .and, .phrase .negation], some .and⟩,
    ⟨.conjunction, [.phrase .negation], none⟩,
    ⟨.negation, [.word .bang, .phrase .negation], some .not⟩,
    ⟨.negation, [.phrase .comparison], none⟩,
    ⟨.comparison, [.phrase .performance, .word .eq, .phrase .performance], some .eq⟩,
    ⟨.comparison, [.phrase .performance, .word .ne, .phrase .performance], some .ne⟩,
    ⟨.comparison, [.phrase .performance, .word .less, .phrase .performance], some .lt⟩,
    ⟨.comparison, [.phrase .performance, .word .more, .phrase .performance], some .gt⟩,
    ⟨.comparison, [.phrase .performance, .word .le, .phrase .performance], some .le⟩,
    ⟨.comparison, [.phrase .performance, .word .ge, .phrase .performance], some .ge⟩,
    ⟨.comparison, [.phrase .performance], none⟩,
    ⟨.performance, [.word .writeWord, .phrase .join, .word .colon, .word .path], some .write⟩,
    ⟨.performance, [.word .runWord, .word .path], some .run⟩,
    ⟨.performance, [.word .repeatWord, .phrase .join, .word .colon, .phrase .join], some .times⟩,
    ⟨.performance, [.word .reverseWord, .phrase .join], some .reverse⟩,
    ⟨.performance, [.phrase .join], none⟩,
    ⟨.join, [.phrase .sum, .word .bar, .phrase .join], some .join⟩,
    ⟨.join, [.phrase .sum], none⟩,
    ⟨.sum, [.phrase .sum, .word .plus, .phrase .product], some .add⟩,
    ⟨.sum, [.phrase .sum, .word .minus, .phrase .product], some .sub⟩,
    ⟨.sum, [.phrase .product], none⟩,
    ⟨.product, [.phrase .product, .word .star, .phrase .minus], some .mul⟩,
    ⟨.product, [.phrase .product, .word .slash, .phrase .minus], some .div⟩,
    ⟨.product, [.phrase .minus], none⟩,
    ⟨.minus, [.word .minus, .phrase .minus], some .neg⟩,
    ⟨.minus, [.phrase .slice], none⟩,
    ⟨.slice, [.phrase .slice, .word .lsqb, .phrase .expression, .word .colon, .phrase .expression, .word .rsqb], some .slice⟩,
    ⟨.slice, [.phrase .atom], none⟩,
    ⟨.atom, [.word .int], some .int⟩,
    ⟨.atom, [.word .name], some .name⟩,
    ⟨.atom, [.word .lpar, .word .name, .word .comma, .word .int, .word .rpar], some .note⟩,
    ⟨.atom, [.word .lpar, .phrase .expression, .word .rpar], none⟩,
    ⟨.atom, [.word .letWord, .word .name, .word .equal, .phrase .expression, .word .inWord, .phrase .expression, .word .endWord],
      some .letIn⟩,
    ⟨.atom, [.word .letfunWord, .word .name, .word .lpar, .word .name, .word .rpar, .word .equal, .phrase .expression,
      .word .inWord, .phrase .expression, .word .endWord], some .letFun⟩,
    ⟨.atom, [.phrase .atom, .word .lpar, .phrase .expression, .word .rpar], some .app⟩]

/-- Whether the tokens of a terminal have texts of their own, and are kept in a tree. -/
def Terminal.isClass : Terminal → Bool
  | .name | .int | .path => true
  | _ => false

/-- A leaf for each word, or a production applied to derivations of its parts. -/
inductive Derivation (α : Type) where
  | leaf (a : α)
  | node (p : Production) (parts : List (Derivation α))

namespace Derivation

variable {α β : Type}

mutual

/-- Whether a derivation is one of a symbol. `kind` gives the terminal of a leaf. -/
def Of (kind : α → Terminal) : Derivation α → Symbol → Prop
  | .leaf a, s => s = .word (kind a)
  | .node p parts, s => p ∈ Grammar.productions ∧ s = .phrase p.head ∧ AllOf kind parts p.body

/-- Whether derivations are those of symbols, one by one. -/
def AllOf (kind : α → Terminal) : List (Derivation α) → List Symbol → Prop
  | [], [] => True
  | d :: ds, s :: symbols => d.Of kind s ∧ AllOf kind ds symbols
  | _, _ => False

end

mutual

/-- The leaves of a derivation from left to right. -/
def leaves : Derivation α → List α
  | .leaf a => [a]
  | .node _ parts => allLeaves parts

/-- The leaves of derivations, one after another. -/
def allLeaves : List (Derivation α) → List α
  | [] => []
  | d :: ds => d.leaves ++ allLeaves ds

end

mutual

/-- The trees that a derivation adds to the node around it: one for a token that is kept, one for a production with a rule. -/
def trees : Derivation Token → List Tree
  | .leaf t => if t.terminal.isClass then [.leaf t.terminal.label t.text] else []
  | .node p parts =>
    match p.rule with
    | some rule => [.node rule (allTrees parts)]
    | none => allTrees parts

/-- The trees of derivations, one after another. -/
def allTrees : List (Derivation Token) → List Tree
  | [] => []
  | d :: ds => d.trees ++ allTrees ds

end

mutual

/-- The derivation with other leaves. -/
def map (f : α → β) : Derivation α → Derivation β
  | .leaf a => .leaf (f a)
  | .node p parts => .node p (mapAll f parts)

/-- Derivations with other leaves. -/
def mapAll (f : α → β) : List (Derivation α) → List (Derivation β)
  | [] => []
  | d :: ds => d.map f :: mapAll f ds

end

/-- What holds of leaves, and of a production when it holds of its parts, holds of all derivations. -/
theorem induction {P : Derivation α → Prop} (hleaf : ∀ a, P (.leaf a))
    (hnode : ∀ p parts, (∀ d ∈ parts, P d) → P (.node p parts)) : ∀ d, P d
  | .leaf a => hleaf a
  | .node p parts => hnode p parts (fun d _ => induction hleaf hnode d)

section Shapes

variable {kind : α → Terminal}

/-- A derivation of a word is a leaf. -/
theorem of_word {d : Derivation α} {t : Terminal} : d.Of kind (.word t) ↔ ∃ a, d = .leaf a ∧ kind a = t := by
  cases d with
  | leaf a => simp [Of, eq_comm]
  | node p parts => simp [Of]

theorem allOf_nil {parts : List (Derivation α)} : AllOf kind parts [] ↔ parts = [] := by
  cases parts <;> simp [AllOf]

theorem allOf_cons {parts : List (Derivation α)} {s : Symbol} {symbols : List Symbol} :
    AllOf kind parts (s :: symbols) ↔ ∃ d ds, parts = d :: ds ∧ d.Of kind s ∧ AllOf kind ds symbols := by
  cases parts with
  | nil => simp [AllOf]
  | cons d ds =>
    simp only [AllOf]
    constructor
    · intro h
      exact ⟨d, ds, rfl, h⟩
    · rintro ⟨_, _, ⟨⟩, h⟩
      exact h

end Shapes

theorem mem_leaves_node {p : Production} {parts : List (Derivation α)} {a : α} :
    a ∈ (Derivation.node p parts).leaves ↔ ∃ d ∈ parts, a ∈ d.leaves := by
  rw [leaves]
  induction parts with
  | nil => simp [allLeaves]
  | cons d ds ih => simp [allLeaves, ih]

end Derivation

end TuneLang
