import TuneLang.Grammar.Rule
import TuneLang.Text.Quoted

/-!
# Trees

The tree of a source: a node for each rule of the grammar that was applied, and a leaf for each name, integer or path. A tree is
shown in two ways, on one line (`Tree.inspect`) and as an indented outline (`Tree.outline`).
-/

namespace TuneLang

/-- A leaf with the label of its terminal and its text, or a node with its rule. -/
inductive Tree where
  | leaf (label text : String)
  | node (rule : Rule) (children : List Tree)
  deriving Repr, Inhabited

mutual

/-- Whether two trees are the same. -/
def Tree.decEq : (t u : Tree) → Decidable (t = u)
  | .leaf l s, .leaf l' s' =>
    if h : l = l' ∧ s = s' then isTrue (by rw [h.1, h.2])
    else isFalse (by
      intro e
      cases e
      exact h ⟨rfl, rfl⟩)
  | .node r ts, .node r' ts' =>
    if h : r = r' then
      match Tree.decEqAll ts ts' with
      | isTrue h' => isTrue (by rw [h, h'])
      | isFalse h' => isFalse (by
        intro e
        cases e
        exact h' rfl)
    else isFalse (by
      intro e
      cases e
      exact h rfl)
  | .leaf _ _, .node _ _ => isFalse (by intro e; cases e)
  | .node _ _, .leaf _ _ => isFalse (by intro e; cases e)

/-- Whether two lists of trees are the same. -/
def Tree.decEqAll : (ts us : List Tree) → Decidable (ts = us)
  | [], [] => isTrue rfl
  | t :: ts, u :: us =>
    match Tree.decEq t u, Tree.decEqAll ts us with
    | isTrue h, isTrue h' => isTrue (by rw [h, h'])
    | isFalse h, _ => isFalse (by
      intro e
      cases e
      exact h rfl)
    | _, isFalse h' => isFalse (by
      intro e
      cases e
      exact h' rfl)
  | [], _ :: _ => isFalse (by intro e; cases e)
  | _ :: _, [] => isFalse (by intro e; cases e)

end

instance : DecidableEq Tree := Tree.decEq

/-- A leaf on one line. -/
def Tree.inspectLeaf (label text : String) : String := "Token(" ++ Text.quoted label ++ ", " ++ Text.quoted text ++ ")"

mutual

/-- A tree on one line. -/
def Tree.inspect : Tree → String
  | .leaf label text => Tree.inspectLeaf label text
  | .node rule children => "Tree(" ++ Text.quoted rule.label ++ ", [" ++ String.intercalate ", " (Tree.inspectAll children) ++ "])"

/-- Trees on one line each. -/
def Tree.inspectAll : List Tree → List String
  | [] => []
  | t :: ts => t.inspect :: Tree.inspectAll ts

end

/-- The indentation of a level. -/
def Tree.indent (level : Nat) : String := String.ofList (List.replicate (2 * level) ' ')

mutual

/-- The lines of a tree's outline: one for each node and leaf, where a leaf that is an only child stands on the line of its node,
behind a tab. -/
def Tree.lines (level : Nat) : Tree → List String
  | .leaf _ text => [Tree.indent level ++ text]
  | .node rule [.leaf _ text] => [Tree.indent level ++ rule.label ++ "\t" ++ text]
  | .node rule children => (Tree.indent level ++ rule.label) :: Tree.linesAll (level + 1) children

/-- The lines of the outlines of trees, one after another. -/
def Tree.linesAll (level : Nat) : List Tree → List String
  | [] => []
  | t :: ts => t.lines level ++ Tree.linesAll level ts

end

/-- A tree as an outline. -/
def Tree.outline (t : Tree) : String := String.join ((t.lines 0).map (fun line => line ++ "\n"))

end TuneLang
