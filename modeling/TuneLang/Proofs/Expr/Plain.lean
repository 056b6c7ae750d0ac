import TuneLang.Expr.Draft
import TuneLang.Grammar.Parse
import TuneLang.Proofs.Eval.Discipline

/-!
# Plain expressions

An expression is plain when none of its literals holds a function. A source writes integers and truth values only, so every
expression that is read from a source is plain (`Expr.Parsed.plain`), and the functions that its evaluation meets are those that
evaluations have made.
-/

namespace TuneLang

/-- Whether no literal of an expression holds a function. -/
def Expr.Plain : Expr → Prop
  | .lit v => v.isClosure = false
  | .note _ _ | .name _ | .read | .run _ | .stray _ => True
  | .binary _ left right | .logic _ left right => left.Plain ∧ right.Plain
  | .unary _ operand => operand.Plain
  | .slice tune start stop => tune.Plain ∧ start.Plain ∧ stop.Plain
  | .cond test yes no => test.Plain ∧ yes.Plain ∧ no.Plain
  | .letIn _ definition body => definition.Plain ∧ body.Plain
  | .letFun _ _ body scope => body.Plain ∧ scope.Plain
  | .app function argument => function.Plain ∧ argument.Plain
  | .assign _ value => value.Plain
  | .seq first second => first.Plain ∧ second.Plain
  | .display shown => shown.Plain
  | .write tune _ => tune.Plain

/-- Whether the body of a function is plain. -/
def Value.Plain : Value → Prop
  | .closure _ body _ => body.Plain
  | _ => True

/-- An expression that is read from a source. -/
def Expr.Parsed (e : Expr) : Prop :=
  ∃ source tree counts, Tree.parse source = .ok tree ∧ Expr.ofTree tree [] = .ok e counts

/-- The expression that a source is read into, if it is read into one. -/
def Expr.ofSource? (source : String) : Option Expr :=
  match Tree.parse source with
  | .error _ => none
  | .ok tree =>
    match Expr.ofTree tree [] with
    | .ok e _ => some e
    | .error _ _ => none

theorem Expr.parsed_of_ofSource? {source : String} {e : Expr} (h : Expr.ofSource? source = some e) : e.Parsed := by
  unfold Expr.ofSource? at h
  split at h
  · cases h
  · rename_i tree htree
    split at h
    · rename_i e' counts he
      cases h
      exact ⟨source, tree, counts, htree, he⟩
    · cases h

/-- The operands of a plain expression are plain. -/
theorem Expr.Plain.operand {e a : Expr} (h : e.Plain) (ha : a ∈ e.operands) : a.Plain := by
  cases e with
  | lit | note | name | letFun | read | run | stray => simp [Expr.operands] at ha
  | unary | display | write | assign =>
    simp only [Expr.operands, List.mem_singleton] at ha
    exact ha ▸ h
  | letIn =>
    simp only [Expr.operands, List.mem_singleton] at ha
    exact ha ▸ h.1
  | binary | logic | app | seq =>
    simp only [Expr.operands, List.mem_cons, List.not_mem_nil, or_false] at ha
    rcases ha with rfl | rfl
    · exact h.1
    · exact h.2
  | slice | cond =>
    simp only [Expr.operands, List.mem_cons, List.not_mem_nil, or_false] at ha
    rcases ha with rfl | rfl | rfl
    · exact h.1
    · exact h.2.1
    · exact h.2.2

/-- A draft gives a plain expression: its literals are integers and truth values. -/
theorem Draft.plain_of_toExpr? {d : Draft} {e : Expr} (h : d.toExpr? = some e) : e.Plain := by
  fun_induction Draft.toExpr? d generalizing e with
  | case1 | case2 =>
    cases h
    exact rfl
  | case3 | case9 | case16 | case18 =>
    cases h
    exact trivial
  | case4 op l r hl hr | case5 op l r hl hr | case10 x l r hl hr | case11 f p l r hl hr | case12 l r hl hr | case14 l r hl hr =>
    simp only [Option.bind_eq_bind, Option.bind_eq_some_iff, Option.pure_def, Option.some.injEq] at h
    obtain ⟨a, ha, b, hb, rfl⟩ := h
    exact ⟨hl ha, hr hb⟩
  | case6 op d hd | case13 x d hd | case15 d hd | case17 d path hd =>
    simp only [Option.bind_eq_bind, Option.bind_eq_some_iff, Option.pure_def, Option.some.injEq] at h
    obtain ⟨a, ha, rfl⟩ := h
    exact (hd ha : a.Plain)
  | case7 c t e hc ht he | case8 c t e hc ht he =>
    simp only [Option.bind_eq_bind, Option.bind_eq_some_iff, Option.pure_def, Option.some.injEq] at h
    obtain ⟨a, ha, b, hb, c, hc', rfl⟩ := h
    exact ⟨hc ha, ht hb, he hc'⟩
  | case19 => cases h

/-- The expression of a tree is that of the tree's draft. -/
theorem Expr.exists_draft {t : Tree} {counts counts' : List Nat} {e : Expr} (h : Expr.ofTree t counts = .ok e counts') :
    ∃ d, Draft.ofTree t counts = .ok d counts' ∧ d.toExpr? = some e := by
  simp only [Expr.ofTree, bind, EStateM.bind] at h
  split at h
  · rename_i d _ hdraft
    cases he : d.toExpr? with
    | none =>
      rw [he] at h
      cases h
    | some e' =>
      rw [he] at h
      cases h
      exact ⟨d, hdraft, he⟩
  · cases h

/-- An expression that is read from a source is plain. -/
theorem Expr.Parsed.plain {e : Expr} (h : e.Parsed) : e.Plain := by
  obtain ⟨source, tree, counts, _, hbuild⟩ := h
  obtain ⟨d, _, hd⟩ := Expr.exists_draft hbuild
  exact Draft.plain_of_toExpr? hd

end TuneLang
