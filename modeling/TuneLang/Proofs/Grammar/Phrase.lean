import TuneLang.Grammar.Frame
import TuneLang.Proofs.Grammar.Derivation

/-!
# Phrases

A phrase is an expression as it is written, parentheses included. It fits when each of its parts has the level that is asked for
there. Phrases that fit are derivations without the productions that only lead from one category to the next: each derivation is
that of one phrase (`Derivation.exists_phrase`), and a phrase that fits has a derivation with the same tokens and the same tree, in
every category that is no tighter than the phrase (`Phrase.of_derivation`).
-/

namespace TuneLang

/-- The token of a terminal with one text. -/
def Terminal.token (t : Terminal) : Token := ⟨t, t.fixedText⟩

/-- The terminal of a leading word. -/
def Lead.terminal : Lead → Terminal
  | .display => .showWord
  | .not => .bang
  | .neg => .minus
  | .reverse => .reverseWord

theorem Sign.level_le (s : Sign) : s.level ≤ .atom := by cases s <;> decide

theorem Sign.left_le (s : Sign) : s.left ≤ .atom := by cases s <;> decide

theorem Sign.right_le (s : Sign) : s.right ≤ .atom := by cases s <;> decide

theorem Lead.operand_le (l : Lead) : l.operand ≤ .atom := by cases l <;> decide

theorem Lead.level_le (l : Lead) : l.level ≤ .atom := by cases l <;> decide

@[simp] theorem Sign.isClass_terminal (s : Sign) : s.terminal.isClass = false := by cases s <;> rfl

@[simp] theorem Lead.isClass_terminal (l : Lead) : l.terminal.isClass = false := by cases l <;> rfl

/-- An expression as it is written. -/
inductive Phrase where
  | int (digits : String)
  | name (x : String)
  | note (x digits : String)
  | group (e : Phrase)
  | letIn (x : String) (definition body : Phrase)
  | letFun (f param : String) (body scope : Phrase)
  | app (function argument : Phrase)
  | slice (tune start stop : Phrase)
  | lead (l : Lead) (operand : Phrase)
  | sign (s : Sign) (left right : Phrase)
  | times (count tune : Phrase)
  | write (tune : Phrase) (path : String)
  | run (path : String)
  | assign (x : String) (value : Phrase)
  | cond (test yes no : Phrase)
  deriving DecidableEq, Repr

namespace Phrase

/-- How tightly a phrase holds together. -/
def level : Phrase → Level
  | .cond _ _ _ | .assign _ _ => .statement
  | .times _ _ | .write _ _ | .run _ => .performance
  | .slice _ _ _ => .slice
  | .sign s _ _ => s.level
  | .lead l _ => l.level
  | .int _ | .name _ | .note _ _ | .group _ | .letIn _ _ _ | .letFun _ _ _ _ | .app _ _ => .atom

/-- The tokens of a phrase. -/
def tokens : Phrase → List Token
  | .int digits => [⟨.int, digits⟩]
  | .name x => [⟨.name, x⟩]
  | .note x digits => [Terminal.lpar.token, ⟨.name, x⟩, Terminal.comma.token, ⟨.int, digits⟩, Terminal.rpar.token]
  | .group e => Terminal.lpar.token :: (e.tokens ++ [Terminal.rpar.token])
  | .letIn x d b =>
    Terminal.letWord.token :: ⟨.name, x⟩ :: Terminal.equal.token ::
      (d.tokens ++ Terminal.inWord.token :: (b.tokens ++ [Terminal.endWord.token]))
  | .letFun f p b i =>
    Terminal.letfunWord.token :: ⟨.name, f⟩ :: Terminal.lpar.token :: ⟨.name, p⟩ :: Terminal.rpar.token :: Terminal.equal.token ::
      (b.tokens ++ Terminal.inWord.token :: (i.tokens ++ [Terminal.endWord.token]))
  | .app f a => f.tokens ++ Terminal.lpar.token :: (a.tokens ++ [Terminal.rpar.token])
  | .slice t i j =>
    t.tokens ++ Terminal.lsqb.token :: (i.tokens ++ Terminal.colon.token :: (j.tokens ++ [Terminal.rsqb.token]))
  | .lead l e => l.terminal.token :: e.tokens
  | .sign s l r => l.tokens ++ s.terminal.token :: r.tokens
  | .times c t => Terminal.repeatWord.token :: (c.tokens ++ Terminal.colon.token :: t.tokens)
  | .write t path => Terminal.writeWord.token :: (t.tokens ++ [Terminal.colon.token, ⟨.path, path⟩])
  | .run path => [Terminal.runWord.token, ⟨.path, path⟩]
  | .assign x e => ⟨.name, x⟩ :: Terminal.assign.token :: e.tokens
  | .cond c t e =>
    Terminal.ifWord.token :: (c.tokens ++ Terminal.thenWord.token :: (t.tokens ++ Terminal.elseWord.token :: e.tokens))

/-- The tree of a phrase. Parentheses leave no trace in it. -/
def tree : Phrase → Tree
  | .int digits => .node .int [Tree.intLeaf digits]
  | .name x => Tree.ofName x
  | .note x digits => .node .note [Tree.nameLeaf x, Tree.intLeaf digits]
  | .group e => e.tree
  | .letIn x d b => .node .letIn [Tree.nameLeaf x, d.tree, b.tree]
  | .letFun f p b i => .node .letFun [Tree.nameLeaf f, Tree.nameLeaf p, b.tree, i.tree]
  | .app f a => .node .app [f.tree, a.tree]
  | .slice t i j => .node .slice [t.tree, i.tree, j.tree]
  | .lead l e => .node l.rule [e.tree]
  | .sign s l r => .node s.rule [l.tree, r.tree]
  | .times c t => .node .times [c.tree, t.tree]
  | .write t path => .node .write [t.tree, Tree.pathLeaf path]
  | .run path => .node .run [Tree.pathLeaf path]
  | .assign x e => .node .assign [Tree.nameLeaf x, e.tree]
  | .cond c t e => .node .cond [c.tree, t.tree, e.tree]

/-- Whether each part of a phrase has the level that is asked for there. Between words and brackets, any level will do. -/
def Fits : Phrase → Prop
  | .int _ | .name _ | .note _ _ | .run _ => True
  | .group e => e.Fits
  | .letIn _ d b => d.Fits ∧ b.Fits
  | .letFun _ _ b i => b.Fits ∧ i.Fits
  | .app f a => f.Fits ∧ .atom ≤ f.level ∧ a.Fits
  | .slice t i j => t.Fits ∧ .slice ≤ t.level ∧ i.Fits ∧ j.Fits
  | .lead l e => e.Fits ∧ l.operand ≤ e.level
  | .sign s l r => l.Fits ∧ s.left ≤ l.level ∧ r.Fits ∧ s.right ≤ r.level
  | .times c t => c.Fits ∧ .join ≤ c.level ∧ t.Fits ∧ .join ≤ t.level
  | .write t _ => t.Fits ∧ .join ≤ t.level
  | .assign _ e => e.Fits ∧ .statement ≤ e.level
  | .cond c t e => c.Fits ∧ t.Fits ∧ e.Fits ∧ .statement ≤ e.level

/-- No level is tighter than an atom's. -/
theorem level_le (p : Phrase) : p.level ≤ .atom := by
  cases p with
  | sign s => exact s.level_le
  | lead l => exact l.level_le
  | _ => exact Nat.le_of_ble_eq_true rfl

end Phrase

/-! ## From category to category -/

/-- The category of the phrases of a level. -/
def Category.ofLevel : Level → Category
  | 0 => .sequence
  | 1 => .statement
  | 2 => .disjunction
  | 3 => .conjunction
  | 4 => .negation
  | 5 => .comparison
  | 6 => .performance
  | 7 => .join
  | 8 => .sum
  | 9 => .product
  | 10 => .minus
  | 11 => .slice
  | _ => .atom

/-- The production that leads from the category of a level to the next tighter one. -/
def Production.descent (q : Level) : Production := ⟨.ofLevel q, [.phrase (.ofLevel (q + 1))], none⟩

/-- The production of an expression, which is any sequence. -/
def Production.expression : Production := ⟨.expression, [.phrase .sequence], none⟩

/-- The production that a derivation starts from. -/
def Production.start : Production := ⟨.start, [.phrase .expression], none⟩

/-- The production of a sign. -/
def Sign.production (s : Sign) : Production :=
  ⟨.ofLevel s.level, [.phrase (.ofLevel s.left), .word s.terminal, .phrase (.ofLevel s.right)], some s.rule⟩

/-- The production of a leading word. -/
def Lead.production (l : Lead) : Production :=
  ⟨.ofLevel l.level, [.word l.terminal, .phrase (.ofLevel l.operand)], some l.rule⟩

/-- The production of a phrase. -/
def Phrase.production : Phrase → Production
  | .int _ => ⟨.atom, [.word .int], some .int⟩
  | .name _ => ⟨.atom, [.word .name], some .name⟩
  | .note _ _ => ⟨.atom, [.word .lpar, .word .name, .word .comma, .word .int, .word .rpar], some .note⟩
  | .group _ => ⟨.atom, [.word .lpar, .phrase .expression, .word .rpar], none⟩
  | .letIn _ _ _ =>
    ⟨.atom, [.word .letWord, .word .name, .word .equal, .phrase .expression, .word .inWord, .phrase .expression, .word .endWord],
      some .letIn⟩
  | .letFun _ _ _ _ =>
    ⟨.atom, [.word .letfunWord, .word .name, .word .lpar, .word .name, .word .rpar, .word .equal, .phrase .expression,
      .word .inWord, .phrase .expression, .word .endWord], some .letFun⟩
  | .app _ _ => ⟨.atom, [.phrase .atom, .word .lpar, .phrase .expression, .word .rpar], some .app⟩
  | .slice _ _ _ =>
    ⟨.slice, [.phrase .slice, .word .lsqb, .phrase .expression, .word .colon, .phrase .expression, .word .rsqb], some .slice⟩
  | .lead l _ => l.production
  | .sign s _ _ => s.production
  | .times _ _ => ⟨.performance, [.word .repeatWord, .phrase .join, .word .colon, .phrase .join], some .times⟩
  | .write _ _ => ⟨.performance, [.word .writeWord, .phrase .join, .word .colon, .word .path], some .write⟩
  | .run _ => ⟨.performance, [.word .runWord, .word .path], some .run⟩
  | .assign _ _ => ⟨.statement, [.word .name, .word .assign, .phrase .statement], some .assign⟩
  | .cond _ _ _ =>
    ⟨.statement, [.word .ifWord, .phrase .expression, .word .thenWord, .phrase .expression, .word .elseWord, .phrase .statement],
      some .cond⟩

/-- The productions that lead from category to category belong to the grammar. -/
theorem Production.descent_mem : ∀ q : Nat, q < 12 → Production.descent q ∈ Grammar.productions := by decide

theorem Production.start_mem : Production.start ∈ Grammar.productions := by decide

theorem Production.expression_mem : Production.expression ∈ Grammar.productions := by decide

theorem Sign.production_mem (s : Sign) : s.production ∈ Grammar.productions := by cases s <;> decide

theorem Lead.production_mem (l : Lead) : l.production ∈ Grammar.productions := by cases l <;> decide

/-- The production of a phrase belongs to the grammar. -/
theorem Phrase.production_mem (p : Phrase) : p.production ∈ Grammar.productions := by
  cases p with
  | sign s => exact s.production_mem
  | lead l => exact l.production_mem
  | _ => simp [Phrase.production, Grammar.productions]

namespace Derivation

variable {α : Type}

/-- A derivation in the category of a level that is looser by `k`. -/
def descend (q : Level) : Nat → Derivation α → Derivation α
  | 0, d => d
  | k + 1, d => .node (.descent q) [descend (q + 1) k d]

/-- A derivation in the category of the level `level`, as one in the category of the level `q`. -/
def lower (q level : Level) (d : Derivation α) : Derivation α := descend q (level - q) d

/-- A derivation in the category of a level, as one of an expression. -/
def whole (level : Level) (d : Derivation α) : Derivation α := .node .expression [lower .sequence level d]

end Derivation

/-- The leaf of a token. -/
abbrev Terminal.leaf (t : Terminal) : Derivation Token := .leaf t.token

/-- The derivation of a phrase in the category of its own level. -/
def Phrase.derivation (p : Phrase) : Derivation Token :=
  match p with
  | .int digits => .node p.production [.leaf ⟨.int, digits⟩]
  | .name x => .node p.production [.leaf ⟨.name, x⟩]
  | .note x digits =>
    .node p.production [Terminal.lpar.leaf, .leaf ⟨.name, x⟩, Terminal.comma.leaf, .leaf ⟨.int, digits⟩, Terminal.rpar.leaf]
  | .group e => .node p.production [Terminal.lpar.leaf, e.derivation.whole e.level, Terminal.rpar.leaf]
  | .letIn x d b =>
    .node p.production [Terminal.letWord.leaf, .leaf ⟨.name, x⟩, Terminal.equal.leaf, d.derivation.whole d.level,
      Terminal.inWord.leaf, b.derivation.whole b.level, Terminal.endWord.leaf]
  | .letFun f x b i =>
    .node p.production [Terminal.letfunWord.leaf, .leaf ⟨.name, f⟩, Terminal.lpar.leaf, .leaf ⟨.name, x⟩, Terminal.rpar.leaf,
      Terminal.equal.leaf, b.derivation.whole b.level, Terminal.inWord.leaf, i.derivation.whole i.level, Terminal.endWord.leaf]
  | .app f a =>
    .node p.production [f.derivation.lower .atom f.level, Terminal.lpar.leaf, a.derivation.whole a.level, Terminal.rpar.leaf]
  | .slice t i j =>
    .node p.production [t.derivation.lower .slice t.level, Terminal.lsqb.leaf, i.derivation.whole i.level, Terminal.colon.leaf,
      j.derivation.whole j.level, Terminal.rsqb.leaf]
  | .lead l e => .node p.production [l.terminal.leaf, e.derivation.lower l.operand e.level]
  | .sign s l r =>
    .node p.production [l.derivation.lower s.left l.level, s.terminal.leaf, r.derivation.lower s.right r.level]
  | .times c t =>
    .node p.production [Terminal.repeatWord.leaf, c.derivation.lower .join c.level, Terminal.colon.leaf,
      t.derivation.lower .join t.level]
  | .write t path =>
    .node p.production [Terminal.writeWord.leaf, t.derivation.lower .join t.level, Terminal.colon.leaf, .leaf ⟨.path, path⟩]
  | .run path => .node p.production [Terminal.runWord.leaf, .leaf ⟨.path, path⟩]
  | .assign x e => .node p.production [.leaf ⟨.name, x⟩, Terminal.assign.leaf, e.derivation.lower .statement e.level]
  | .cond c t e =>
    .node p.production [Terminal.ifWord.leaf, c.derivation.whole c.level, Terminal.thenWord.leaf, t.derivation.whole t.level,
      Terminal.elseWord.leaf, e.derivation.lower .statement e.level]

/-- The derivation of a phrase from the start. -/
def Phrase.parse (p : Phrase) : Derivation Token := .node .start [p.derivation.whole p.level]

/-! ### Leaves, trees and categories -/

namespace Derivation

variable {α : Type}

@[simp] theorem leaves_leaf (a : α) : (Derivation.leaf a).leaves = [a] := by simp [leaves]

@[simp] theorem leaves_lower (q level : Level) (d : Derivation α) : (d.lower q level).leaves = d.leaves := by
  unfold lower
  induction level - q generalizing q with
  | zero => rfl
  | succ k ih => simp [descend, leaves, allLeaves, ih]

@[simp] theorem leaves_whole (level : Level) (d : Derivation α) : (d.whole level).leaves = d.leaves := by
  simp [whole, leaves, allLeaves]

@[simp] theorem trees_lower (q level : Level) (d : Derivation Token) : (d.lower q level).trees = d.trees := by
  unfold lower
  induction level - q generalizing q with
  | zero => rfl
  | succ k ih => simp [descend, trees, allTrees, ih, Production.descent]

@[simp] theorem trees_whole (level : Level) (d : Derivation Token) : (d.whole level).trees = d.trees := by
  simp [whole, trees, allTrees, Production.expression]

end Derivation

/-- A phrase has the tokens of its derivation. -/
@[simp] theorem Phrase.leaves_derivation (p : Phrase) : p.derivation.leaves = p.tokens := by
  induction p <;> simp_all [Phrase.derivation, Phrase.tokens, Derivation.leaves, Derivation.allLeaves]

/-- A phrase has the tree of its derivation. -/
@[simp] theorem Phrase.trees_derivation (p : Phrase) : p.derivation.trees = [p.tree] := by
  induction p with
  | sign s l r hl hr =>
    simp [Phrase.derivation, Phrase.production, Sign.production, Derivation.trees, Derivation.allTrees, Terminal.token, hl, hr,
      Phrase.tree]
  | lead l e he =>
    simp [Phrase.derivation, Phrase.production, Lead.production, Derivation.trees, Derivation.allTrees, Terminal.token, he,
      Phrase.tree]
  | _ =>
    simp_all [Phrase.derivation, Phrase.production, Derivation.trees, Derivation.allTrees, Terminal.token, Terminal.isClass,
      Phrase.tree, Tree.ofName, Tree.nameLeaf, Tree.intLeaf, Tree.pathLeaf]

section Categories

variable {α : Type} {kind : α → Terminal}

/-- A derivation in the category of a level is one in that of every looser level. -/
theorem Derivation.of_lower {q level : Nat} {d : Derivation α} (hq : q ≤ level) (hlevel : level ≤ 12)
    (hd : d.Of kind (.phrase (.ofLevel level))) : (d.lower q level).Of kind (.phrase (.ofLevel q)) := by
  obtain ⟨k, rfl⟩ := Nat.exists_eq_add_of_le hq
  rw [Derivation.lower, Nat.add_sub_cancel_left]
  induction k generalizing q with
  | zero => exact hd
  | succ k ih =>
    have hk : q + 1 + k = q + (k + 1) := by omega
    have hpart := ih (q := q + 1) (by omega) (by omega) (hk ▸ hd)
    rw [Derivation.descend, Derivation.Of]
    refine ⟨Production.descent_mem q (by omega), rfl, ?_⟩
    exact Derivation.allOf_cons.mpr ⟨_, _, rfl, hpart, Derivation.allOf_nil.mpr rfl⟩

/-- A derivation in the category of a level is one of an expression. -/
theorem Derivation.of_whole {level : Nat} {d : Derivation α} (hlevel : level ≤ 12)
    (hd : d.Of kind (.phrase (.ofLevel level))) : (d.whole level).Of kind (.phrase .expression) := by
  rw [Derivation.whole, Derivation.Of]
  refine ⟨Production.expression_mem, rfl, ?_⟩
  exact Derivation.allOf_cons.mpr ⟨_, _, rfl, Derivation.of_lower (Nat.zero_le _) hlevel hd, Derivation.allOf_nil.mpr rfl⟩

end Categories

/-- A phrase that fits has a derivation in the category of its level. -/
theorem Phrase.of_derivation {p : Phrase} (h : p.Fits) : p.derivation.Of Token.terminal (.phrase (.ofLevel p.level)) := by
  have lowered : ∀ {e : Phrase} {q : Level}, q ≤ e.level → e.derivation.Of Token.terminal (.phrase (.ofLevel e.level)) →
      (e.derivation.lower q e.level).Of Token.terminal (.phrase (.ofLevel q)) :=
    fun hq he => Derivation.of_lower hq (Phrase.level_le _) he
  have whole : ∀ {e : Phrase}, e.derivation.Of Token.terminal (.phrase (.ofLevel e.level)) →
      (e.derivation.whole e.level).Of Token.terminal (.phrase .expression) :=
    fun he => Derivation.of_whole (Phrase.level_le _) he
  induction p with
  | int digits => exact ⟨Phrase.production_mem (.int digits), rfl, rfl, trivial⟩
  | name x => exact ⟨Phrase.production_mem (.name x), rfl, rfl, trivial⟩
  | note x digits => exact ⟨Phrase.production_mem (.note x digits), rfl, rfl, rfl, rfl, rfl, rfl, trivial⟩
  | group e he => exact ⟨Phrase.production_mem (.group e), rfl, rfl, whole (he h), rfl, trivial⟩
  | letIn x d b hd hb =>
    exact ⟨Phrase.production_mem (.letIn x d b), rfl, rfl, rfl, rfl, whole (hd h.1), rfl, whole (hb h.2), rfl, trivial⟩
  | letFun f x b i hb hi =>
    exact ⟨Phrase.production_mem (.letFun f x b i), rfl, rfl, rfl, rfl, rfl, rfl, rfl, whole (hb h.1), rfl, whole (hi h.2), rfl,
      trivial⟩
  | app f a hf ha =>
    obtain ⟨hf', hlevel, ha'⟩ := h
    exact ⟨Phrase.production_mem (.app f a), rfl, lowered hlevel (hf hf'), rfl, whole (ha ha'), rfl, trivial⟩
  | slice t i j ht hi hj =>
    obtain ⟨ht', hlevel, hi', hj'⟩ := h
    exact ⟨Phrase.production_mem (.slice t i j), rfl, lowered hlevel (ht ht'), rfl, whole (hi hi'), rfl, whole (hj hj'), rfl,
      trivial⟩
  | lead l e he =>
    obtain ⟨he', hlevel⟩ := h
    exact ⟨l.production_mem, rfl, rfl, lowered hlevel (he he'), trivial⟩
  | sign s l r hl hr =>
    obtain ⟨hl', hleft, hr', hright⟩ := h
    exact ⟨s.production_mem, rfl, lowered hleft (hl hl'), rfl, lowered hright (hr hr'), trivial⟩
  | times c t hc ht =>
    obtain ⟨hc', hcount, ht', htune⟩ := h
    exact ⟨Phrase.production_mem (.times c t), rfl, rfl, lowered hcount (hc hc'), rfl, lowered htune (ht ht'), trivial⟩
  | write t path ht =>
    obtain ⟨ht', hlevel⟩ := h
    exact ⟨Phrase.production_mem (.write t path), rfl, rfl, lowered hlevel (ht ht'), rfl, rfl, trivial⟩
  | run path => exact ⟨Phrase.production_mem (.run path), rfl, rfl, rfl, trivial⟩
  | assign x e he =>
    obtain ⟨he', hlevel⟩ := h
    exact ⟨Phrase.production_mem (.assign x e), rfl, rfl, rfl, lowered hlevel (he he'), trivial⟩
  | cond c t e hc ht he =>
    obtain ⟨hc', ht', he', hlevel⟩ := h
    exact ⟨Phrase.production_mem (.cond c t e), rfl, rfl, whole (hc hc'), rfl, whole (ht ht'), rfl, lowered hlevel (he he'),
      trivial⟩

/-- A phrase that fits is derived from the start. -/
theorem Phrase.of_parse {p : Phrase} (h : p.Fits) : p.parse.Of Token.terminal (.phrase .start) :=
  ⟨Production.start_mem, rfl, Derivation.of_whole p.level_le (Phrase.of_derivation h), trivial⟩

theorem Phrase.leaves_parse (p : Phrase) : p.parse.leaves = p.tokens := by
  simp [Phrase.parse, Derivation.leaves, Derivation.allLeaves]

theorem Phrase.trees_parse (p : Phrase) : p.parse.trees = [p.tree] := by
  simp [Phrase.parse, Derivation.trees, Derivation.allTrees, Production.start]

/-! ### The phrase of a derivation -/

/-- Whether a token of a terminal with one text has that text. -/
def Token.Settled (t : Token) : Prop := t.terminal.isClass = false → t = t.terminal.token

/-- The productions by the constructs that they belong to. The parts of the phrases do not matter here. -/
def Grammar.families (e : Phrase) : List Production :=
  .start :: .expression :: (List.range 12).map Production.descent ++ Sign.all.map Sign.production ++
    [Lead.display, .not, .neg, .reverse].map Lead.production ++
    [.int "", .name "", .note "" "", .group e, .letIn "" e e, .letFun "" "" e e, .app e e, .slice e e e, .times e e, .write e "", .run "",
      .assign "" e, .cond e e e].map Phrase.production

/-- Every production belongs to one of the families. -/
theorem Grammar.mem_families : ∀ p ∈ Grammar.productions, p ∈ Grammar.families (.int "") := by decide

/-- The level that a category asks for. -/
def Category.level : Category → Level
  | .start | .expression | .sequence => .sequence
  | .statement => .statement
  | .disjunction => .disjunction
  | .conjunction => .conjunction
  | .negation => .negation
  | .comparison => .comparison
  | .performance => .performance
  | .join => .join
  | .sum => .sum
  | .product => .product
  | .minus => .minus
  | .slice => .slice
  | .atom => .atom

/-- The derivation of a phrase in a category. -/
def Phrase.under (p : Phrase) (c : Category) : Derivation Token :=
  if c = .start then p.parse
  else if c = .expression then p.derivation.whole p.level
  else p.derivation.lower c.level p.level

theorem Category.level_ofLevel : ∀ q : Nat, q ≤ 12 → (Category.ofLevel q).level = q := by decide

theorem Category.ofLevel_ne : ∀ q : Nat, q ≤ 12 → Category.ofLevel q ≠ .start ∧ Category.ofLevel q ≠ .expression := by decide

/-- The derivation of a phrase in the category of a level. -/
theorem Phrase.under_ofLevel (p : Phrase) {q : Nat} (hq : q ≤ 12) :
    p.under (.ofLevel q) = p.derivation.lower q p.level := by
  obtain ⟨hstart, hexpression⟩ := Category.ofLevel_ne q hq
  rw [Phrase.under, if_neg hstart, if_neg hexpression, Category.level_ofLevel q hq]

/-- The derivation of a phrase in the category of its own level. -/
theorem Phrase.under_level (p : Phrase) : p.under (.ofLevel p.level) = p.derivation := by
  rw [p.under_ofLevel p.level_le, Derivation.lower, Nat.sub_self, Derivation.descend]

/-- Whether a derivation is that of a phrase, in a category. -/
def Derivation.Written (d : Derivation Token) (c : Category) : Prop := ∃ p : Phrase, p.Fits ∧ c.level ≤ p.level ∧ d = p.under c

/-- A derivation that is made like that of a phrase is written in the category of the phrase's level. -/
theorem Phrase.written {p : Phrase} {d : Derivation Token} (h : p.Fits) (hd : d = p.derivation) :
    d.Written (.ofLevel p.level) :=
  ⟨p, h, Nat.le_of_eq (Category.level_ofLevel _ p.level_le), hd.trans p.under_level.symm⟩

/-- What a derivation of a symbol is: a token, with a text of its own or with that of its terminal, or the derivation of a phrase. -/
def Symbol.Shown : Symbol → Derivation Token → Prop
  | .word k, d => if k.isClass then ∃ text, d = .leaf ⟨k, text⟩ else d = k.leaf
  | .phrase c, d => d.Written c

/-- What derivations of symbols are, one by one. -/
def Symbol.AllShown : List Symbol → List (Derivation Token) → Prop
  | [], parts => parts = []
  | s :: symbols, parts => ∃ d ds, parts = d :: ds ∧ s.Shown d ∧ AllShown symbols ds

/-- Derivations of symbols, with settled tokens, are shown when those of phrases are written. -/
theorem Derivation.AllOf.shown {parts : List (Derivation Token)} {symbols : List Symbol}
    (h : Derivation.AllOf Token.terminal parts symbols) (hsettled : ∀ d ∈ parts, ∀ t ∈ d.leaves, t.Settled)
    (hwritten : ∀ d ∈ parts, ∀ c, d.Of Token.terminal (.phrase c) → d.Written c) : Symbol.AllShown symbols parts := by
  induction symbols generalizing parts with
  | nil => exact Derivation.allOf_nil.mp h
  | cons s symbols ih =>
    obtain ⟨d, ds, rfl, hd, hds⟩ := Derivation.allOf_cons.mp h
    refine ⟨d, ds, rfl, ?_, ih hds (fun d hd => hsettled d (.tail _ hd)) (fun d hd => hwritten d (.tail _ hd))⟩
    cases s with
    | phrase c => exact hwritten d (.head _) c hd
    | word k =>
      obtain ⟨t, rfl, rfl⟩ := Derivation.of_word.mp hd
      simp only [Symbol.Shown]
      split
      · exact ⟨t.text, rfl⟩
      · rename_i hk
        exact congrArg Derivation.leaf (hsettled _ (.head _) t (by simp) (by simpa using hk))

/-- What is written in a category is written in the category that leads to it. -/
theorem Derivation.Written.descent {d : Derivation Token} {q : Nat} (hq : q < 12) (h : d.Written (.ofLevel (q + 1))) :
    (Derivation.node (.descent q) [d]).Written (.ofLevel q) := by
  obtain ⟨p, hfits, hlevel, rfl⟩ := h
  rw [Category.level_ofLevel _ hq] at hlevel
  have hstep : ∀ n : Nat, q + 1 ≤ n → n - q = n - (q + 1) + 1 := by omega
  refine ⟨p, hfits, ?_, ?_⟩
  · rw [Category.level_ofLevel q (Nat.le_of_lt hq)]
    exact Nat.le_of_succ_le hlevel
  · rw [p.under_ofLevel hq, p.under_ofLevel (Nat.le_of_lt hq), Derivation.lower, Derivation.lower, hstep _ hlevel,
      Derivation.descend]

/-- What the production of a sign makes of its operands is written. -/
theorem Sign.written {s : Sign} {parts : List (Derivation Token)} (h : Symbol.AllShown s.production.body parts) :
    (Derivation.node s.production parts).Written (.ofLevel s.level) := by
  obtain ⟨_, _, rfl, ⟨pl, hl, hleft, rfl⟩, w, _, rfl, hw, _, _, rfl, ⟨pr, hr, hright, rfl⟩, rfl⟩ := h
  simp only [Symbol.Shown, s.isClass_terminal, Bool.false_eq_true, if_false] at hw
  subst hw
  rw [Category.level_ofLevel _ s.left_le] at hleft
  rw [Category.level_ofLevel _ s.right_le] at hright
  refine Phrase.written (p := .sign s pl pr) ⟨hl, hleft, hr, hright⟩ ?_
  rw [pl.under_ofLevel s.left_le, pr.under_ofLevel s.right_le]
  rfl

/-- What the production of a leading word makes of its operand is written. -/
theorem Lead.written {l : Lead} {parts : List (Derivation Token)} (h : Symbol.AllShown l.production.body parts) :
    (Derivation.node l.production parts).Written (.ofLevel l.level) := by
  obtain ⟨w, _, rfl, hw, _, _, rfl, ⟨p, hp, hlevel, rfl⟩, rfl⟩ := h
  simp only [Symbol.Shown, l.isClass_terminal, Bool.false_eq_true, if_false] at hw
  subst hw
  rw [Category.level_ofLevel _ l.operand_le] at hlevel
  refine Phrase.written (p := .lead l p) ⟨hp, hlevel⟩ ?_
  rw [p.under_ofLevel l.operand_le]
  rfl

/-- Every derivation, if its tokens have the texts of their terminals, is that of a phrase. -/
theorem Derivation.exists_phrase (d : Derivation Token) : ∀ {c : Category}, d.Of Token.terminal (.phrase c) →
    (∀ t ∈ d.leaves, t.Settled) → d.Written c := by
  induction d using Derivation.induction with
  | hleaf t =>
    intro c h
    cases h
  | hnode prod parts ih =>
    intro c h hsettled
    obtain ⟨hprod, hc, hparts⟩ := h
    cases hc
    have hleaves : ∀ d ∈ parts, ∀ t ∈ d.leaves, t.Settled :=
      fun d hd t ht => hsettled t (Derivation.mem_leaves_node.mpr ⟨d, hd, ht⟩)
    have hshown := hparts.shown hleaves (fun d hd c hof => ih d hd hof (hleaves d hd))
    have hfamily := Grammar.mem_families prod hprod
    simp only [Grammar.families, List.mem_append, List.mem_cons, List.mem_map, List.mem_range, List.not_mem_nil, or_false] at hfamily
    rcases hfamily with (((rfl | rfl | ⟨q, hq, rfl⟩) | ⟨s, _, rfl⟩) | ⟨l, _, rfl⟩) |
      ⟨_, rfl | rfl | rfl | rfl | rfl | rfl | rfl | rfl | rfl | rfl | rfl | rfl | rfl, rfl⟩
    · obtain ⟨_, _, rfl, ⟨p, hp, _, rfl⟩, rfl⟩ := hshown
      exact ⟨p, hp, Nat.zero_le _, rfl⟩
    · obtain ⟨_, _, rfl, ⟨p, hp, _, rfl⟩, rfl⟩ := hshown
      exact ⟨p, hp, Nat.zero_le _, rfl⟩
    · obtain ⟨_, _, rfl, hd, rfl⟩ := hshown
      exact Derivation.Written.descent hq hd
    · exact Sign.written hshown
    · exact Lead.written hshown
    -- the other constructs, in the order of their family: the parts that were shown are those of the phrase
    · obtain ⟨_, _, rfl, ⟨digits, rfl⟩, rfl⟩ := hshown
      exact Phrase.written (p := .int digits) trivial rfl
    · obtain ⟨_, _, rfl, ⟨x, rfl⟩, rfl⟩ := hshown
      exact Phrase.written (p := .name x) trivial rfl
    · obtain ⟨_, _, rfl, rfl, _, _, rfl, ⟨x, rfl⟩, _, _, rfl, rfl, _, _, rfl, ⟨digits, rfl⟩, _, _, rfl, rfl, rfl⟩ := hshown
      exact Phrase.written (p := .note x digits) trivial rfl
    · obtain ⟨_, _, rfl, rfl, _, _, rfl, ⟨p, hp, _, rfl⟩, _, _, rfl, rfl, rfl⟩ := hshown
      exact Phrase.written (p := .group p) hp rfl
    · obtain ⟨_, _, rfl, rfl, _, _, rfl, ⟨x, rfl⟩, _, _, rfl, rfl, _, _, rfl, ⟨pd, hd, _, rfl⟩, _, _, rfl, rfl,
        _, _, rfl, ⟨pb, hb, _, rfl⟩, _, _, rfl, rfl, rfl⟩ := hshown
      exact Phrase.written (p := .letIn x pd pb) ⟨hd, hb⟩ rfl
    · obtain ⟨_, _, rfl, rfl, _, _, rfl, ⟨f, rfl⟩, _, _, rfl, rfl, _, _, rfl, ⟨x, rfl⟩, _, _, rfl, rfl, _, _, rfl, rfl,
        _, _, rfl, ⟨pb, hb, _, rfl⟩, _, _, rfl, rfl, _, _, rfl, ⟨pi, hi, _, rfl⟩, _, _, rfl, rfl, rfl⟩ := hshown
      exact Phrase.written (p := .letFun f x pb pi) ⟨hb, hi⟩ rfl
    · obtain ⟨_, _, rfl, ⟨pf, hf, hlevel, rfl⟩, _, _, rfl, rfl, _, _, rfl, ⟨pa, ha, _, rfl⟩, _, _, rfl, rfl, rfl⟩ := hshown
      exact Phrase.written (p := .app pf pa) ⟨hf, hlevel, ha⟩ rfl
    · obtain ⟨_, _, rfl, ⟨pt, ht, hlevel, rfl⟩, _, _, rfl, rfl, _, _, rfl, ⟨pi, hi, _, rfl⟩, _, _, rfl, rfl,
        _, _, rfl, ⟨pj, hj, _, rfl⟩, _, _, rfl, rfl, rfl⟩ := hshown
      exact Phrase.written (p := .slice pt pi pj) ⟨ht, hlevel, hi, hj⟩ rfl
    · obtain ⟨_, _, rfl, rfl, _, _, rfl, ⟨pc, hc, hcount, rfl⟩, _, _, rfl, rfl, _, _, rfl, ⟨pt, ht, htune, rfl⟩, rfl⟩ := hshown
      exact Phrase.written (p := .times pc pt) ⟨hc, hcount, ht, htune⟩ rfl
    · obtain ⟨_, _, rfl, rfl, _, _, rfl, ⟨pt, ht, hlevel, rfl⟩, _, _, rfl, rfl, _, _, rfl, ⟨path, rfl⟩, rfl⟩ := hshown
      exact Phrase.written (p := .write pt path) ⟨ht, hlevel⟩ rfl
    · obtain ⟨_, _, rfl, rfl, _, _, rfl, ⟨path, rfl⟩, rfl⟩ := hshown
      exact Phrase.written (p := .run path) trivial rfl
    · obtain ⟨_, _, rfl, ⟨x, rfl⟩, _, _, rfl, rfl, _, _, rfl, ⟨p, hp, hlevel, rfl⟩, rfl⟩ := hshown
      exact Phrase.written (p := .assign x p) ⟨hp, hlevel⟩ rfl
    · obtain ⟨_, _, rfl, rfl, _, _, rfl, ⟨pc, hc, _, rfl⟩, _, _, rfl, rfl, _, _, rfl, ⟨pt, ht, _, rfl⟩, _, _, rfl, rfl,
        _, _, rfl, ⟨pe, he, hlevel, rfl⟩, rfl⟩ := hshown
      exact Phrase.written (p := .cond pc pt pe) ⟨hc, ht, he, hlevel⟩ rfl

end TuneLang
