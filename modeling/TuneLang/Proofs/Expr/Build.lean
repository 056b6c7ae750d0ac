import TuneLang.Expr.Draft
import TuneLang.Proofs.Grammar.Phrase

/-!
# The expression of a phrase

What the tree of a phrase is converted into can be read off the phrase (`Phrase.expr?`). The conversion fails for one reason only, a
numeral with too many digits: every rule is applied to the parts that it asks for, and nothing is left over (`Phrase.gives_ofTree`).
-/

namespace TuneLang

/-- The expression that a sign makes of its operands. -/
def Sign.expr : Sign → Expr → Expr → Expr
  | .seq => .seq
  | .or => .logic .or
  | .and => .logic .and
  | .eq => .binary .eq
  | .ne => .binary .ne
  | .lt => .binary .lt
  | .gt => .binary .gt
  | .le => .binary .le
  | .ge => .binary .ge
  | .join => .binary .join
  | .add => .binary .add
  | .sub => .binary .sub
  | .mul => .binary .mul
  | .div => .binary .div

/-- The expression that a leading word makes of its operand. -/
def Lead.expr : Lead → Expr → Expr
  | .display => .display
  | .not => .unary .not
  | .neg => .unary .neg
  | .reverse => .unary .reverse

/-- The expression of a name that stands as an operand. -/
def Expr.ofName (x : String) : Expr :=
  if x = "true" then .lit (.bool true)
  else if x = "false" then .lit (.bool false)
  else if x = "read" then .read
  else .name x

/-- The expression of a phrase. None when one of its numerals has too many digits. -/
@[simp] def Phrase.expr? : Phrase → Option Expr
  | .int digits => do
    let n ← Numeral.read? digits
    return .lit (.int n)
  | .name x => some (Expr.ofName x)
  | .note x digits => do
    let n ← Numeral.read? digits
    return .note x n
  | .group e => e.expr?
  | .letIn x d b => do
    let d ← d.expr?
    let b ← b.expr?
    return .letIn x d b
  | .letFun f x b i => do
    let b ← b.expr?
    let i ← i.expr?
    return .letFun f x b i
  | .app f a => do
    let f ← f.expr?
    let a ← a.expr?
    return .app f a
  | .slice t i j => do
    let t ← t.expr?
    let i ← i.expr?
    let j ← j.expr?
    return .slice t i j
  | .lead l e => do
    let e ← e.expr?
    return l.expr e
  | .sign s l r => do
    let l ← l.expr?
    let r ← r.expr?
    return s.expr l r
  | .times c t => do
    let c ← c.expr?
    let t ← t.expr?
    return .binary .times c t
  | .write t path => do
    let t ← t.expr?
    return .write t path
  | .run path => some (.run path)
  | .assign x e => do
    let e ← e.expr?
    return .assign x e
  | .cond c t e => do
    let c ← c.expr?
    let t ← t.expr?
    let e ← e.expr?
    return .cond c t e

/-! ## Conversions -/

/-- Whether a conversion succeeds with what shows the given outcome, and fails, for a numeral only, when there is none. -/
def BuildM.Gives {α β : Type} (shows : α → β → Prop) (x : BuildM α) (o : Option β) : Prop :=
  ∀ counts, match x counts with
    | .ok a _ => ∃ b, o = some b ∧ shows a b
    | .error e _ => o = none ∧ ∃ label, e = .failed label .notNumeral

/-- What is converted first and what comes after it. -/
theorem BuildM.Gives.bind {α β γ δ : Type} {shows : α → β → Prop} {shows' : γ → δ → Prop} {x : BuildM α} {o : Option β}
    {f : α → BuildM γ} {g : β → Option δ} (hx : BuildM.Gives shows x o)
    (hf : ∀ a b, shows a b → BuildM.Gives shows' (f a) (g b)) : BuildM.Gives shows' (x >>= f) (o >>= g) := by
  intro counts
  have hfirst := hx counts
  simp only [Bind.bind, EStateM.bind]
  cases hcounts : x counts with
  | ok a counts' =>
    rw [hcounts] at hfirst
    obtain ⟨b, rfl, hb⟩ := hfirst
    exact hf a b hb counts'
  | error e counts' =>
    rw [hcounts] at hfirst
    obtain ⟨rfl, hlabel⟩ := hfirst
    exact ⟨rfl, hlabel⟩

/-- Whether a draft is that of an expression. -/
def Draft.Shows (d : Draft) (e : Expr) : Prop := d.toExpr? = some e

/-- A rule that can be applied to its parts. -/
theorem Rule.gives_some {rule : Rule} {parts : List Draft} {d : Draft} {e : Expr} (hrule : rule ≠ .ambiguous)
    (happly : rule.apply parts = .ok d) (hd : d.Shows e) : BuildM.Gives Draft.Shows (rule.build parts) (some e) := by
  intro counts
  have hbuild : rule.build parts counts = .ok d (rule.announced parts counts) := by simp [Rule.build, hrule, happly]
  rw [hbuild]
  exact ⟨e, rfl, hd⟩

/-- A rule that cannot be applied because of a numeral. -/
theorem Rule.gives_none {rule : Rule} {parts : List Draft} (hrule : rule ≠ .ambiguous)
    (happly : rule.apply parts = .error .notNumeral) : BuildM.Gives Draft.Shows (rule.build parts) none := by
  intro counts
  have hbuild : rule.build parts counts = .error (.failed rule.label .notNumeral) (rule.announced parts counts) := by
    simp [Rule.build, hrule, happly]
  rw [hbuild]
  exact ⟨rfl, rule.label, rfl⟩

/-- A rule that asks for a number is applied exactly when the text is a numeral. -/
theorem Rule.gives_number {rule : Rule} {parts : List Draft} {digits : String} {m : Int → Draft} {expr : Int → Expr}
    (hrule : rule ≠ .ambiguous) (happly : rule.apply parts = (Draft.text digits).number >>= fun n => pure (m n))
    (hmake : ∀ n, (m n).Shows (expr n)) :
    BuildM.Gives Draft.Shows (rule.build parts) (Numeral.read? digits >>= fun n => pure (expr n)) := by
  cases hread : Numeral.read? digits with
  | none =>
    have hnumber : (Draft.text digits).number = .error .notNumeral := by simp [Draft.number, hread]
    rw [hnumber] at happly
    exact Rule.gives_none hrule happly
  | some n =>
    have hnumber : (Draft.text digits).number = .ok n := by simp [Draft.number, hread]
    rw [hnumber] at happly
    exact Rule.gives_some hrule happly (hmake n)

/-- The draft of a name is that of its expression. -/
theorem Draft.shows_ofName (x : String) : (Draft.ofName (.text x)).Shows (Expr.ofName x) := by
  unfold Draft.Shows Draft.ofName Expr.ofName
  simp only [Draft.text?, Option.some.injEq]
  split
  · rfl
  · split
    · rfl
    · split <;> rfl

@[simp] theorem Draft.ofPart_nameLeaf (x : String) : Draft.ofPart (Tree.nameLeaf x) = pure (.leaf "NAME" x) := rfl

@[simp] theorem Draft.ofPart_intLeaf (d : String) : Draft.ofPart (Tree.intLeaf d) = pure (.leaf "INT" d) := rfl

@[simp] theorem Draft.ofPart_pathLeaf (p : String) : Draft.ofPart (Tree.pathLeaf p) = pure (.leaf "UNIX_PATH_NOSPACE" p) := rfl

/-- The parts of a node are converted from left to right. -/
theorem Draft.ofPart_node (rule : Rule) (ts : List Tree) : Draft.ofPart (.node rule ts) = Draft.ofParts ts >>= rule.build := rfl

/-- The tree of a phrase is converted into the phrase's expression. -/
theorem Phrase.gives_ofPart (p : Phrase) : BuildM.Gives Draft.Shows (Draft.ofPart p.tree) p.expr? := by
  induction p with
  | int digits =>
    simp only [Phrase.tree, Draft.ofPart_node, Draft.ofParts, Draft.ofPart_intLeaf, pure_bind]
    exact Rule.gives_number (m := fun n => .form .lit [.int n]) (by decide) rfl (fun _ => rfl)
  | name x =>
    simp only [Phrase.tree, Tree.ofName, Draft.ofPart_node, Draft.ofParts, Draft.ofPart_nameLeaf, pure_bind]
    exact Rule.gives_some (by decide) rfl (Draft.shows_ofName x)
  | note x digits =>
    simp only [Phrase.tree, Draft.ofPart_node, Draft.ofParts, Draft.ofPart_nameLeaf, Draft.ofPart_intLeaf, pure_bind]
    exact Rule.gives_number (m := fun n => .form .note [.text x, .int n]) (by decide) rfl (fun _ => rfl)
  | run path =>
    simp only [Phrase.tree, Draft.ofPart_node, Draft.ofParts, Draft.ofPart_pathLeaf, pure_bind]
    exact Rule.gives_some (d := .form .run [.text path]) (by decide) rfl rfl
  | group e he => exact he
  | letIn x d b hd hb =>
    simp only [Phrase.tree, Draft.ofPart_node, Draft.ofParts, Draft.ofPart_nameLeaf, bind_assoc, pure_bind]
    refine hd.bind fun _ _ hdefinition => hb.bind fun _ _ hbody => ?_
    exact Rule.gives_some (by decide) rfl (by simp_all [Draft.Shows, Draft.toExpr?])
  | letFun f x b i hb hi =>
    simp only [Phrase.tree, Draft.ofPart_node, Draft.ofParts, Draft.ofPart_nameLeaf, bind_assoc, pure_bind]
    refine hb.bind fun _ _ hbody => hi.bind fun _ _ hscope => ?_
    exact Rule.gives_some (by decide) rfl (by simp_all [Draft.Shows, Draft.toExpr?])
  | app f a hf ha =>
    simp only [Phrase.tree, Draft.ofPart_node, Draft.ofParts, bind_assoc, pure_bind]
    refine hf.bind fun _ _ hfunction => ha.bind fun _ _ hargument => ?_
    exact Rule.gives_some (by decide) rfl (by simp_all [Draft.Shows, Draft.toExpr?])
  | slice t i j ht hi hj =>
    simp only [Phrase.tree, Draft.ofPart_node, Draft.ofParts, bind_assoc, pure_bind]
    refine ht.bind fun _ _ htune => hi.bind fun _ _ hstart => hj.bind fun _ _ hstop => ?_
    exact Rule.gives_some (by decide) rfl (by simp_all [Draft.Shows, Draft.toExpr?])
  | lead l e he =>
    simp only [Phrase.tree, Draft.ofPart_node, Draft.ofParts, bind_assoc, pure_bind]
    refine he.bind fun _ _ hoperand => ?_
    cases l <;> exact Rule.gives_some (by decide) rfl (by simp_all [Draft.Shows, Draft.toExpr?, Lead.expr])
  | sign s l r hl hr =>
    simp only [Phrase.tree, Draft.ofPart_node, Draft.ofParts, bind_assoc, pure_bind]
    refine hl.bind fun _ _ hleft => hr.bind fun _ _ hright => ?_
    cases s <;> exact Rule.gives_some (by decide) rfl (by simp_all [Draft.Shows, Draft.toExpr?, Sign.expr])
  | times c t hc ht =>
    simp only [Phrase.tree, Draft.ofPart_node, Draft.ofParts, bind_assoc, pure_bind]
    refine hc.bind fun _ _ hcount => ht.bind fun _ _ htune => ?_
    exact Rule.gives_some (by decide) rfl (by simp_all [Draft.Shows, Draft.toExpr?])
  | write t path ht =>
    simp only [Phrase.tree, Draft.ofPart_node, Draft.ofParts, Draft.ofPart_pathLeaf, bind_assoc, pure_bind]
    refine ht.bind fun _ _ htune => ?_
    exact Rule.gives_some (by decide) rfl (by simp_all [Draft.Shows, Draft.toExpr?])
  | assign x e he =>
    simp only [Phrase.tree, Draft.ofPart_node, Draft.ofParts, Draft.ofPart_nameLeaf, bind_assoc, pure_bind]
    refine he.bind fun _ _ hvalue => ?_
    exact Rule.gives_some (by decide) rfl (by simp_all [Draft.Shows, Draft.toExpr?])
  | cond c t e hc ht he =>
    simp only [Phrase.tree, Draft.ofPart_node, Draft.ofParts, bind_assoc, pure_bind]
    refine hc.bind fun _ _ htest => ht.bind fun _ _ hyes => he.bind fun _ _ hno => ?_
    exact Rule.gives_some (by decide) rfl (by simp_all [Draft.Shows, Draft.toExpr?])

/-- The tree of a phrase is a node. -/
theorem Phrase.tree_eq_node (p : Phrase) : ∃ rule ts, p.tree = .node rule ts := by
  induction p with
  | group e he => exact he
  | _ => exact ⟨_, _, rfl⟩

/-- The expression of a phrase is what its tree is converted into. -/
theorem Phrase.gives_ofTree (p : Phrase) : BuildM.Gives Eq (Expr.ofTree p.tree) p.expr? := by
  obtain ⟨rule, ts, htree⟩ := p.tree_eq_node
  have hdraft : Draft.ofTree p.tree = Draft.ofPart p.tree := by rw [htree]; rfl
  unfold Expr.ofTree
  rw [hdraft, ← bind_pure p.expr?]
  refine p.gives_ofPart.bind fun d e hd => ?_
  have hd : d.toExpr? = some e := hd
  rw [hd]
  intro counts
  exact ⟨e, rfl, rfl⟩

end TuneLang
