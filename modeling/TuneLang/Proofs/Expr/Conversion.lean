import TuneLang.Program
import TuneLang.Proofs.Eval.Quiet
import TuneLang.Proofs.Expr.RoundTrip

/-!
# The conversion of trees

A tree that was read from a source is converted as a whole. Each of its rules meets the parts that it asks for, so that no leaf and
no node is left over; the numbers of the expression are those that its numerals write, and a sequence announces its two parts, once
for each sequence of the expression. One thing alone stands in the way, a numeral with too many digits, and then the rule of the
integer or of the note that it belongs to is named (`Tree.conversion`).
-/

namespace TuneLang

/-! ## What a conversion can leave over -/

mutual

/-- The leaves and nodes of a tree that were kept in its draft. -/
def Draft.leftovers : Draft → List Draft
  | .form _ parts => Draft.allLeftovers parts
  | .int _ | .bool _ | .text _ => []
  | .leaf label s => [.leaf label s]
  | .node rule parts => [.node rule parts]

/-- The leaves and nodes that were kept in drafts. -/
def Draft.allLeftovers : List Draft → List Draft
  | [] => []
  | d :: ds => d.leftovers ++ Draft.allLeftovers ds

end

/-- A draft that is an expression has kept nothing of its tree. -/
theorem Draft.leftovers_of_toExpr? {d : Draft} {e : Expr} (h : d.toExpr? = some e) : d.leftovers = [] := by
  fun_induction Draft.toExpr? d generalizing e with
  | case1 | case2 | case3 | case9 | case16 | case18 => simp [Draft.leftovers, Draft.allLeftovers]
  | case4 op l r hl hr | case5 op l r hl hr | case10 x l r hl hr | case11 f p l r hl hr | case12 l r hl hr | case14 l r hl hr =>
    simp only [Option.bind_eq_bind, Option.bind_eq_some_iff, Option.pure_def, Option.some.injEq] at h
    obtain ⟨a, ha, b, hb, rfl⟩ := h
    simp [Draft.leftovers, Draft.allLeftovers, hl ha, hr hb]
  | case6 op d hd | case13 x d hd | case15 d hd | case17 d path hd =>
    simp only [Option.bind_eq_bind, Option.bind_eq_some_iff, Option.pure_def, Option.some.injEq] at h
    obtain ⟨a, ha, rfl⟩ := h
    simp [Draft.leftovers, Draft.allLeftovers, hd ha]
  | case7 c t e hc ht he | case8 c t e hc ht he =>
    simp only [Option.bind_eq_bind, Option.bind_eq_some_iff, Option.pure_def, Option.some.injEq] at h
    obtain ⟨a, ha, b, hb, c, hc', rfl⟩ := h
    simp [Draft.leftovers, Draft.allLeftovers, hc ha, ht hb, he hc']
  | case19 => cases h

/-! ## Numerals -/

mutual

/-- The texts of the leaves of a tree that stand for integers. -/
def Tree.numerals : Tree → List String
  | .leaf label text => if label = Terminal.int.label then [text] else []
  | .node _ children => Tree.allNumerals children

/-- The texts of the leaves of trees that stand for integers. -/
def Tree.allNumerals : List Tree → List String
  | [] => []
  | t :: ts => t.numerals ++ Tree.allNumerals ts

end

@[simp] theorem Tree.numerals_nameLeaf (x : String) : (Tree.nameLeaf x).numerals = [] := by
  rw [Tree.nameLeaf, Tree.numerals, if_neg (by decide)]

@[simp] theorem Tree.numerals_intLeaf (digits : String) : (Tree.intLeaf digits).numerals = [digits] := by
  rw [Tree.intLeaf, Tree.numerals, if_pos rfl]

@[simp] theorem Tree.numerals_pathLeaf (path : String) : (Tree.pathLeaf path).numerals = [] := by
  rw [Tree.pathLeaf, Tree.numerals, if_neg (by decide)]

theorem Sign.terminal_ne_int (s : Sign) : Terminal.int ≠ s.terminal := by cases s <;> decide

theorem Lead.terminal_ne_int (l : Lead) : Terminal.int ≠ l.terminal := by cases l <;> decide

/-- The numerals of a phrase's tree are its tokens that stand for integers. -/
theorem Phrase.mem_numerals {p : Phrase} {digits : String} : digits ∈ p.tree.numerals ↔ ⟨.int, digits⟩ ∈ p.tokens := by
  induction p with
  | sign s l r hl hr => simp [Phrase.tree, Phrase.tokens, Tree.numerals, Tree.allNumerals, Terminal.token, s.terminal_ne_int, hl, hr]
  | lead l e he => simp [Phrase.tree, Phrase.tokens, Tree.numerals, Tree.allNumerals, Terminal.token, l.terminal_ne_int, he]
  | _ => simp_all [Phrase.tree, Phrase.tokens, Tree.ofName, Tree.numerals, Tree.allNumerals, Terminal.token]

/-- A phrase has an expression exactly when all its numerals can be read. -/
theorem Phrase.isSome_expr? (p : Phrase) : p.expr?.isSome = p.tree.numerals.all (fun digits => (Numeral.read? digits).isSome) := by
  induction p with
  | int digits | note x digits =>
    cases hread : Numeral.read? digits <;> simp [Phrase.tree, Tree.numerals, Tree.allNumerals, hread]
  | name x => simp [Phrase.tree, Tree.ofName, Tree.numerals, Tree.allNumerals]
  | run path => simp [Phrase.tree, Tree.numerals, Tree.allNumerals]
  | group p ih => exact ih
  | lead l p ih | write p path ih | assign x p ih =>
    simp only [Phrase.tree, Tree.numerals, Tree.allNumerals, List.all_append, ← ih]
    cases hp : p.expr? <;> simp [hp]
  | sign s p q ihp ihq | letIn x p q ihp ihq | letFun f x p q ihp ihq | app p q ihp ihq | times p q ihp ihq =>
    simp only [Phrase.tree, Tree.numerals, Tree.allNumerals, List.all_append, ← ihp, ← ihq]
    cases hp : p.expr? <;> cases hq : q.expr? <;> simp [hp, hq]
  | slice p q r ihp ihq ihr | cond p q r ihp ihq ihr =>
    simp only [Phrase.tree, Tree.numerals, Tree.allNumerals, List.all_append, ← ihp, ← ihq, ← ihr]
    cases hp : p.expr? <;> cases hq : q.expr? <;> cases hr : r.expr? <;> simp [hp, hq, hr]

/-- A text of digits is read as a number that is not negative. -/
theorem Numeral.nonneg_of_read?_ascii {s : String} {n : Int} (h : ∀ c ∈ s.toList, Lexeme.isDigit c = true)
    (hread : Numeral.read? s = some n) : 0 ≤ n := by
  rw [Numeral.read?_ascii h] at hread
  obtain ⟨k, _, rfl⟩ := Option.map_eq_some_iff.mp hread
  exact Int.natCast_nonneg k

/-- Whether a text of digits can be read depends on its length alone. -/
theorem Numeral.isSome_read?_ascii {s : String} (hne : s.toList ≠ []) (h : ∀ c ∈ s.toList, Lexeme.isDigit c = true) :
    (Numeral.read? s).isSome = decide (s.length ≤ Numeral.maxDigits) := by
  rw [Numeral.read?_ascii h, Numeral.unsigned?, Numeral.digits?_ascii hne h, Option.isSome_map]
  generalize Numeral.maxDigits = limit
  by_cases hlength : s.length ≤ limit <;> simp [hlength, String.length_toList]

/-! ## Announcements and blame -/

/-- Whether a conversion that succeeds has announced so many sequences of two parts, and one that fails for a numeral names the rule
of an integer or of a note. -/
def BuildM.Accounts {α : Type} (x : BuildM α) (k : Nat) : Prop :=
  ∀ counts, match x counts with
    | .ok _ counts' => counts' = counts ++ List.replicate k 2
    | .error e _ => ∀ label, e = .failed label .notNumeral → label = "int" ∨ label = "note"

theorem BuildM.accounts_pure {α : Type} (a : α) : BuildM.Accounts (pure a) 0 := fun _ => (List.append_nil _).symm

theorem BuildM.Accounts.bind {α β : Type} {x : BuildM α} {f : α → BuildM β} {j k : Nat} (hx : BuildM.Accounts x j)
    (hf : ∀ a, BuildM.Accounts (f a) k) : BuildM.Accounts (x >>= f) (j + k) := by
  intro counts
  have hfirst := hx counts
  simp only [Bind.bind, EStateM.bind]
  cases hcounts : x counts with
  | ok a counts' =>
    rw [hcounts] at hfirst
    obtain rfl : counts' = _ := hfirst
    have hsecond := hf a (counts ++ List.replicate j 2)
    rwa [List.append_assoc, List.replicate_append_replicate] at hsecond
  | error e counts' =>
    rw [hcounts] at hfirst
    exact hfirst

/-- What is not blamed on a numeral in either of two steps is not blamed on one at all. -/
theorem BuildFault.bind_ne_notNumeral {α β : Type} {x : Except BuildFault α} {f : α → Except BuildFault β}
    (hx : x ≠ .error .notNumeral) (hf : ∀ a, f a ≠ .error .notNumeral) : (x >>= f) ≠ .error .notNumeral := by
  cases x with
  | error fault => exact fun h => hx (congrArg Except.error (Except.error.inj h))
  | ok a => exact hf a

theorem Draft.part_ne_notNumeral (parts : List Draft) (i : Nat) : Draft.part parts i ≠ .error .notNumeral := by
  unfold Draft.part
  split <;> simp

theorem Draft.value_ne_notNumeral (d : Draft) : d.value ≠ .error .notNumeral := by
  unfold Draft.value
  split <;> simp

/-- Only integers and notes are written with numerals. -/
theorem Rule.eq_of_apply_notNumeral {rule : Rule} {parts : List Draft} (h : rule.apply parts = .error .notNumeral) :
    rule = .int ∨ rule = .note := by
  have hpart := Draft.part_ne_notNumeral parts
  have hvalue : ∀ i, Draft.valueAt parts i ≠ .error .notNumeral :=
    fun i => BuildFault.bind_ne_notNumeral (hpart i) Draft.value_ne_notNumeral
  cases rule with
  | int => exact .inl rfl
  | note => exact .inr rfl
  | truth | falsity | ambiguous | other => cases h
  | name | run => exact absurd h (BuildFault.bind_ne_notNumeral (hvalue 0) fun _ => nofun)
  | assign =>
    refine absurd h (BuildFault.bind_ne_notNumeral (hvalue 0) fun _ => ?_)
    exact BuildFault.bind_ne_notNumeral (hpart 1) fun _ => nofun
  | write =>
    refine absurd h (BuildFault.bind_ne_notNumeral (hpart 0) fun _ => ?_)
    exact BuildFault.bind_ne_notNumeral (hvalue 1) fun _ => nofun
  | letIn =>
    refine absurd h (BuildFault.bind_ne_notNumeral (hvalue 0) fun _ => ?_)
    refine BuildFault.bind_ne_notNumeral (hpart 1) fun _ => ?_
    exact BuildFault.bind_ne_notNumeral (hpart 2) fun _ => nofun
  | letFun =>
    refine absurd h (BuildFault.bind_ne_notNumeral (hvalue 0) fun _ => ?_)
    refine BuildFault.bind_ne_notNumeral (hvalue 1) fun _ => ?_
    refine BuildFault.bind_ne_notNumeral (hpart 2) fun _ => ?_
    exact BuildFault.bind_ne_notNumeral (hpart 3) fun _ => nofun
  | _ =>
    -- The rules that take all their parts as they are ask for a number of them, and for nothing else.
    simp only [Rule.apply, Rule.form?] at h
    split at h <;> cases h

/-- A sequence that can be built has two parts. -/
theorem Rule.length_of_apply_seq {parts : List Draft} {d : Draft} (h : Rule.seq.apply parts = .ok d) : parts.length = 2 := by
  simp only [Rule.apply, Rule.form?] at h
  split at h
  · assumption
  · cases h

/-- A rule announces its parts when it is that of a sequence. -/
theorem Rule.accounts_build (rule : Rule) (parts : List Draft) :
    BuildM.Accounts (rule.build parts) (if rule = .seq then 1 else 0) := by
  intro counts
  by_cases hambiguous : rule = .ambiguous
  · simp [Rule.build, hambiguous]
  · cases happly : rule.apply parts with
    | error fault =>
      simp only [Rule.build, hambiguous, happly, if_false]
      rintro label heq
      cases heq
      rcases Rule.eq_of_apply_notNumeral happly with rfl | rfl
      · exact .inl rfl
      · exact .inr rfl
    | ok d =>
      simp only [Rule.build, hambiguous, happly, if_false]
      by_cases hseq : rule = .seq
      · subst hseq
        simp [Rule.announced, Rule.length_of_apply_seq happly]
      · simp [Rule.announced, hseq]

mutual

/-- How many sequences a tree is converted into: one for each node of that rule, and for each leaf that is labelled so. -/
def Tree.sequences : Tree → Nat
  | .leaf label _ => if Rule.ofName label = .seq then 1 else 0
  | .node rule children => Tree.allSequences children + if rule = .seq then 1 else 0

/-- How many sequences trees are converted into. -/
def Tree.allSequences : List Tree → Nat
  | [] => 0
  | t :: ts => t.sequences + Tree.allSequences ts

end

mutual

theorem Draft.accounts_ofPart : ∀ t : Tree, BuildM.Accounts (Draft.ofPart t) t.sequences
  | .leaf label s => by
    rw [Draft.ofPart, Draft.ofLeaf, Tree.sequences]
    cases hrule : Rule.ofName label with
    | other => exact BuildM.accounts_pure _
    | _ => exact Rule.accounts_build _ _
  | .node rule children => by
    rw [Draft.ofPart, Tree.sequences]
    exact (Draft.accounts_ofParts children).bind fun parts => rule.accounts_build parts

theorem Draft.accounts_ofParts : ∀ ts : List Tree, BuildM.Accounts (Draft.ofParts ts) (Tree.allSequences ts)
  | [] => by
    rw [Draft.ofParts, Tree.allSequences]
    exact BuildM.accounts_pure _
  | t :: ts => by
    rw [Draft.ofParts, Tree.allSequences]
    exact (Draft.accounts_ofPart t).bind fun d => (Draft.accounts_ofParts ts).bind fun ds => BuildM.accounts_pure _

end

/-- The conversion of a node announces its sequences. -/
theorem Expr.accounts_ofTree (t : Tree) : BuildM.Accounts (Expr.ofTree t) t.sequences := by
  unfold Expr.ofTree
  rw [← Nat.add_zero t.sequences]
  refine BuildM.Accounts.bind ?_ fun d => ?_
  · cases t with
    | leaf label s => exact fun _ _ h => nomatch h
    | node rule children => exact Draft.accounts_ofPart _
  · split
    · exact BuildM.accounts_pure _
    · exact fun _ _ h => nomatch h

/-- Whether an expression is a sequence. -/
def Expr.isSeq : Expr → Bool
  | .seq _ _ => true
  | _ => false

@[simp] theorem Tree.sequences_nameLeaf (x : String) : (Tree.nameLeaf x).sequences = 0 := by
  rw [Tree.nameLeaf, Tree.sequences, if_neg (by decide)]

@[simp] theorem Tree.sequences_intLeaf (digits : String) : (Tree.intLeaf digits).sequences = 0 := by
  rw [Tree.intLeaf, Tree.sequences, if_neg (by decide)]

@[simp] theorem Tree.sequences_pathLeaf (path : String) : (Tree.pathLeaf path).sequences = 0 := by
  rw [Tree.pathLeaf, Tree.sequences, if_neg (by decide)]

theorem Expr.countP_isSeq_ofName (x : String) : (Expr.ofName x).parts.countP Expr.isSeq = 0 := by
  unfold Expr.ofName
  split
  · simp [Expr.parts, Expr.isSeq]
  · split
    · simp [Expr.parts, Expr.isSeq]
    · split <;> simp [Expr.parts, Expr.isSeq]

/-- The sequences of a phrase's tree are those of its expression. -/
theorem Phrase.countP_isSeq {p : Phrase} {e : Expr} (h : p.expr? = some e) : e.parts.countP Expr.isSeq = p.tree.sequences := by
  induction p generalizing e with
  | int digits | note x digits =>
    simp only [Phrase.expr?, Option.bind_eq_bind, Option.bind_eq_some_iff, Option.pure_def, Option.some.injEq] at h
    obtain ⟨n, hn, rfl⟩ := h
    simp [Expr.parts, Expr.isSeq, Phrase.tree, Tree.sequences, Tree.allSequences]
  | name x =>
    cases h
    simp [Expr.countP_isSeq_ofName, Phrase.tree, Tree.ofName, Tree.sequences, Tree.allSequences]
  | run path =>
    cases h
    simp [Expr.parts, Expr.isSeq, Phrase.tree, Tree.sequences, Tree.allSequences]
  | group p ih => exact ih h
  | lead l p ih =>
    simp only [Phrase.expr?, Option.bind_eq_bind, Option.bind_eq_some_iff, Option.pure_def, Option.some.injEq] at h
    obtain ⟨a, ha, rfl⟩ := h
    cases l <;> simp [Lead.expr, Lead.rule, Expr.parts, Expr.isSeq, Phrase.tree, Tree.sequences, Tree.allSequences, ← ih ha]
  | write p path ih | assign x p ih =>
    simp only [Phrase.expr?, Option.bind_eq_bind, Option.bind_eq_some_iff, Option.pure_def, Option.some.injEq] at h
    obtain ⟨a, ha, rfl⟩ := h
    simp [Expr.parts, Expr.isSeq, Phrase.tree, Tree.sequences, Tree.allSequences, ← ih ha]
  | sign s p q ihp ihq =>
    simp only [Phrase.expr?, Option.bind_eq_bind, Option.bind_eq_some_iff, Option.pure_def, Option.some.injEq] at h
    obtain ⟨a, ha, b, hb, rfl⟩ := h
    cases s <;>
      simp [Sign.expr, Sign.rule, Expr.parts, Expr.isSeq, List.countP_cons, Phrase.tree, Tree.sequences, Tree.allSequences, ← ihp ha,
        ← ihq hb]
  | letIn x p q ihp ihq | letFun f x p q ihp ihq | app p q ihp ihq | times p q ihp ihq =>
    simp only [Phrase.expr?, Option.bind_eq_bind, Option.bind_eq_some_iff, Option.pure_def, Option.some.injEq] at h
    obtain ⟨a, ha, b, hb, rfl⟩ := h
    simp [Expr.parts, Expr.isSeq, Phrase.tree, Tree.sequences, Tree.allSequences, ← ihp ha, ← ihq hb]
  | slice p q r ihp ihq ihr | cond p q r ihp ihq ihr =>
    simp only [Phrase.expr?, Option.bind_eq_bind, Option.bind_eq_some_iff, Option.pure_def, Option.some.injEq] at h
    obtain ⟨a, ha, b, hb, c, hc, rfl⟩ := h
    simp [Expr.parts, Expr.isSeq, Phrase.tree, Tree.sequences, Tree.allSequences, ← ihp ha, ← ihq hb, ← ihr hc]

/-- What sequences of two parts announce. -/
theorem Program.announcements_replicate (k : Nat) : Program.announcements (List.replicate k 2) = Text.repeated "2\n" k := by
  induction k with
  | zero => rfl
  | succ k ih =>
    have htwo : toString 2 ++ "\n" = "2\n" := by decide
    rw [Text.repeated, ← ih, ← htwo]
    simp [Program.announcements, List.replicate_succ]

/-! ## Trees that were read -/

/-- A tree that was read from a source is that of a phrase, and its numerals have digits and nothing else. -/
theorem Tree.exists_phrase_of_parse {source : String} {t : Tree} (h : Tree.parse source = .ok t) :
    ∃ p : Phrase, p.tree = t ∧ ∀ digits ∈ t.numerals, digits.toList ≠ [] ∧ ∀ c ∈ digits.toList, Lexeme.isDigit c = true := by
  obtain ⟨_, hmatches, _, p, _, _, rfl, rfl⟩ := Tree.reads_of_parse h
  exact ⟨p, rfl, fun digits hdigits => hmatches _ (Phrase.mem_numerals.mp hdigits)⟩

/-- A tree with a numeral that is too long cannot be converted, and an integer or a note is named. -/
theorem Expr.ofTree_of_long {source : String} {t : Tree} (h : Tree.parse source = .ok t)
    (hlong : ∃ digits ∈ t.numerals, Numeral.maxDigits < digits.length) :
    ∃ label counts, (label = "int" ∨ label = "note") ∧ Expr.ofTree t [] = .error (.failed label .notNumeral) counts := by
  obtain ⟨p, rfl, hascii⟩ := Tree.exists_phrase_of_parse h
  obtain ⟨digits, hdigits, hlength⟩ := hlong
  obtain ⟨hne, hdigit⟩ := hascii digits hdigits
  have hnone : p.expr? = none := by
    rw [← Option.not_isSome_iff_eq_none, p.isSome_expr?, List.all_eq_true]
    intro hall
    have hread := hall digits hdigits
    rw [Numeral.isSome_read?_ascii hne hdigit, decide_eq_true_eq] at hread
    omega
  have hgives := p.gives_ofTree []
  have haccounts := Expr.accounts_ofTree p.tree []
  cases hbuild : Expr.ofTree p.tree [] with
  | ok e counts =>
    rw [hbuild, hnone] at hgives
    obtain ⟨_, hsome, _⟩ := hgives
    cases hsome
  | error err counts =>
    rw [hbuild] at hgives haccounts
    obtain ⟨_, label, rfl⟩ := hgives
    exact ⟨label, counts, haccounts label rfl, rfl⟩

/-- A tree without such a numeral is converted, into an expression with numbers that are not negative, and announces two parts for
each sequence of the expression. -/
theorem Expr.ofTree_of_short {source : String} {t : Tree} (h : Tree.parse source = .ok t)
    (hshort : ∀ digits ∈ t.numerals, digits.length ≤ Numeral.maxDigits) :
    ∃ e, Expr.ofTree t [] = .ok e (List.replicate (e.parts.countP Expr.isSeq) 2) ∧ ∀ a ∈ e.parts, a.Literal (0 ≤ ·) := by
  obtain ⟨p, rfl, hascii⟩ := Tree.exists_phrase_of_parse h
  have hsome : p.expr?.isSome = true := by
    rw [p.isSome_expr?, List.all_eq_true]
    intro digits hdigits
    obtain ⟨hne, hdigit⟩ := hascii digits hdigits
    rw [Numeral.isSome_read?_ascii hne hdigit, decide_eq_true_eq]
    exact hshort digits hdigits
  obtain ⟨e, he⟩ := Option.isSome_iff_exists.mp hsome
  have hgives := p.gives_ofTree []
  have haccounts := Expr.accounts_ofTree p.tree []
  rw [he] at hgives
  cases hbuild : Expr.ofTree p.tree [] with
  | ok e' counts =>
    rw [hbuild] at hgives haccounts
    obtain ⟨_, heq, rfl⟩ := hgives
    obtain rfl := Option.some.inj heq
    obtain rfl : counts = List.replicate p.tree.sequences 2 := haccounts
    refine ⟨e, by rw [Phrase.countP_isSeq he], Phrase.literal_of_expr? (fun digits n htoken hread => ?_) he⟩
    exact Numeral.nonneg_of_read?_ascii (hascii digits (Phrase.mem_numerals.mpr htoken)).2 hread
  | error err counts =>
    rw [hbuild] at hgives
    cases hgives.1

/-- Grammar and conversion agree. A tree that was read from a source, and has no numeral with too many digits, is converted with
nothing left over: its literals are truth values and integers that are not negative, the durations of its notes are not negative, and
no value stands where an expression is expected. What is printed is one line for each sequence of the expression. A tree with such a
numeral is not converted, and the rule that is named is that of an integer or of a note. -/
theorem Tree.conversion {source : String} {t : Tree} (hparse : Tree.parse source = .ok t) (w : World) :
    ((∀ digits ∈ t.numerals, digits.length ≤ Numeral.maxDigits) →
      ∃ d e counts, Draft.ofTree t [] = .ok d counts ∧ d.leftovers = [] ∧ d.toExpr? = some e ∧
        (∀ v, .lit v ∈ e.parts → (∃ b, v = .bool b) ∨ ∃ n, 0 ≤ n ∧ v = .int n) ∧
        (∀ pitch duration, .note pitch duration ∈ e.parts → 0 ≤ duration) ∧ (∀ v, .stray v ∉ e.parts) ∧
        Program.convert t w = (.ok e, w.print (Text.repeated "2\n" (e.parts.countP Expr.isSeq)))) ∧
    ((∃ digits ∈ t.numerals, Numeral.maxDigits < digits.length) →
      ∃ label, (label = "int" ∨ label = "note") ∧ (Program.convert t w).1 = .error (.failed label .notNumeral)) := by
  constructor
  · intro hshort
    obtain ⟨e, hbuild, hliteral⟩ := Expr.ofTree_of_short hparse hshort
    obtain ⟨d, hdraft, hd⟩ := Expr.exists_draft hbuild
    refine ⟨d, e, _, hdraft, Draft.leftovers_of_toExpr? hd, hd, fun v hv => ?_, fun _ _ hnote => hliteral _ hnote,
      fun _ hstray => hliteral _ hstray, ?_⟩
    · have hv := hliteral _ hv
      cases v with
      | int n => exact .inr ⟨n, hv, rfl⟩
      | bool b => exact .inl ⟨b, rfl⟩
      | _ => exact hv.elim
    · rw [Program.convert, hbuild, ← Program.announcements_replicate]
  · intro hlong
    obtain ⟨label, counts, hlabel, hbuild⟩ := Expr.ofTree_of_long hparse hlong
    exact ⟨label, hlabel, by rw [Program.convert, hbuild]⟩

/-- Two sequences, with the digits of a note's duration left open. -/
def Phrase.sketch (digits : String) : Phrase :=
  .sign .seq (.assign "x" (.int "07")) (.sign .seq (.lead .display (.note "C4" digits)) (.name "true"))

/-- A numeral with so many digits. -/
def Numeral.nines (k : Nat) : String := String.ofList (List.replicate k '9')

theorem Phrase.parse_sketch (k : Nat) :
    Tree.parse (Token.print (Phrase.sketch (Numeral.nines (k + 1))).tokens) = .ok (Phrase.sketch (Numeral.nines (k + 1))).tree := by
  have hfits : (Phrase.sketch (Numeral.nines (k + 1))).Fits := by
    simp only [Phrase.sketch, Phrase.Fits, Phrase.level, true_and]
    decide
  have hname : ∀ x ∈ ["x", "C4", "true"], Token.Stands ⟨.name, x⟩ := by
    show ∀ x ∈ ["x", "C4", "true"], Lexeme.isIdentifier x = true
    decide
  have hseven : Token.Stands ⟨.int, "07"⟩ := ⟨by decide, List.all_eq_true.mp (by decide)⟩
  have hdigits : Token.Stands ⟨.int, Numeral.nines (k + 1)⟩ := by
    simp [Token.Stands, Numeral.nines, List.mem_replicate, Lexeme.isDigit]
  have hfixed : ∀ t ∈ [Terminal.assign, .semicolon, .showWord, .lpar, .comma, .rpar], t.token.Stands := by
    intro t ht
    refine Terminal.stands_token ?_
    revert t
    decide
  refine Phrase.parse_print hfits ?_
  simp [Phrase.sketch, Phrase.tokens, Sign.terminal, Lead.terminal, hname, hseven, hdigits, hfixed]

/-- The sketch is converted when its numeral is as long as it may be, and not when it has one digit more. -/
theorem Tree.conversion_sketch :
    (∃ e, Program.convert (Phrase.sketch (Numeral.nines 4300)).tree {} =
      (.ok e, World.print {} (Text.repeated "2\n" (e.parts.countP Expr.isSeq)))) ∧
    ∃ label, (label = "int" ∨ label = "note") ∧
      (Program.convert (Phrase.sketch (Numeral.nines 4301)).tree {}).1 = .error (.failed label .notNumeral) := by
  have hnumerals : ∀ k, (Phrase.sketch (Numeral.nines k)).tree.numerals = ["07", Numeral.nines k] := by
    intro k
    simp [Phrase.sketch, Phrase.tree, Tree.ofName, Tree.numerals, Tree.allNumerals]
  have hlength : ∀ k, (Numeral.nines k).length = k := by
    intro k
    simp [Numeral.nines]
  constructor
  · obtain ⟨_, e, _, _, _, _, _, _, _, hconvert⟩ := (Tree.conversion (Phrase.parse_sketch 4299) {}).1 (by
      rw [hnumerals]
      have hseven : "07".length ≤ 4300 := by decide
      simp [hlength, hseven, Numeral.maxDigits])
    exact ⟨e, hconvert⟩
  · refine (Tree.conversion (Phrase.parse_sketch 4300) {}).2 ⟨Numeral.nines 4301, ?_, ?_⟩
    · rw [hnumerals]
      simp
    · rw [hlength]
      decide

end TuneLang
