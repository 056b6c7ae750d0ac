import TuneLang.Proofs.Expr.RoundTrip

/-!
# Identifiers

A source that consists of one identifier is the variable of that name, as long as the identifier does not begin with a hard word
(`Expr.identifier_iff`). It may begin with any other word, since the longest name is read before it is compared with the words; but a
hard word is cut off whatever follows it, and no name begins with one.
-/

namespace TuneLang

/-- Whether a text has the form of a name: a letter or an underscore, with letters, digits and underscores behind it. -/
def Lexeme.hasNameForm (x : String) : Bool :=
  match x.toList with
  | [] => false
  | c :: cs => Lexeme.isNameStart c && cs.all Lexeme.isNameChar

/-- The words that have a meaning of their own where an expression is looked for, or within one. -/
def Lexeme.keywords : List String :=
  ["if", "then", "else", "let", "letfun", "in", "end", "show", "write", "run", "repeat", "reverse", "true", "false", "read"]

theorem Terminal.softWords_keywords : ∀ w ∈ Terminal.softWords, w.fixedText ∈ Lexeme.keywords := by decide

/-- A text of the form of a name that is no keyword and begins with no hard word is an identifier wherever it stands. -/
theorem Lexeme.isIdentifier_of_form {x : String} (hform : Lexeme.hasNameForm x = true) (hword : x ∉ Lexeme.keywords)
    (hhard : ∀ w ∈ Terminal.hardWords, ¬ w.fixedText.toList <+: x.toList) : Lexeme.isIdentifier x = true := by
  have hsoft : ∀ w ∈ Terminal.softWords, w.fixedText ≠ x := fun w hw heq => hword (heq ▸ Terminal.softWords_keywords w hw)
  unfold Lexeme.hasNameForm at hform
  unfold Lexeme.isIdentifier
  cases htext : x.toList with
  | nil =>
    rw [htext] at hform
    cases hform
  | cons c cs =>
    rw [htext] at hform hhard
    simp only [hform, Bool.true_and, Bool.and_eq_true, Bool.not_eq_true', List.any_eq_false, beq_iff_eq]
    exact ⟨fun w hw hstarts => hhard w hw (List.isPrefixOf_iff_prefix.mp hstarts), hsoft⟩

/-- A name that is no keyword stands for itself. -/
theorem Expr.ofName_eq {x : String} (hword : x ∉ Lexeme.keywords) : Expr.ofName x = .name x := by
  simp only [Lexeme.keywords, List.mem_cons, not_or] at hword
  simp [Expr.ofName, hword]

/-- What stands for a variable is the name of the variable. -/
theorem Expr.eq_of_ofName {x y : String} (h : Expr.ofName y = .name x) : y = x := by
  unfold Expr.ofName at h
  split at h
  · cases h
  · split at h
    · cases h
    · split at h
      · cases h
      · exact Expr.name.inj h

/-- The tree of a name is converted into what the name stands for. -/
theorem Expr.ofTree_ofName (x : String) : Expr.ofTree (Tree.ofName x) [] = .ok (Expr.ofName x) [] := by
  have hdraft : Draft.ofTree (Tree.ofName x) [] = .ok (Draft.ofName (.text x)) [] := rfl
  have hshows : (Draft.ofName (.text x)).toExpr? = some (Expr.ofName x) := Draft.shows_ofName x
  simp only [Expr.ofTree, bind, EStateM.bind, hdraft, hshows]
  rfl

/-- An identifier alone is a source, with the tree of a name. -/
theorem Tree.parse_identifier {x : String} (hx : Lexeme.isIdentifier x = true) : Tree.parse x = .ok (Tree.ofName x) := by
  have hprint : Token.print (Phrase.name x).tokens = x := by
    simp [Token.print, Phrase.tokens]
  have hparse := Phrase.parse_print (Phrase.Writes.name hx).fits (Phrase.Writes.name hx).stands
  rw [hprint] at hparse
  exact hparse

/-- A phrase that is converted into a variable has the name of the variable among its tokens. -/
theorem Phrase.name_mem_tokens {p : Phrase} {x : String} (h : p.expr? = some (.name x)) : ⟨.name, x⟩ ∈ p.tokens := by
  induction p with
  | name y =>
    obtain rfl : y = x := Expr.eq_of_ofName (Option.some.inj h)
    exact .head _
  | group e he => exact List.mem_cons_of_mem _ (List.mem_append_left _ (he h))
  | sign s l r =>
    simp only [Phrase.expr?, Option.bind_eq_bind, Option.bind_eq_some_iff, Option.pure_def, Option.some.injEq] at h
    obtain ⟨a, _, b, _, heq⟩ := h
    cases s <;> cases heq
  | lead l e =>
    simp only [Phrase.expr?, Option.bind_eq_bind, Option.bind_eq_some_iff, Option.pure_def, Option.some.injEq] at h
    obtain ⟨a, _, heq⟩ := h
    cases l <;> cases heq
  | _ => simp [Option.bind_eq_some_iff] at h

/-- A source that is read as a variable spells the name of the variable as a token, and so the name begins with no hard word. -/
theorem Expr.not_hard_of_ofTree {source x : String} {tree : Tree} {counts : List Nat} (hparse : Tree.parse source = .ok tree)
    (hbuild : Expr.ofTree tree [] = .ok (.name x) counts) : ∀ w ∈ Terminal.hardWords, ¬ w.fixedText.toList <+: x.toList := by
  obtain ⟨ts, hmatches, _, p, _, _, rfl, rfl⟩ := Tree.reads_of_parse hparse
  have hgives := p.gives_ofTree []
  rw [hbuild] at hgives
  obtain ⟨_, hexpr, rfl⟩ := hgives
  exact (hmatches _ (Phrase.name_mem_tokens hexpr)).2

/-- Identifiers as variables. A text that has the form of a name and is no keyword is read as the variable of that name exactly when
it begins with no hard word. -/
theorem Expr.identifier_iff {x : String} (hform : Lexeme.hasNameForm x = true) (hword : x ∉ Lexeme.keywords) :
    (∃ tree counts, Tree.parse x = .ok tree ∧ Expr.ofTree tree [] = .ok (.name x) counts) ↔
      ∀ w ∈ Terminal.hardWords, ¬ w.fixedText.toList <+: x.toList := by
  constructor
  · rintro ⟨tree, counts, hparse, hbuild⟩
    exact Expr.not_hard_of_ofTree hparse hbuild
  · intro hhard
    have hbuild := Expr.ofTree_ofName x
    rw [Expr.ofName_eq hword] at hbuild
    exact ⟨Tree.ofName x, [], Tree.parse_identifier (Lexeme.isIdentifier_of_form hform hword hhard), hbuild⟩

/-- A name may begin with a soft word and is still a variable; one that begins with a hard word is not. -/
theorem Expr.identifier_iff_letter :
    (Lexeme.hasNameForm "letter_2" = true ∧ "letter_2" ∉ Lexeme.keywords ∧
      ∃ tree counts, Tree.parse "letter_2" = .ok tree ∧ Expr.ofTree tree [] = .ok (.name "letter_2") counts) ∧
    (Lexeme.hasNameForm "runner" = true ∧ "runner" ∉ Lexeme.keywords ∧
      ¬ ∃ tree counts, Tree.parse "runner" = .ok tree ∧ Expr.ofTree tree [] = .ok (.name "runner") counts) := by
  have hform : Lexeme.hasNameForm "letter_2" = true := by decide
  have hword : "letter_2" ∉ Lexeme.keywords := by decide
  have hform' : Lexeme.hasNameForm "runner" = true := by decide
  have hword' : "runner" ∉ Lexeme.keywords := by decide
  have hsoft : ∀ w ∈ Terminal.hardWords, ¬ w.fixedText.toList <+: "letter_2".toList := by decide
  have hhard : Terminal.runWord.fixedText.toList <+: "runner".toList := by decide
  refine ⟨⟨hform, hword, (Expr.identifier_iff hform hword).mpr hsoft⟩, hform', hword', fun hread => ?_⟩
  exact (Expr.identifier_iff hform' hword').mp hread .runWord (by decide) hhard

end TuneLang
