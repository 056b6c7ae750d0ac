import TuneLang.Proofs.Expr.Plain
import TuneLang.Proofs.Grammar.Printing

/-!
# Layout between tokens

Layout may be put in front of any token of a source, and the source is read as before: the tokens behind the place are where they were,
and those before it end where they ended, though they may have been glued to what followed. For a token is the longest text that fits,
and no layout is part of a text (`Token.first?_widened`). Paths are the exception, as a line end or the sign of a comment can be part of
one, and so sources are left aside whose tree records a tune or plays a file (`Tree.parse_widened`).
-/

namespace TuneLang

/-! ## Sources with more layout -/

/-- Whether a source is another one with layout put in at one place. -/
def Layout.Widens (cs wider : List Char) : Prop :=
  ∃ front gap behind, Layout.Gap false gap ∧ cs = front ++ behind ∧ wider = front ++ (gap ++ behind)

namespace Layout

/-- Layout that ends before a token begins with a space or the sign of a comment. -/
theorem Gap.begins {c : Char} {gap : List Char} (h : Layout.Gap false (c :: gap)) : Layout.isSpace c = true ∨ c = '#' := by
  cases h with
  | space hspace => exact .inl hspace
  | comment => exact .inr rfl
  | last hfinal => cases hfinal

/-- Layout in front of layout. -/
theorem Gap.append {gap more : List Char} (h : Layout.Gap false gap) (hmore : Layout.Gap false more) :
    Layout.Gap false (gap ++ more) := by
  induction h with
  | nil => exact hmore
  | space hspace _ ih => exact .space hspace ih
  | comment htext _ ih =>
    rw [List.cons_append, List.append_assoc]
    exact .comment htext ih
  | last hfinal => cases hfinal

/-- In a comment, the rest of its line is skipped. -/
theorem rest_comment {text cs : List Char} (h : '\n' ∉ text) :
    Layout.rest true true (text ++ '\n' :: cs) = Layout.rest true false cs := by
  induction text with
  | nil => rfl
  | cons c text ih =>
    obtain ⟨hc, htext⟩ := List.ne_and_not_mem_of_not_mem_cons h
    have hgoes : (c != '\n') = true := bne_iff_ne.mpr hc.symm
    rw [List.cons_append, Layout.rest, hgoes]
    exact ih htext

/-- Layout is skipped. -/
theorem rest_gap {gap : List Char} (h : Layout.Gap false gap) (cs : List Char) :
    Layout.rest true false (gap ++ cs) = Layout.rest true false cs := by
  induction h with
  | nil => rfl
  | space hspace _ ih =>
    rw [List.cons_append, Layout.rest, if_pos hspace]
    exact ih
  | @comment text behind htext _ ih =>
    have hline : Layout.rest true false ('\n' :: (behind ++ cs)) = Layout.rest true false (behind ++ cs) := rfl
    have hsign : Layout.rest true false ('#' :: (text ++ '\n' :: (behind ++ cs))) =
        Layout.rest true true (text ++ '\n' :: (behind ++ cs)) := rfl
    rw [List.cons_append, List.append_assoc, List.cons_append, hsign, Layout.rest_comment htext, ← hline]
    exact ih
  | last hfinal => cases hfinal

/-- What is left of a source begins with no layout. -/
theorem rest_begins {cs ds : List Char} {c : Char} (inComment : Bool) (h : Layout.rest true inComment cs = c :: ds) :
    Layout.isSpace c = false ∧ c ≠ '#' := by
  induction cs generalizing inComment with
  | nil => cases inComment <;> cases h
  | cons d cs ih =>
    cases inComment with
    | true => exact ih (d != '\n') h
    | false =>
      unfold Layout.rest at h
      split at h
      · exact ih false h
      · split at h
        · exact ih true h
        · rename_i hspace hsign
          cases h
          exact ⟨Bool.not_eq_true _ ▸ hspace, by simpa using hsign⟩

/-- Nothing is skipped where no layout begins. -/
theorem rest_of_begins {c : Char} (hspace : Layout.isSpace c = false) (hsign : c ≠ '#') (cs : List Char) :
    Layout.rest true false (c :: cs) = c :: cs := by
  simp [Layout.rest, hspace, hsign]

namespace Widens

variable {cs wider : List Char}

theorem append_left (h : Layout.Widens cs wider) (text : List Char) : Layout.Widens (text ++ cs) (text ++ wider) := by
  obtain ⟨front, gap, behind, hgap, rfl, rfl⟩ := h
  exact ⟨text ++ front, gap, behind, hgap, (List.append_assoc ..).symm, (List.append_assoc ..).symm⟩

/-- The wider source begins as the source does, or with layout. -/
theorem begins (h : Layout.Widens cs wider) {c : Char} (hc : c ∈ wider.head?) :
    c ∈ cs.head? ∨ Layout.isSpace c = true ∨ c = '#' := by
  obtain ⟨front, gap, behind, hgap, rfl, rfl⟩ := h
  cases front with
  | cons d front => exact .inl hc
  | nil =>
    cases gap with
    | nil => exact .inl hc
    | cons d gap =>
      obtain rfl : d = c := Option.some.inj hc
      exact .inr hgap.begins

/-- A run of characters, none of them layout, is as long as before. -/
theorem takeWhile (h : Layout.Widens cs wider) {p : Char → Bool} (hp : ∀ c, Layout.isSpace c = true ∨ c = '#' → p c = false)
    {text : List Char} (htext : (text ++ cs).takeWhile p = text) : (text ++ wider).takeWhile p = text := by
  have hall : ∀ c ∈ text, p c = true := by
    intro c hc
    rw [← htext] at hc
    exact List.all_eq_true.mp List.all_takeWhile c hc
  have hends : ∀ c ∈ cs.head?, p c = false := by
    intro c hc
    rw [List.takeWhile_append_of_pos hall, List.append_right_eq_self] at htext
    cases cs with
    | nil => cases hc
    | cons d cs =>
      obtain rfl : d = c := Option.some.inj hc
      refine Bool.eq_false_iff.mpr fun htrue => ?_
      rw [List.takeWhile_cons_of_pos htrue] at htext
      cases htext
  rw [List.takeWhile_append_of_pos hall, List.append_right_eq_self]
  cases hwider : wider with
  | nil => rfl
  | cons c rest =>
    have hc : p c = false := by
      rcases h.begins (c := c) (by rw [hwider]; rfl) with hc | hc
      · exact hends c hc
      · exact hp c hc
    exact List.takeWhile_cons_of_neg (Bool.not_eq_true _ ▸ hc)

/-- A text without layout that stands in front of the wider source stood in front of the source. -/
theorem front (h : Layout.Widens cs wider) {text : List Char} (hlayout : ∀ c ∈ text, Layout.isSpace c = false ∧ c ≠ '#')
    (htext : text <+: wider) : text <+: cs := by
  obtain ⟨front, gap, behind, hgap, rfl, rfl⟩ := h
  cases gap with
  | nil => exact htext
  | cons d gap =>
    rcases List.prefix_or_prefix_of_prefix htext (List.prefix_append front _) with hfront | ⟨more, rfl⟩
    · exact hfront.trans (List.prefix_append front behind)
    · -- what goes on behind the place would begin with the layout
      rw [List.prefix_append_right_inj] at htext
      cases more with
      | nil => simp
      | cons c more =>
        obtain rfl : c = d := (List.cons_prefix_cons.mp htext).1
        obtain ⟨hspace, hsign⟩ := hlayout c (List.mem_append_right _ (.head _))
        rcases hgap.begins with hc | hc
        · rw [hspace] at hc
          cases hc
        · exact absurd hc hsign

end Widens

end Layout

/-! ## Tokens -/

/-- No character of a name or an integer is layout. -/
theorem Lexeme.not_layout {c : Char} (h : Layout.isSpace c = true ∨ c = '#') :
    Lexeme.isNameChar c = false ∧ Lexeme.isDigit c = false := by
  obtain ⟨hstart, hdigit⟩ := Layout.not_begin h
  exact ⟨by rw [Lexeme.isNameChar, hstart, hdigit]; rfl, hdigit⟩

/-- Words and signs that a hard word begins with are that word. -/
theorem Terminal.eq_of_front_hardWord : ∀ t ∈ Terminal.fixed, ∀ w ∈ Terminal.hardWords,
    t.fixedText.toList <+: w.fixedText.toList → w.fixedText.toList <+: t.fixedText.toList := by decide +kernel

theorem Terminal.layout_not_mem {t : Terminal} (h : t ∈ Terminal.fixed) :
    ∀ c ∈ t.fixedText.toList, Layout.isSpace c = false ∧ c ≠ '#' := fun c hc =>
  ⟨(Terminal.fixedText_chars t h c hc).1, (Terminal.fixedText_chars t h c hc).2.2⟩

theorem Terminal.fixed_of_hardWords : ∀ w ∈ Terminal.hardWords, w ∈ Terminal.fixed := by decide

/-- What it means for a token to stand in front of a source where no path is looked for: a name stands there, or a word that is read as
one; or an integer and no name; or neither, and it is the first of the fixed texts that fit. -/
theorem Token.first?_eq_some_iff {allowed : List Terminal} {cs : List Char} {t : Token} (hpath : .path ∉ allowed) :
    Token.first? allowed cs = some t ↔
      (.name ∈ allowed ∧ t.text.toList ≠ [] ∧ Lexeme.name cs = t.text.toList ∧
        Lexeme.wordOrName (Terminal.softWords.filter allowed.contains) t.text.toList = t.terminal) ∨
      ((.name ∈ allowed → Lexeme.name cs = []) ∧ .int ∈ allowed ∧ t.text.toList ≠ [] ∧ Lexeme.int cs = t.text.toList ∧
        t.terminal = .int) ∨
      ((.name ∈ allowed → Lexeme.name cs = []) ∧ (.int ∈ allowed → Lexeme.int cs = []) ∧
        Terminal.fixed.find? (fun u => allowed.contains u && Lexeme.startsWith u cs) = some t.terminal ∧
        t.text = t.terminal.fixedText) := by
  obtain ⟨terminal, text⟩ := t
  simp only [Token.first?, Bool.and_eq_true, Bool.not_eq_true', List.contains_iff_mem, List.isEmpty_eq_false_iff, hpath, false_and,
    if_false]
  by_cases hname : .name ∈ allowed ∧ Lexeme.name cs ≠ []
  · rw [if_pos hname]
    constructor
    · intro h
      cases h
      rw [String.toList_ofList]
      exact .inl ⟨hname.1, hname.2, rfl, rfl⟩
    · rintro (⟨_, _, htext, hterminal⟩ | ⟨hnone, _⟩ | ⟨hnone, _⟩)
      · rw [htext, hterminal, String.ofList_toList]
      · exact absurd (hnone hname.1) hname.2
      · exact absurd (hnone hname.1) hname.2
  · have hnone : .name ∈ allowed → Lexeme.name cs = [] := fun hallowed => Classical.byContradiction fun hne => hname ⟨hallowed, hne⟩
    have hnot : ¬ (.name ∈ allowed ∧ text.toList ≠ [] ∧ Lexeme.name cs = text.toList ∧
        Lexeme.wordOrName (Terminal.softWords.filter allowed.contains) text.toList = terminal) :=
      fun h => h.2.1 (h.2.2.1 ▸ hnone h.1)
    rw [if_neg hname, or_iff_right hnot]
    by_cases hint : .int ∈ allowed ∧ Lexeme.int cs ≠ []
    · rw [if_pos hint]
      constructor
      · intro h
        cases h
        rw [String.toList_ofList]
        exact .inl ⟨hnone, hint.1, hint.2, rfl, rfl⟩
      · rintro (⟨_, _, _, htext, hterminal⟩ | ⟨_, hnoint, _⟩)
        · rw [htext, hterminal, String.ofList_toList]
        · exact absurd (hnoint hint.1) hint.2
    · have hnoint : .int ∈ allowed → Lexeme.int cs = [] := fun hallowed => Classical.byContradiction fun hne => hint ⟨hallowed, hne⟩
      rw [if_neg hint, Option.map_eq_some_iff]
      constructor
      · rintro ⟨u, hfind, htoken⟩
        cases htoken
        exact .inr ⟨hnone, hnoint, hfind, rfl⟩
      · rintro (⟨_, hallowed, hne, htext, _⟩ | ⟨_, _, hfind, htext⟩)
        · exact absurd (htext ▸ hnoint hallowed) hne
        · exact ⟨terminal, hfind, htext ▸ rfl⟩

section Widened

variable {cs wider : List Char}

/-- A name ends where it ended. -/
theorem Lexeme.name_widened (h : Layout.Widens cs wider) {text : List Char} (hne : text ≠ [])
    (hname : Lexeme.name (text ++ cs) = text) : Lexeme.name (text ++ wider) = text := by
  have hstands : Lexeme.name (text ++ cs) ≠ [] := by
    rw [hname]
    exact hne
  obtain ⟨c, rest, hsource, hstart, hrun, hhard⟩ := Lexeme.name_spec hstands
  obtain ⟨d, more, rfl⟩ := List.exists_cons_of_ne_nil hne
  rw [hname] at hrun
  obtain ⟨rfl, rfl⟩ := List.cons.inj hsource
  have hmore : (more ++ wider).takeWhile Lexeme.isNameChar = more :=
    h.takeWhile (fun _ hc => (Lexeme.not_layout hc).1) (List.cons.inj hrun).2.symm
  have hwords : Terminal.hardWords.any (fun w => Lexeme.startsWith w (d :: (more ++ wider))) ≠ true := by
    intro hany
    obtain ⟨w, hw, hstarts⟩ := List.any_eq_true.mp hany
    refine hhard w hw ((h.append_left (d :: more)).front ?_ (List.isPrefixOf_iff_prefix.mp hstarts))
    exact Terminal.layout_not_mem (Terminal.fixed_of_hardWords w hw)
  rw [List.cons_append, Lexeme.name, if_neg hwords, if_pos hstart, hmore]

/-- Where a word or sign stood and no name, no name stands. -/
theorem Lexeme.no_name_widened {t : Terminal} (ht : t ∈ Terminal.fixed)
    (hname : Lexeme.name (t.fixedText.toList ++ cs) = []) : Lexeme.name (t.fixedText.toList ++ wider) = [] := by
  refine Classical.byContradiction fun hne => ?_
  obtain ⟨c, rest, hsource, hstart, _, hhard⟩ := Lexeme.name_spec hne
  obtain ⟨d, more, htext⟩ := List.exists_cons_of_ne_nil (Terminal.fixedText_ne_nil t ht)
  rw [htext, List.cons_append] at hsource hname
  obtain ⟨rfl, _⟩ := List.cons.inj hsource
  -- there was no name although one could begin here, so a hard word stood here, and it stands here still
  have hany : Terminal.hardWords.any (fun w => Lexeme.startsWith w (d :: (more ++ cs))) = true := by
    refine Classical.byContradiction fun hnone => ?_
    rw [Lexeme.name, if_neg hnone, if_pos hstart] at hname
    cases hname
  obtain ⟨w, hw, hstarts⟩ := List.any_eq_true.mp hany
  have hfront : w.fixedText.toList <+: t.fixedText.toList ++ cs := by
    rw [htext]
    exact List.isPrefixOf_iff_prefix.mp hstarts
  have hwhole : w.fixedText.toList <+: t.fixedText.toList := by
    rcases List.prefix_or_prefix_of_prefix hfront (List.prefix_append _ _) with hword | hword
    · exact hword
    · exact Terminal.eq_of_front_hardWord t ht w hw hword
  exact hhard w hw (hwhole.trans (List.prefix_append _ _))

/-- The first of the fixed texts that fits is the one that fitted. -/
theorem Terminal.find?_widened (h : Layout.Widens cs wider) {allowed : List Terminal} {t : Terminal}
    (hfind : Terminal.fixed.find? (fun u => allowed.contains u && Lexeme.startsWith u (t.fixedText.toList ++ cs)) = some t) :
    Terminal.fixed.find? (fun u => allowed.contains u && Lexeme.startsWith u (t.fixedText.toList ++ wider)) = some t := by
  obtain ⟨hfits, before, behind, hsplit, hbefore⟩ := List.find?_eq_some_iff_append.mp hfind
  refine List.find?_eq_some_iff_append.mpr ⟨?_, before, behind, hsplit, fun u hu => ?_⟩
  · have hstarts : Lexeme.startsWith t (t.fixedText.toList ++ wider) = true :=
      List.isPrefixOf_iff_prefix.mpr (List.prefix_append _ _)
    rw [Bool.and_eq_true] at hfits
    rw [hfits.1, hstarts]
    rfl
  · have hu' : u ∈ Terminal.fixed := hsplit ▸ List.mem_append_left _ hu
    have hnot := hbefore u hu
    simp only [Bool.not_eq_true', Bool.and_eq_false_iff] at hnot ⊢
    refine hnot.imp_right fun hnone => Bool.eq_false_iff.mpr fun hstarts => ?_
    have hstood := (h.append_left t.fixedText.toList).front (Terminal.layout_not_mem hu') (List.isPrefixOf_iff_prefix.mp hstarts)
    rw [Lexeme.startsWith, List.isPrefixOf_iff_prefix.mpr hstood] at hnone
    cases hnone

/-- The digits of an integer end where they ended. -/
theorem Lexeme.int_widened (h : Layout.Widens cs wider) {text : List Char} (hint : Lexeme.int (text ++ cs) = text) :
    Lexeme.int (text ++ wider) = text :=
  h.takeWhile (fun _ hc => (Lexeme.not_layout hc).2) hint

/-- A token is read as before when layout is put in somewhere behind it, where no path is looked for. -/
theorem Token.first?_widened (h : Layout.Widens cs wider) {allowed : List Terminal} {t : Token} (hpath : .path ∉ allowed)
    (hfirst : Token.first? allowed (t.text.toList ++ cs) = some t) : Token.first? allowed (t.text.toList ++ wider) = some t := by
  rw [Token.first?_eq_some_iff hpath] at hfirst ⊢
  rcases hfirst with ⟨hallowed, hne, hname, hterminal⟩ | ⟨hnone, hallowed, hne, hint, hterminal⟩ | ⟨hnone, hint, hfind, htext⟩
  · exact .inl ⟨hallowed, hne, Lexeme.name_widened h hne hname, hterminal⟩
  · have hdigits : ∀ d ∈ t.text.toList, Lexeme.isDigit d = true := by
      rw [← hint]
      exact List.all_eq_true.mp List.all_takeWhile
    exact .inr (.inl ⟨fun _ => Lexeme.name_eq_nil_of_digits hne hdigits wider, hallowed, hne, Lexeme.int_widened h hint, hterminal⟩)
  · rw [htext] at hnone hfind ⊢
    have hfixed := List.mem_of_find?_eq_some hfind
    exact .inr (.inr ⟨fun hname => Lexeme.no_name_widened hfixed (hnone hname), fun _ => Lexeme.int_eq_nil hfixed wider,
      Terminal.find?_widened h hfind, rfl⟩)

end Widened

/-! ## Trees without paths -/

mutual

/-- The rules of the nodes of a tree. -/
def Tree.rules : Tree → List Rule
  | .leaf _ _ => []
  | .node rule children => rule :: Tree.allRules children

/-- The rules of the nodes of trees. -/
def Tree.allRules : List Tree → List Rule
  | [] => []
  | t :: ts => t.rules ++ Tree.allRules ts

end

/-- Whether nothing in a tree records a tune or plays a file. -/
def Tree.isPathless (t : Tree) : Bool := t.rules.all (fun rule => decide (rule ≠ .write ∧ rule ≠ .run))

theorem Sign.rule_pathless (s : Sign) : s.terminal ≠ .path ∧ s.rule ≠ .write ∧ s.rule ≠ .run := by cases s <;> decide

theorem Lead.rule_pathless (l : Lead) : l.terminal ≠ .path ∧ l.rule ≠ .write ∧ l.rule ≠ .run := by cases l <;> decide

/-- A phrase records no tune and plays no file exactly when it has no path among its tokens. -/
theorem Phrase.isPathless_tree (p : Phrase) : p.tree.isPathless = p.tokens.all (fun t => decide (t.terminal ≠ .path)) := by
  unfold Tree.isPathless
  induction p with
  | sign s l r hl hr =>
    obtain ⟨hterminal, hwrite, hrun⟩ := s.rule_pathless
    simp_all [Phrase.tree, Phrase.tokens, Tree.rules, Tree.allRules, Terminal.token]
  | lead l e he =>
    obtain ⟨hterminal, hwrite, hrun⟩ := l.rule_pathless
    simp_all [Phrase.tree, Phrase.tokens, Tree.rules, Tree.allRules, Terminal.token]
  | _ => simp_all [Phrase.tree, Phrase.tokens, Tree.ofName, Tree.nameLeaf, Tree.intLeaf, Tree.rules, Tree.allRules, Terminal.token]

/-! ## Pieces with more layout -/

/-- Where the token that is read is no path, no path is looked for. -/
theorem Reading.path_not_allowed {r : Reading} {cs : List Char} {t : Token} (hfirst : Token.first? r.allowed cs = some t)
    (ht : t.terminal ≠ .path) : .path ∉ r.allowed := by
  intro hpath
  rw [Reading.allowed_path hpath] at hfirst
  have hnone : ∀ u ∈ Terminal.fixed, [Terminal.path].contains u = false := by decide
  have hfind : Terminal.fixed.find? (fun u => [Terminal.path].contains u && Lexeme.startsWith u cs) = none := by
    refine List.find?_eq_none.mpr fun u hu => ?_
    rw [hnone u hu]
    exact Bool.false_ne_true
  rw [Token.first?, hfind, if_neg (by simp), if_neg (by simp)] at hfirst
  split at hfirst
  · cases hfirst
    exact ht rfl
  · cases hfirst

theorem Piece.source_append (front back : List Piece) (behind : List Char) :
    Piece.source (front ++ back) behind = Piece.source front (Piece.source back behind) := by
  induction front with
  | nil => rfl
  | cons p front ih => simp only [List.cons_append, Piece.source, ih]

/-- Layout in front of a piece. -/
def Piece.widened (p : Piece) (gap : List Char) : Piece := ⟨p.gap ++ gap, p.token⟩

/-- Layout in front of a token makes the source wider. -/
theorem Piece.widens {gap : List Char} (hgap : Layout.Gap false gap) (front : List Piece) (p : Piece) (back : List Piece)
    (behind : List Char) :
    Layout.Widens (Piece.source (front ++ p :: back) behind) (Piece.source (front ++ p.widened gap :: back) behind) := by
  induction front with
  | nil =>
    refine ⟨p.gap, gap, p.token.text.toList ++ Piece.source back behind, hgap, rfl, ?_⟩
    simp only [List.nil_append, Piece.source, Piece.widened, List.append_assoc]
  | cons q front ih => exact (ih.append_left _).append_left _

/-- A piece is read with layout put in between its own layout and its token, and somewhere behind its token. -/
theorem Layout.rest_widened {gap text cs more : List Char} (hne : text ≠ [])
    (h : Layout.rest true false (gap ++ (text ++ cs)) = text ++ cs) (hmore : Layout.Gap false more) (wider : List Char) :
    Layout.rest true false (gap ++ more ++ (text ++ wider)) = text ++ wider := by
  obtain ⟨c, ds, rfl⟩ := List.exists_cons_of_ne_nil hne
  obtain ⟨hspace, hsign⟩ := Layout.rest_begins false h
  obtain ⟨front, hfront, hlayout⟩ := Layout.exists_gap true (gap ++ (c :: ds ++ cs))
  rw [h] at hfront hlayout
  obtain rfl : gap = front := List.append_cancel_right hfront
  rw [Layout.rest_gap (Layout.Gap.append hlayout hmore)]
  exact Layout.rest_of_begins hspace hsign _

/-- A source that is read as pieces without a path is read as the same pieces with more layout in front of one of them. -/
theorem Reading.Cuts.widened {tree : Tree} {behind gap : List Char} {r : Reading} {front back : List Piece} {p : Piece}
    (hgap : Layout.Gap false gap) (h : Reading.Cuts tree behind r (front ++ p :: back))
    (hpath : ∀ q ∈ front ++ p :: back, q.token.terminal ≠ .path) :
    Reading.Cuts tree behind r (front ++ p.widened gap :: back) := by
  induction front generalizing r with
  | nil =>
    cases h with
    | piece hrest hfirst hfeed hps =>
      have hcomments : Layout.hasComments r.allowed = true := by
        simp [Layout.hasComments, Reading.path_not_allowed hfirst (hpath p (.head _))]
      rw [hcomments] at hrest
      refine .piece ?_ hfirst hfeed hps
      rw [hcomments]
      exact Layout.rest_widened (Token.first?_spec hfirst).2.1 hrest hgap _
  | cons q front ih =>
    cases h with
    | piece hrest hfirst hfeed hps =>
      obtain ⟨hq, hpath⟩ := List.forall_mem_cons.mp hpath
      have hallowed := Reading.path_not_allowed hfirst hq
      have hcomments : Layout.hasComments r.allowed = true := by simp [Layout.hasComments, hallowed]
      rw [hcomments] at hrest
      refine .piece ?_ (Token.first?_widened (Piece.widens hgap front p back behind) hallowed hfirst) hfeed (ih hps hpath)
      rw [hcomments]
      have hwider := Layout.rest_widened (Token.first?_spec hfirst).2.1 hrest .nil (Piece.source (front ++ p.widened gap :: back) behind)
      rw [List.append_nil] at hwider
      exact hwider

/-- A source whose tree is without paths has no path among the tokens it is read as. -/
theorem Reading.Cuts.no_path {tree : Tree} {behind : List Char} {ps : List Piece} (h : Reading.Cuts tree behind .start ps)
    (hpath : tree.isPathless = true) : ∀ p ∈ ps, p.token.terminal ≠ .path := by
  obtain ⟨phrase, _, _, htokens, rfl⟩ := h.reads Reading.holds_start
  rw [phrase.isPathless_tree, htokens, List.nil_append, List.all_map] at hpath
  intro p hp
  exact of_decide_eq_true (List.all_eq_true.mp hpath p hp)

/-- Layout does not matter between tokens. A source has a tree in which nothing records a tune or plays a file. It is read as pieces,
whose tokens are those of a derivation of the tree; and with any layout put in right before the token of any of them it has the same
tree, and is read into the same expression. -/
theorem Tree.parse_widened {source : String} {tree : Tree} (h : Tree.parse source = .ok tree) (hpath : tree.isPathless = true) :
    (∃ (ps : List Piece) (behind : List Char), source.toList = Piece.source ps behind ∧ Reading.Cuts tree behind .start ps ∧
      ∃ d : Derivation Token, d.Of Token.terminal (.phrase .start) ∧ d.trees = [tree] ∧ d.leaves = ps.map Piece.token) ∧
    ∀ (front back : List Piece) (p : Piece) (behind gap : List Char) (wider : String),
      source.toList = Piece.source (front ++ p :: back) behind → Reading.Cuts tree behind .start (front ++ p :: back) →
      Layout.Gap false gap →
      wider.toList = Piece.source front (p.gap ++ (gap ++ (p.token.text.toList ++ Piece.source back behind))) →
      Tree.parse wider = .ok tree ∧ Expr.ofSource? wider = Expr.ofSource? source := by
  constructor
  · obtain ⟨ps, behind, hsource, hcuts⟩ := Reading.exists_cuts h
    obtain ⟨phrase, hfits, _, htokens, rfl⟩ := hcuts.reads Reading.holds_start
    exact ⟨ps, behind, hsource, hcuts, phrase.parse, Phrase.of_parse hfits, phrase.trees_parse, by rw [phrase.leaves_parse, htokens]; rfl⟩
  · intro front back p behind gap wider _ hcuts hgap hwider
    have hpieces : wider.toList = Piece.source (front ++ p.widened gap :: back) behind := by
      rw [hwider, Piece.source_append, Piece.source, Piece.widened, List.append_assoc]
    have hparse : Tree.parse wider = .ok tree := by
      rw [Tree.parse, hpieces]
      exact (hcuts.widened hgap (hcuts.no_path hpath)).run_eq _ _
    refine ⟨hparse, ?_⟩
    rw [Expr.ofSource?, Expr.ofSource?, hparse, h]

/-- A source in which a word is cut off the front of a name, and signs are glued together. -/
def Tree.gluedSource : String := "showx<-1"

/-- The tree of the glued source. -/
def Tree.gluedTree : Tree := .node .display [.node .lt [Tree.ofName "x", .node .neg [.node .int [Tree.intLeaf "1"]]]]

/-- The pieces of the glued source behind its first two. -/
def Piece.glued : List Piece := [⟨[], Terminal.less.token⟩, ⟨[], Terminal.minus.token⟩, ⟨[], ⟨.int, "1"⟩⟩]

theorem Reading.cuts_glued :
    Reading.Cuts Tree.gluedTree [] .start (⟨[], Terminal.showWord.token⟩ :: ⟨[], ⟨.name, "x"⟩⟩ :: Piece.glued) := by
  refine .piece ?_ ?_ rfl (.piece ?_ ?_ rfl (.piece ?_ ?_ rfl (.piece ?_ ?_ rfl (.piece ?_ ?_ rfl (.done rfl rfl)))))
  all_goals decide +kernel

/-- A comment between the word and the name of the glued source changes nothing. -/
theorem Tree.parse_widened_glued :
    Tree.parse Tree.gluedSource = .ok Tree.gluedTree ∧ Tree.gluedTree.isPathless = true ∧
      Tree.parse "show#the name\nx<-1" = .ok Tree.gluedTree ∧
      Expr.ofSource? "show#the name\nx<-1" = Expr.ofSource? Tree.gluedSource := by
  have hparse : Tree.parse Tree.gluedSource = .ok Tree.gluedTree := Tree.parse_of_toOption (by decide +kernel)
  have hpath : Tree.gluedTree.isPathless = true := by decide
  have htext : '\n' ∉ "the name".toList := by decide +kernel
  have hgap : Layout.Gap false ('#' :: ("the name".toList ++ ['\n'])) := .comment htext (.space (by decide) .nil)
  refine ⟨hparse, hpath, (Tree.parse_widened hparse hpath).2 [⟨[], Terminal.showWord.token⟩] Piece.glued ⟨[], ⟨.name, "x"⟩⟩ [] _ _ ?_
    Reading.cuts_glued hgap ?_⟩
  all_goals decide +kernel

end TuneLang
