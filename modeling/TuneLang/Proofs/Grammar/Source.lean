import TuneLang.Grammar.Parse
import TuneLang.Proofs.Grammar.Reading

/-!
# Sources and their tokens

A source that has a tree is spelled out by the tokens of a derivation, with nothing but layout before, between and behind them. Each
token has a text that its terminal stands for (`Token.Matches`), whatever terminals were looked for where it was read.
-/

namespace TuneLang

/-! ## Texts of tokens -/

/-- Whether a text is one of those that its terminal stands for. -/
def Token.Matches (t : Token) : Prop :=
  match t.terminal with
  | .name =>
    (∃ c cs, t.text.toList = c :: cs ∧ Lexeme.isNameStart c = true ∧ ∀ d ∈ cs, Lexeme.isNameChar d = true) ∧
      ∀ w ∈ Terminal.hardWords, ¬ w.fixedText.toList <+: t.text.toList
  | .int => t.text.toList ≠ [] ∧ ∀ d ∈ t.text.toList, Lexeme.isDigit d = true
  | .path => t.text.toList ≠ [] ∧ ∀ c ∈ t.text.toList, Lexeme.isPathChar c = true
  | k => t.text = k.fixedText

theorem Token.Matches.settled {t : Token} (h : t.Matches) : t.Settled := by
  obtain ⟨terminal, text⟩ := t
  intro hfixed
  cases terminal with
  | name | int | path => cases hfixed
  | _ => exact congrArg (Token.mk _) h

/-- The text of a terminal that has only one. -/
theorem Token.matches_fixed {t : Terminal} {text : String} (h : t.isClass = false) (htext : text = t.fixedText) :
    Token.Matches ⟨t, text⟩ := by
  cases t with
  | name | int | path => cases h
  | _ => exact htext

/-- The name in front of a source, when there is one: it stands there, and no hard word does. -/
theorem Lexeme.name_spec {cs : List Char} (h : Lexeme.name cs ≠ []) :
    ∃ c rest, cs = c :: rest ∧ Lexeme.isNameStart c = true ∧ Lexeme.name cs = c :: rest.takeWhile Lexeme.isNameChar ∧
      ∀ w ∈ Terminal.hardWords, ¬ w.fixedText.toList <+: cs := by
  cases cs with
  | nil => exact absurd rfl h
  | cons c rest =>
    rw [Lexeme.name] at h ⊢
    by_cases hhard : Terminal.hardWords.any (fun t => Lexeme.startsWith t (c :: rest)) = true
    · exact absurd (if_pos hhard) h
    · rw [if_neg hhard] at h ⊢
      by_cases hstart : Lexeme.isNameStart c = true
      · refine ⟨c, rest, rfl, hstart, if_pos hstart, fun w hw hword => hhard ?_⟩
        exact List.any_eq_true.mpr ⟨w, hw, List.isPrefixOf_iff_prefix.mpr hword⟩
      · exact absurd (if_neg hstart) h

theorem Lexeme.name_front {cs : List Char} (h : Lexeme.name cs ≠ []) : Lexeme.name cs <+: cs := by
  obtain ⟨c, rest, rfl, _, hname, _⟩ := Lexeme.name_spec h
  rw [hname]
  exact List.cons_prefix_cons.mpr ⟨rfl, List.takeWhile_prefix _⟩

/-- The name in front of a source has the form of a name. -/
theorem Lexeme.matches_name {cs : List Char} (h : Lexeme.name cs ≠ []) :
    Token.Matches ⟨.name, String.ofList (Lexeme.name cs)⟩ := by
  obtain ⟨c, rest, _, hstart, hname, hhard⟩ := Lexeme.name_spec h
  simp only [Token.Matches, String.toList_ofList]
  refine ⟨⟨c, _, hname, hstart, fun d hd => ?_⟩, fun w hw hword => ?_⟩
  · exact List.all_eq_true.mp List.all_takeWhile d hd
  · exact hhard w hw (hword.trans (Lexeme.name_front h))

/-- A run of characters in front of a source has only such characters, and stands there. -/
theorem Lexeme.run_spec (p : Char → Bool) (cs : List Char) :
    (∀ c ∈ (String.ofList (cs.takeWhile p)).toList, p c = true) ∧ (String.ofList (cs.takeWhile p)).toList <+: cs := by
  rw [String.toList_ofList]
  exact ⟨fun c hc => List.all_eq_true.mp List.all_takeWhile c hc, List.takeWhile_prefix p⟩

/-- A text that was read as a name is a name, or one of the words. -/
theorem Lexeme.matches_wordOrName {words : List Terminal} {cs : List Char} (hwords : ∀ w ∈ words, w.isClass = false)
    (h : Lexeme.name cs ≠ []) : Token.Matches ⟨Lexeme.wordOrName words (Lexeme.name cs), String.ofList (Lexeme.name cs)⟩ := by
  unfold Lexeme.wordOrName
  cases hfind : words.find? (fun t => t.fixedText.toList == Lexeme.name cs) with
  | none => exact Lexeme.matches_name h
  | some w =>
    have htext := List.find?_some hfind
    have hfixed := hwords w (List.mem_of_find?_eq_some hfind)
    have hname : String.ofList (Lexeme.name cs) = w.fixedText := by rw [← eq_of_beq htext, String.ofList_toList]
    exact Token.matches_fixed hfixed hname

theorem Terminal.isClass_softWords : ∀ w ∈ Terminal.softWords, w.isClass = false := by decide

theorem Terminal.isClass_fixed : ∀ t ∈ Terminal.fixed, t.isClass = false := by decide

theorem Terminal.fixedText_ne_nil : ∀ t ∈ Terminal.fixed, t.fixedText.toList ≠ [] := by decide

/-- The token in front of a source has a text of its terminal, and stands there. -/
theorem Token.first?_spec {allowed : List Terminal} {cs : List Char} {token : Token} (h : Token.first? allowed cs = some token) :
    token.Matches ∧ token.text.toList ≠ [] ∧ token.text.toList <+: cs := by
  unfold Token.first? at h
  split at h
  · cases h
    rename_i hname
    simp only [Bool.and_eq_true, Bool.not_eq_true', List.isEmpty_eq_false_iff] at hname
    refine ⟨Lexeme.matches_wordOrName (fun w hw => ?_) hname.2, ?_, ?_⟩
    · exact Terminal.isClass_softWords w (List.mem_filter.mp hw).1
    · simpa using hname.2
    · simpa using Lexeme.name_front hname.2
  · split at h
    · cases h
      rename_i hint
      simp only [Bool.and_eq_true, Bool.not_eq_true', List.isEmpty_eq_false_iff] at hint
      have hne : (String.ofList (Lexeme.int cs)).toList ≠ [] := by simpa using hint.2
      obtain ⟨hdigits, hfront⟩ := Lexeme.run_spec Lexeme.isDigit cs
      exact ⟨⟨hne, hdigits⟩, hne, hfront⟩
    · split at h
      · cases h
        rename_i hpath
        simp only [Bool.and_eq_true, Bool.not_eq_true', List.isEmpty_eq_false_iff] at hpath
        have hne : (String.ofList (Lexeme.path cs)).toList ≠ [] := by simpa using hpath.2
        obtain ⟨hchars, hfront⟩ := Lexeme.run_spec Lexeme.isPathChar cs
        exact ⟨⟨hne, hchars⟩, hne, hfront⟩
      · obtain ⟨t, hfind, rfl⟩ := Option.map_eq_some_iff.mp h
        have hmem := List.mem_of_find?_eq_some hfind
        have hstarts := List.find?_some hfind
        simp only [Bool.and_eq_true] at hstarts
        exact ⟨Token.matches_fixed (Terminal.isClass_fixed t hmem) rfl, Terminal.fixedText_ne_nil t hmem,
          List.isPrefixOf_iff_prefix.mp hstarts.2⟩

/-! ## Layout -/

/-- Layout: spaces, and comments, each to the end of its line. The last comment of a source, where `final` is true, may end with
the source. -/
inductive Layout.Gap (final : Bool) : List Char → Prop where
  | nil : Gap final []
  | space {c : Char} {cs : List Char} : Layout.isSpace c = true → Gap final cs → Gap final (c :: cs)
  | comment {text cs : List Char} : '\n' ∉ text → Gap final ('\n' :: cs) → Gap final ('#' :: (text ++ '\n' :: cs))
  | last {text : List Char} : final = true → '\n' ∉ text → Gap final ('#' :: text)

/-- A comment goes on to the end of its line. -/
theorem Layout.Gap.cons {final : Bool} {c : Char} {cs : List Char} (hc : c ≠ '\n') (h : Layout.Gap final ('#' :: cs)) :
    Layout.Gap final ('#' :: c :: cs) := by
  cases h with
  | space hspace => exact absurd hspace (by decide)
  | comment htext hrest => exact Layout.Gap.comment (List.not_mem_cons_of_ne_of_not_mem hc.symm htext) hrest
  | last hfinal htext => exact .last hfinal (List.not_mem_cons_of_ne_of_not_mem hc.symm htext)

/-- What is skipped in front of a source is layout. -/
theorem Layout.exists_gap (comments : Bool) (cs : List Char) :
    ∃ gap, cs = gap ++ Layout.rest comments false cs ∧ Layout.Gap (Layout.rest comments false cs).isEmpty gap := by
  -- in a comment, the layout together with the sign that began the comment
  suffices h : ∀ inComment, ∃ gap, cs = gap ++ Layout.rest comments inComment cs ∧
      Layout.Gap (Layout.rest comments inComment cs).isEmpty (if inComment then '#' :: gap else gap) from h false
  induction cs with
  | nil =>
    intro inComment
    cases inComment with
    | false => exact ⟨[], rfl, .nil⟩
    | true => exact ⟨[], rfl, .last rfl (by simp)⟩
  | cons c cs ih =>
    intro inComment
    cases inComment with
    | true =>
      obtain ⟨gap, hcs, hgap⟩ := ih (c != '\n')
      refine ⟨c :: gap, congrArg (c :: ·) hcs, ?_⟩
      by_cases hc : c = '\n'
      · subst hc
        exact Layout.Gap.comment List.not_mem_nil (.space (by decide) hgap)
      · rw [if_pos (bne_iff_ne.mpr hc)] at hgap
        exact hgap.cons hc
    | false =>
      unfold Layout.rest
      split
      · rename_i hspace
        obtain ⟨gap, hcs, hgap⟩ := ih false
        exact ⟨c :: gap, congrArg (c :: ·) hcs, .space hspace hgap⟩
      · split
        · rename_i hcomment
          simp only [Bool.and_eq_true, beq_iff_eq] at hcomment
          obtain ⟨gap, hcs, hgap⟩ := ih true
          exact ⟨c :: gap, congrArg (c :: ·) hcs, hcomment.2 ▸ hgap⟩
        · exact ⟨[], rfl, .nil⟩

/-! ## Sources -/

/-- Whether a source consists of the texts of tokens, in order, with layout before, between and behind them. -/
inductive Token.Spelled : List Token → List Char → Prop where
  | done {gap : List Char} : Layout.Gap true gap → Spelled [] gap
  | cons {gap : List Char} {t : Token} {ts : List Token} {cs : List Char} :
    Layout.Gap false gap → Spelled ts cs → Spelled (t :: ts) (gap ++ (t.text.toList ++ cs))

/-- What reading the rest of a source comes to: the source ends, or a token is read and the rest behind it. -/
theorem Reading.run_cases {source cs : List Char} {r : Reading} {here last : Position} {tree : Tree}
    (h : Reading.run source r here last cs = .ok tree) :
    (Layout.rest (Layout.hasComments r.allowed) false cs = [] ∧ r.end? = some tree) ∨
      ∃ token rest r' here' last', Token.first? r.allowed (Layout.rest (Layout.hasComments r.allowed) false cs) = some token ∧
        r.feed? token = some r' ∧ Layout.rest (Layout.hasComments r.allowed) false cs = token.text.toList ++ rest ∧
        Reading.run source r' here' last' rest = .ok tree := by
  rw [Reading.run] at h
  split at h
  · rename_i hrest
    split at h
    · rename_i hend
      cases h
      exact Or.inl ⟨hrest, hend⟩
    · cases h
  · rename_i c rest hrest
    rw [hrest]
    split at h
    · cases h
    · rename_i token hfirst
      split at h
      · cases h
      · rename_i r' hfeed
        obtain ⟨_, hne, behind, hbehind⟩ := Token.first?_spec hfirst
        obtain ⟨d, ds, htext⟩ := List.exists_cons_of_ne_nil hne
        have hlength : token.text.length - 1 = ds.length := by rw [← String.length_toList, htext, List.length_cons, Nat.add_sub_cancel]
        rw [htext, List.cons_append] at hbehind
        obtain ⟨rfl, rfl⟩ := List.cons.inj hbehind
        rw [hlength, List.drop_left] at h
        exact Or.inr ⟨token, behind, r', _, _, hfirst, hfeed, by rw [htext, List.cons_append], h⟩

/-- Reading goes on behind the token that stands behind the layout. -/
theorem Reading.run_of_first? {source cs rest : List Char} {r r' : Reading} {token : Token} {tree : Tree}
    (hrest : Layout.rest (Layout.hasComments r.allowed) false cs = token.text.toList ++ rest)
    (hfirst : Token.first? r.allowed (token.text.toList ++ rest) = some token) (hfeed : r.feed? token = some r')
    (hrun : ∀ here last, Reading.run source r' here last rest = .ok tree) (here last : Position) :
    Reading.run source r here last cs = .ok tree := by
  obtain ⟨_, hne, _⟩ := Token.first?_spec hfirst
  obtain ⟨c, ds, htext⟩ := List.exists_cons_of_ne_nil hne
  have hlength : token.text.length - 1 = ds.length := by rw [← String.length_toList, htext, List.length_cons, Nat.add_sub_cancel]
  rw [htext, List.cons_append] at hrest hfirst
  rw [Reading.run]
  split
  · rename_i hnil
    rw [hrest] at hnil
    cases hnil
  · rename_i c' rest' hcons
    obtain ⟨rfl, rfl⟩ := List.cons.inj (hrest.symm.trans hcons)
    simp only [hfirst, hfeed, hlength, List.drop_left, hrun]

/-- Reading ends behind the layout that ends the source. -/
theorem Reading.run_of_end {source cs : List Char} {r : Reading} {tree : Tree}
    (hrest : Layout.rest (Layout.hasComments r.allowed) false cs = []) (hend : r.end? = some tree) (here last : Position) :
    Reading.run source r here last cs = .ok tree := by
  rw [Reading.run]
  split
  · simp only [hend]
  · rename_i hcons
    rw [hrest] at hcons
    cases hcons

/-! ## Pieces -/

/-- A token of a source, and the layout in front of it. -/
structure Piece where
  gap : List Char
  token : Token
  deriving DecidableEq, Repr

/-- The source that consists of pieces and what is behind them. -/
def Piece.source : List Piece → List Char → List Char
  | [], behind => behind
  | p :: ps, behind => p.gap ++ (p.token.text.toList ++ Piece.source ps behind)

/-- Whether the source that consists of these pieces and of `behind` is read as these pieces, one after another, and has the tree. -/
inductive Reading.Cuts (tree : Tree) (behind : List Char) : Reading → List Piece → Prop where
  | done {r : Reading} (hrest : Layout.rest (Layout.hasComments r.allowed) false behind = []) (hend : r.end? = some tree) :
    Cuts tree behind r []
  | piece {r r' : Reading} {p : Piece} {ps : List Piece}
    (hrest : Layout.rest (Layout.hasComments r.allowed) false (Piece.source (p :: ps) behind) =
      p.token.text.toList ++ Piece.source ps behind)
    (hfirst : Token.first? r.allowed (p.token.text.toList ++ Piece.source ps behind) = some p.token)
    (hfeed : r.feed? p.token = some r') (hps : Cuts tree behind r' ps) : Cuts tree behind r (p :: ps)

/-- The rest of a source that has a tree is read as pieces. -/
theorem Reading.exists_cuts {source cs : List Char} {r : Reading} {here last : Position} {tree : Tree}
    (h : Reading.run source r here last cs = .ok tree) :
    ∃ ps behind, cs = Piece.source ps behind ∧ Reading.Cuts tree behind r ps := by
  induction hn : cs.length using Nat.strongRecOn generalizing cs r here last with
  | _ n ih =>
    obtain ⟨gap, hcs, _⟩ := Layout.exists_gap (Layout.hasComments r.allowed) cs
    rcases Reading.run_cases h with ⟨hrest, hend⟩ | ⟨token, rest, r', _, _, hfirst, hfeed, hrest, hrun⟩
    · exact ⟨[], cs, rfl, .done hrest hend⟩
    · obtain ⟨_, hne, _⟩ := Token.first?_spec hfirst
      have hshorter : rest.length < n := by
        have hpositive := List.length_pos_iff.mpr hne
        rw [← hn, hcs, hrest]
        simp only [List.length_append]
        omega
      obtain ⟨ps, behind, rfl, hps⟩ := ih rest.length hshorter hrun rfl
      have hsource : cs = Piece.source (⟨gap, token⟩ :: ps) behind := by
        rw [hrest] at hcs
        exact hcs
      rw [hrest] at hfirst
      rw [hsource] at hrest
      exact ⟨⟨gap, token⟩ :: ps, behind, hsource, .piece hrest hfirst hfeed hps⟩

namespace Reading.Cuts

variable {tree : Tree} {behind : List Char} {r : Reading} {ps : List Piece}

/-- A source that is read as pieces has the tree. -/
theorem run_eq {source : List Char} (h : Reading.Cuts tree behind r ps) (here last : Position) :
    Reading.run source r here last (Piece.source ps behind) = .ok tree := by
  induction h generalizing here last with
  | done hrest hend => exact Reading.run_of_end hrest hend here last
  | piece hrest hfirst hfeed _ ih => exact Reading.run_of_first? hrest hfirst hfeed ih here last

/-- The tokens of the pieces have texts of their terminals. -/
theorem matches_token (h : Reading.Cuts tree behind r ps) : ∀ t ∈ ps.map Piece.token, t.Matches := by
  induction h with
  | done => simp
  | piece _ hfirst _ _ ih => exact List.forall_mem_cons.mpr ⟨(Token.first?_spec hfirst).1, ih⟩

/-- The source is spelled by the tokens of the pieces. -/
theorem spelled (h : Reading.Cuts tree behind r ps) : Token.Spelled (ps.map Piece.token) (Piece.source ps behind) := by
  induction h with
  | @done r hrest =>
    obtain ⟨gap, hgap, hlayout⟩ := Layout.exists_gap (Layout.hasComments r.allowed) behind
    rw [hrest] at hgap hlayout
    rw [List.append_nil] at hgap
    exact .done (hgap ▸ hlayout)
  | @piece r r' p ps hrest hfirst _ _ ih =>
    obtain ⟨gap, hgap, hlayout⟩ := Layout.exists_gap (Layout.hasComments r.allowed) (Piece.source (p :: ps) behind)
    rw [hrest] at hgap hlayout
    obtain rfl : p.gap = gap := List.append_cancel_right hgap
    have hfinal : (p.token.text.toList ++ Piece.source ps behind).isEmpty = false := by simp [(Token.first?_spec hfirst).2.1]
    exact .cons (hfinal ▸ hlayout) ih

/-- The tokens of the pieces complete those that were read before to the tokens of a phrase. -/
theorem reads {ts : List Token} (h : Reading.Cuts tree behind r ps) (hr : r.Holds ts) :
    tree.Reads .sequence (ts ++ ps.map Piece.token) := by
  induction h generalizing ts with
  | done _ hend => exact (List.append_nil ts).symm ▸ hr.finish hend
  | piece _ hfirst hfeed _ ih =>
    have htree := ih (hr.feed (Token.first?_spec hfirst).1.settled hfeed)
    rw [List.append_assoc] at htree
    exact htree

end Reading.Cuts

/-- The rest of a source that has a tree is spelled by tokens that complete the tokens before it to those of a phrase. -/
theorem Reading.run_sound {source cs : List Char} {r : Reading} {here last : Position} {tree : Tree} {ts : List Token}
    (hr : r.Holds ts) (h : Reading.run source r here last cs = .ok tree) :
    ∃ more, (∀ t ∈ more, t.Matches) ∧ Token.Spelled more cs ∧ tree.Reads .sequence (ts ++ more) := by
  obtain ⟨ps, behind, rfl, hps⟩ := Reading.exists_cuts h
  exact ⟨ps.map Piece.token, hps.matches_token, hps.spelled, hps.reads hr⟩

/-- A source with a tree is spelled by the tokens of a phrase with that tree. -/
theorem Tree.reads_of_parse {source : String} {tree : Tree} (h : Tree.parse source = .ok tree) :
    ∃ ts, (∀ t ∈ ts, t.Matches) ∧ Token.Spelled ts source.toList ∧ tree.Reads .sequence ts :=
  Reading.run_sound Reading.holds_start h

/-- A tree that reading comes to. -/
theorem Tree.parse_of_toOption {source : String} {tree : Tree} (h : (Tree.parse source).toOption = some tree) :
    Tree.parse source = .ok tree := by
  cases hparse : Tree.parse source with
  | error e =>
    rw [hparse] at h
    cases h
  | ok t =>
    rw [hparse] at h
    exact congrArg Except.ok (Option.some.inj h)

/-- Reading is sound for the grammar. A source with a tree has a derivation from the start that gives the tree, each of whose tokens
has a text of its terminal; and the source is these texts in order, with nothing but layout before, between and behind them. -/
theorem Tree.parse_sound {source : String} {tree : Tree} (h : Tree.parse source = .ok tree) :
    ∃ d : Derivation Token, d.Of Token.terminal (.phrase .start) ∧ d.trees = [tree] ∧ (∀ t ∈ d.leaves, t.Matches) ∧
      Token.Spelled d.leaves source.toList := by
  obtain ⟨ts, hmatches, hspelled, p, hp, _, rfl, rfl⟩ := Tree.reads_of_parse h
  refine ⟨p.parse, Phrase.of_parse hp, p.trees_parse, ?_, ?_⟩
  · rw [p.leaves_parse]
    exact hmatches
  · rw [p.leaves_parse]
    exact hspelled

/-- A source in which a word stands for a name, tokens are glued together, and a path begins like a comment. -/
def Tree.tightSource : String := "let then=(C4,2)in#comment\nwrite then|(reverse then):#a end"

/-- The tree of the tight source. -/
def Tree.tightTree : Tree :=
  .node .letIn [Tree.nameLeaf "then", .node .note [Tree.nameLeaf "C4", Tree.intLeaf "2"],
    .node .write [.node .join [Tree.ofName "then", .node .reverse [Tree.ofName "then"]], Tree.pathLeaf "#a"]]

/-- The tight source is spelled by the tokens of a derivation. -/
theorem Tree.parse_sound_tight :
    Tree.parse Tree.tightSource = .ok Tree.tightTree ∧
      ∃ d : Derivation Token, d.Of Token.terminal (.phrase .start) ∧ d.trees = [Tree.tightTree] ∧
        (∀ t ∈ d.leaves, t.Matches) ∧ Token.Spelled d.leaves Tree.tightSource.toList := by
  have h : Tree.parse Tree.tightSource = .ok Tree.tightTree := Tree.parse_of_toOption (by decide +kernel)
  exact ⟨h, Tree.parse_sound h⟩

end TuneLang
