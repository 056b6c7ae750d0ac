import TuneLang.Proofs.Grammar.Completeness
import TuneLang.Proofs.Grammar.Source

/-!
# Printed tokens

Tokens are printed with one space between them. Each of them is read back where it is looked for, as long as names are no words of
the language and paths do not begin with a space (`Token.first?_of_stands`); so a phrase that fits is read back from its tokens
(`Phrase.parse_print`).
-/

namespace TuneLang

/-- The source that consists of tokens with one space between them. -/
def Token.print (ts : List Token) : String := " ".intercalate (ts.map Token.text)

/-- Whether a text is a name wherever it stands: it has the form of a name, does not begin with a hard word, and is no soft word. -/
def Lexeme.isIdentifier (x : String) : Bool :=
  match x.toList with
  | [] => false
  | c :: cs =>
    Lexeme.isNameStart c && cs.all Lexeme.isNameChar && !Terminal.hardWords.any (fun w => Lexeme.startsWith w (c :: cs)) &&
      !Terminal.softWords.any (fun w => w.fixedText == x)

/-- Whether a text is a path wherever it stands. -/
def Lexeme.isFilePath (p : String) : Bool :=
  match p.toList with
  | [] => false
  | c :: cs => !Layout.isSpace c && (c :: cs).all Lexeme.isPathChar

/-- Whether a token can be read back wherever it is looked for. -/
def Token.Stands (t : Token) : Prop :=
  match t.terminal with
  | .name => Lexeme.isIdentifier t.text = true
  | .path => Lexeme.isFilePath t.text = true
  | .int => t.text.toList ≠ [] ∧ ∀ d ∈ t.text.toList, Lexeme.isDigit d = true
  | k => t.text = k.fixedText

/-! ## What ends a token -/

/-- Whether a rest of a source ends the token before it. -/
def Layout.Parts (rest : List Char) : Prop := ∀ c ∈ rest.head?, c = ' '

/-- A run of characters ends at a space. -/
theorem Layout.Parts.takeWhile {rest cs : List Char} {p : Char → Bool} (hrest : Layout.Parts rest) (hspace : p ' ' = false)
    (hcs : ∀ c ∈ cs, p c = true) : (cs ++ rest).takeWhile p = cs := by
  rw [List.takeWhile_append_of_pos hcs]
  cases rest with
  | nil => simp
  | cons c rest =>
    obtain rfl : c = ' ' := hrest c rfl
    simp [hspace]

/-- A text without spaces that stands in front of a token and its rest stands in front of the token. -/
theorem Layout.Parts.front {rest cs text : List Char} (hrest : Layout.Parts rest) (hspace : ' ' ∉ text)
    (htext : text <+: cs ++ rest) : text <+: cs := by
  rcases List.prefix_or_prefix_of_prefix htext (List.prefix_append cs rest) with h | ⟨more, rfl⟩
  · exact h
  · rw [List.prefix_append_right_inj] at htext
    cases more with
    | nil => simp
    | cons c more =>
      obtain ⟨_, rfl⟩ := htext
      obtain rfl : c = ' ' := hrest c rfl
      exact absurd (List.mem_append_right _ (List.mem_cons_self ..)) hspace

/-! ## The texts of words and signs -/

theorem Terminal.mem_fixed {t : Terminal} (h : t.isClass = false) : t ∈ Terminal.fixed := by
  cases t with
  | name | int | path => cases h
  | _ => decide

/-- No character of a word or sign is a space, a digit, or the sign of a comment. -/
theorem Terminal.fixedText_chars : ∀ t ∈ Terminal.fixed, ∀ c ∈ t.fixedText.toList,
    Layout.isSpace c = false ∧ Lexeme.isDigit c = false ∧ c ≠ '#' := by
  have hall : ∀ t ∈ Terminal.fixed, t.fixedText.toList.all (fun c => !Layout.isSpace c && (!Lexeme.isDigit c && c != '#')) = true := by
    decide
  intro t ht c hc
  simpa using List.all_eq_true.mp (hall t ht) c hc

theorem Terminal.space_not_mem {t : Terminal} (h : t ∈ Terminal.fixed) : ' ' ∉ t.fixedText.toList :=
  fun hspace => absurd (Terminal.fixedText_chars t h ' ' hspace).1 (by decide)

/-- No text of the list is the beginning of a text behind it. -/
theorem Terminal.fixed_pairwise :
    Terminal.fixed.Pairwise (fun t u => ¬ t.fixedText.toList <+: u.fixedText.toList) := by decide +kernel

/-- The signs have no characters of names. -/
theorem Terminal.isNameStart_sign : ∀ t ∈ Terminal.fixed, t ∉ Terminal.softWords → t ∉ Terminal.hardWords →
    ∀ c ∈ t.fixedText.toList, Lexeme.isNameStart c = false := by
  have hany : ∀ t ∈ Terminal.fixed, t ∉ Terminal.softWords → t ∉ Terminal.hardWords →
      t.fixedText.toList.any Lexeme.isNameStart = false := by decide
  intro t ht hsoft hhard c hc
  simpa using List.any_eq_false.mp (hany t ht hsoft hhard) c hc

/-- The soft words have the form of names. -/
theorem Terminal.isNameStart_softWords : ∀ w ∈ Terminal.softWords, ∀ c ∈ w.fixedText.toList,
    Lexeme.isNameStart c = true := by
  have hall : ∀ w ∈ Terminal.softWords, w.fixedText.toList.all Lexeme.isNameStart = true := by decide
  exact fun w hw => List.all_eq_true.mp (hall w hw)

theorem Terminal.hardWord_not_front : ∀ w ∈ Terminal.softWords, ∀ h ∈ Terminal.hardWords,
    ¬ h.fixedText.toList <+: w.fixedText.toList := by decide

theorem Terminal.softWords_inj : ∀ w ∈ Terminal.softWords, ∀ w' ∈ Terminal.softWords,
    w.fixedText.toList = w'.fixedText.toList → w = w' := by decide

/-! ## Reading a token back -/

section Lexing

variable {rest : List Char}

/-- A name is read back. -/
theorem Lexeme.name_append {c : Char} {cs : List Char} (hrest : Layout.Parts rest) (hstart : Lexeme.isNameStart c = true)
    (hchars : ∀ d ∈ cs, Lexeme.isNameChar d = true) (hhard : ∀ w ∈ Terminal.hardWords, ¬ w.fixedText.toList <+: c :: cs) :
    Lexeme.name (c :: cs ++ rest) = c :: cs := by
  have hwords : Terminal.hardWords.any (fun w => Lexeme.startsWith w (c :: cs ++ rest)) ≠ true := by
    intro hany
    obtain ⟨w, hw, hstarts⟩ := List.any_eq_true.mp hany
    have hfixed : ∀ w ∈ Terminal.hardWords, w ∈ Terminal.fixed := by decide
    exact hhard w hw (hrest.front (Terminal.space_not_mem (hfixed w hw)) (List.isPrefixOf_iff_prefix.mp hstarts))
  rw [List.cons_append] at hwords ⊢
  rw [Lexeme.name, if_neg hwords, if_pos hstart, hrest.takeWhile (by decide) hchars]

/-- There is no name in front of a character that begins none. -/
theorem Lexeme.name_eq_nil {c : Char} {cs : List Char} (hstart : Lexeme.isNameStart c = false) : Lexeme.name (c :: cs) = [] := by
  by_cases h : Lexeme.name (c :: cs) = []
  · exact h
  · obtain ⟨_, _, heq, htrue, _⟩ := Lexeme.name_spec h
    rw [← (List.cons.inj heq).1, hstart] at htrue
    cases htrue

/-- No integer stands where a word or sign does. -/
theorem Lexeme.int_eq_nil {t : Terminal} (h : t ∈ Terminal.fixed) (rest : List Char) :
    Lexeme.int (t.fixedText.toList ++ rest) = [] := by
  obtain ⟨c, cs, htext⟩ := List.exists_cons_of_ne_nil (Terminal.fixedText_ne_nil t h)
  have hdigit := (Terminal.fixedText_chars t h c (by rw [htext]; exact .head _)).2.1
  rw [htext]
  simp [Lexeme.int, hdigit]

/-- A word or sign is read back where it is looked for and neither a name nor a path is found. -/
theorem Token.first?_fixed {allowed : List Terminal} {t : Terminal} (hrest : Layout.Parts rest) (hpath : .path ∉ allowed)
    (ht : t ∈ allowed) (hfixed : t ∈ Terminal.fixed)
    (hname : .name ∈ allowed → Lexeme.name (t.fixedText.toList ++ rest) = []) :
    Token.first? allowed (t.fixedText.toList ++ rest) = some t.token := by
  have hint := Lexeme.int_eq_nil hfixed rest
  have hfind : Terminal.fixed.find? (fun u => allowed.contains u && Lexeme.startsWith u (t.fixedText.toList ++ rest)) = some t := by
    obtain ⟨before, behind, hsplit⟩ := List.append_of_mem hfixed
    refine List.find?_eq_some_iff_append.mpr ⟨?_, before, behind, hsplit, fun u hu => ?_⟩
    · have hstarts : Lexeme.startsWith t (t.fixedText.toList ++ rest) = true :=
        List.isPrefixOf_iff_prefix.mpr (List.prefix_append _ _)
      simp [ht, hstarts]
    · -- an earlier text that fits would be the beginning of this one
      have hpairs := hsplit ▸ Terminal.fixed_pairwise
      have hnot := (List.pairwise_append.mp hpairs).2.2 u hu t (.head _)
      have hmem : u ∈ Terminal.fixed := hsplit ▸ List.mem_append_left _ hu
      have hstarts : ¬ Lexeme.startsWith u (t.fixedText.toList ++ rest) = true := fun hstarts =>
        hnot (hrest.front (Terminal.space_not_mem hmem) (List.isPrefixOf_iff_prefix.mp hstarts))
      simp [hstarts]
  have hname : (allowed.contains .name && !(Lexeme.name (t.fixedText.toList ++ rest)).isEmpty) = false := by
    by_cases hmem : .name ∈ allowed
    · simp [hname hmem]
    · simp [hmem]
  have hpath : allowed.contains .path = false := by simpa using hpath
  simp only [Token.first?, hname, hint, hpath, hfind, List.isEmpty_nil, Bool.not_true, Bool.and_false, Bool.false_and,
    Bool.false_eq_true, if_false, Option.map_some, Terminal.token]

/-- A soft word is read back where it is looked for. -/
theorem Token.first?_softWord {allowed : List Terminal} {w : Terminal} (hrest : Layout.Parts rest) (hpath : .path ∉ allowed)
    (hw : w ∈ Terminal.softWords) (hallowed : w ∈ allowed) :
    Token.first? allowed (w.fixedText.toList ++ rest) = some w.token := by
  have hfixed : w ∈ Terminal.fixed := Terminal.mem_fixed (Terminal.isClass_softWords w hw)
  by_cases hmem : .name ∈ allowed
  · -- where a name is looked for too, the word is read as a name and told from the names by its text
    have hname : Lexeme.name (w.fixedText.toList ++ rest) = w.fixedText.toList := by
      obtain ⟨c, cs, htext⟩ := List.exists_cons_of_ne_nil (Terminal.fixedText_ne_nil w hfixed)
      have hchars := Terminal.isNameStart_softWords w hw
      have hhard := Terminal.hardWord_not_front w hw
      rw [htext] at hchars hhard ⊢
      refine Lexeme.name_append hrest (hchars c (.head _)) (fun d hd => ?_) hhard
      simp [Lexeme.isNameChar, hchars d (.tail _ hd)]
    have hfind : (Terminal.softWords.filter allowed.contains).find? (fun t => t.fixedText.toList == w.fixedText.toList) = some w := by
      cases hfound : (Terminal.softWords.filter allowed.contains).find? (fun t => t.fixedText.toList == w.fixedText.toList) with
      | none => exact absurd (beq_self_eq_true _) (List.find?_eq_none.mp hfound w (List.mem_filter.mpr ⟨hw, by simpa using hallowed⟩))
      | some w' =>
        have hw' : w' ∈ Terminal.softWords := (List.mem_filter.mp (List.mem_of_find?_eq_some hfound)).1
        have htext := List.find?_some hfound
        rw [Terminal.softWords_inj w' hw' w hw (eq_of_beq htext)]
    have hne := Terminal.fixedText_ne_nil w hfixed
    simp [Token.first?, hname, hmem, hne, Lexeme.wordOrName, hfind, Terminal.token]
  · exact Token.first?_fixed hrest hpath hallowed hfixed (fun h => absurd h hmem)

/-- A hard word or sign is read back where it is looked for. -/
theorem Token.first?_hardWord {allowed : List Terminal} {t : Terminal} (hrest : Layout.Parts rest) (hpath : .path ∉ allowed)
    (hfixed : t ∈ Terminal.fixed) (hsoft : t ∉ Terminal.softWords) (hallowed : t ∈ allowed) :
    Token.first? allowed (t.fixedText.toList ++ rest) = some t.token := by
  refine Token.first?_fixed hrest hpath hallowed hfixed (fun _ => ?_)
  by_cases hhard : t ∈ Terminal.hardWords
  · by_cases hname : Lexeme.name (t.fixedText.toList ++ rest) = []
    · exact hname
    · obtain ⟨_, _, _, _, _, hnone⟩ := Lexeme.name_spec hname
      exact absurd (List.prefix_append _ _) (hnone t hhard)
  · obtain ⟨c, cs, htext⟩ := List.exists_cons_of_ne_nil (Terminal.fixedText_ne_nil t hfixed)
    have hstart := Terminal.isNameStart_sign t hfixed hsoft hhard c (by rw [htext]; exact .head _)
    rw [htext]
    exact Lexeme.name_eq_nil hstart

/-- What it means for a text to be an identifier. -/
theorem Lexeme.isIdentifier_spec {x : String} (h : Lexeme.isIdentifier x = true) :
    ∃ c cs, x.toList = c :: cs ∧ Lexeme.isNameStart c = true ∧ (∀ d ∈ cs, Lexeme.isNameChar d = true) ∧
      (∀ w ∈ Terminal.hardWords, ¬ w.fixedText.toList <+: c :: cs) ∧ ∀ w ∈ Terminal.softWords, w.fixedText ≠ x := by
  unfold Lexeme.isIdentifier at h
  split at h
  · cases h
  · rename_i c cs htext
    simp only [Bool.and_eq_true, Bool.not_eq_true', List.all_eq_true, List.any_eq_false, beq_iff_eq] at h
    obtain ⟨⟨⟨hstart, hchars⟩, hhard⟩, hsoft⟩ := h
    exact ⟨c, cs, htext, hstart, hchars, fun w hw hfront => hhard w hw (List.isPrefixOf_iff_prefix.mpr hfront), hsoft⟩

/-- An identifier is read back where a name is looked for. -/
theorem Token.first?_name {allowed : List Terminal} {x : String} (hrest : Layout.Parts rest) (hallowed : .name ∈ allowed)
    (hx : Lexeme.isIdentifier x = true) : Token.first? allowed (x.toList ++ rest) = some ⟨.name, x⟩ := by
  obtain ⟨c, cs, htext, hstart, hchars, hhard, hsoft⟩ := Lexeme.isIdentifier_spec hx
  have hname : Lexeme.name (x.toList ++ rest) = x.toList := by
    rw [htext]
    exact Lexeme.name_append hrest hstart hchars hhard
  have hword : Lexeme.wordOrName (Terminal.softWords.filter allowed.contains) x.toList = .name := by
    have hnone : (Terminal.softWords.filter allowed.contains).find? (fun w => w.fixedText.toList == x.toList) = none := by
      refine List.find?_eq_none.mpr fun w hw htrue => hsoft w (List.mem_filter.mp hw).1 ?_
      exact String.toList_inj.mp (eq_of_beq htrue)
    rw [Lexeme.wordOrName, hnone, Option.getD_none]
  have hne : x.toList.isEmpty = false := by rw [htext]; rfl
  have hcontains : allowed.contains .name = true := by simpa using hallowed
  simp only [Token.first?, hname, hword, hne, hcontains, Bool.not_false, Bool.and_self, if_true, String.ofList_toList]

/-- No digit begins a name. -/
theorem Lexeme.isNameStart_digit {c : Char} (h : Lexeme.isDigit c = true) : Lexeme.isNameStart c = false := by
  simp only [Lexeme.isDigit, Bool.and_eq_true, decide_eq_true_eq] at h
  have hnine : c.toNat ≤ 57 := h.2
  refine Bool.eq_false_iff.mpr fun hstart => ?_
  simp only [Lexeme.isNameStart, Bool.or_eq_true, Bool.and_eq_true, decide_eq_true_eq, beq_iff_eq] at hstart
  rcases hstart with (rfl | ⟨hlow, _⟩) | ⟨hlow, _⟩
  · exact absurd hnine (by decide)
  · have hletter : 97 ≤ c.toNat := hlow
    omega
  · have hletter : 65 ≤ c.toNat := hlow
    omega

/-- No name stands where digits do. -/
theorem Lexeme.name_eq_nil_of_digits {digits : List Char} (hne : digits ≠ []) (h : ∀ d ∈ digits, Lexeme.isDigit d = true)
    (rest : List Char) : Lexeme.name (digits ++ rest) = [] := by
  obtain ⟨c, cs, rfl⟩ := List.exists_cons_of_ne_nil hne
  exact Lexeme.name_eq_nil (Lexeme.isNameStart_digit (h c (.head _)))

/-- Digits are read back where an integer is looked for. -/
theorem Token.first?_int {allowed : List Terminal} {digits : String} (hrest : Layout.Parts rest) (hallowed : .int ∈ allowed)
    (hne : digits.toList ≠ []) (hdigits : ∀ d ∈ digits.toList, Lexeme.isDigit d = true) :
    Token.first? allowed (digits.toList ++ rest) = some ⟨.int, digits⟩ := by
  have hname := Lexeme.name_eq_nil_of_digits hne hdigits rest
  have hint : Lexeme.int (digits.toList ++ rest) = digits.toList := hrest.takeWhile (by decide) hdigits
  have hempty : digits.toList.isEmpty = false := List.isEmpty_eq_false_iff.mpr hne
  have hcontains : allowed.contains .int = true := by simpa using hallowed
  simp only [Token.first?, hname, hint, hempty, hcontains, List.isEmpty_nil, Bool.not_true, Bool.and_false, Bool.not_false,
    Bool.and_self, Bool.false_eq_true, if_true, if_false, String.ofList_toList]

/-- What it means for a text to be a path. -/
theorem Lexeme.isFilePath_spec {path : String} (h : Lexeme.isFilePath path = true) :
    ∃ c cs, path.toList = c :: cs ∧ Layout.isSpace c = false ∧ ∀ d ∈ c :: cs, Lexeme.isPathChar d = true := by
  unfold Lexeme.isFilePath at h
  split at h
  · cases h
  · rename_i c cs htext
    simp only [Bool.and_eq_true, Bool.not_eq_true', List.all_eq_true] at h
    exact ⟨c, cs, htext, h.1, h.2⟩

/-- A path is read back where a path alone is looked for. -/
theorem Token.first?_path {path : String} (hrest : Layout.Parts rest) (hpath : Lexeme.isFilePath path = true) :
    Token.first? [.path] (path.toList ++ rest) = some ⟨.path, path⟩ := by
  obtain ⟨c, cs, htext, _, hchars⟩ := Lexeme.isFilePath_spec hpath
  have hlexeme : Lexeme.path (path.toList ++ rest) = path.toList := hrest.takeWhile (by decide) (by rw [htext]; exact hchars)
  have hempty : path.toList.isEmpty = false := by rw [htext]; rfl
  simp [Token.first?, hlexeme, hempty]

/-- A token that stands is read back where it is looked for, with a space or the end of the source behind it. -/
theorem Token.first?_of_stands {allowed : List Terminal} {t : Token} (hrest : Layout.Parts rest)
    (hpath : .path ∈ allowed → allowed = [.path]) (hallowed : t.terminal ∈ allowed) (ht : t.Stands) :
    Token.first? allowed (t.text.toList ++ rest) = some t := by
  obtain ⟨terminal, text⟩ := t
  by_cases hclass : terminal.isClass = false
  · obtain rfl : text = terminal.fixedText := by cases terminal <;> first | exact ht | cases hclass
    have hfixed := Terminal.mem_fixed hclass
    have hnone : .path ∉ allowed := by
      intro hmem
      rw [hpath hmem] at hallowed
      obtain rfl : terminal = .path := List.mem_singleton.mp hallowed
      cases hclass
    by_cases hsoft : terminal ∈ Terminal.softWords
    · exact Token.first?_softWord hrest hnone hsoft hallowed
    · exact Token.first?_hardWord hrest hnone hfixed hsoft hallowed
  · cases terminal with
    | name => exact Token.first?_name hrest hallowed ht
    | int => exact Token.first?_int hrest hallowed ht.1 ht.2
    | path =>
      rw [hpath hallowed]
      exact Token.first?_path hrest ht
    | _ => exact absurd rfl hclass

end Lexing

/-! ## Reading a printed source -/

theorem Level.path_not_mem_followers (level : Level) : .path ∉ level.followers := by
  unfold Level.followers
  simp only [List.mem_append, not_or]
  refine ⟨⟨⟨by decide, by decide⟩, ?_⟩, ?_⟩ <;> split <;> decide

/-- Where a path is looked for, nothing else is. -/
theorem Reading.allowed_path {r : Reading} (h : .path ∈ r.allowed) : r.allowed = [.path] := by
  obtain ⟨fs, focus⟩ := r
  cases focus with
  | operand => exact absurd (List.mem_filter.mp h).1 (by decide)
  | named x =>
    unfold Reading.allowed at h
    simp only at h
    split at h
    · exact absurd h (by decide)
    · rcases List.mem_append.mp h with h | h
      · split at h <;> exact absurd h (by decide)
      · exact absurd h (Level.path_not_mem_followers _)
  | complete t level => exact absurd h (Level.path_not_mem_followers level)
  | writePath | runPath => rfl
  | _ => exact absurd (List.mem_singleton.mp h) (by decide)

/-- Layout begins with nothing that begins a name or an integer. -/
theorem Layout.not_begin {c : Char} (h : Layout.isSpace c = true ∨ c = '#') :
    Lexeme.isNameStart c = false ∧ Lexeme.isDigit c = false := by
  simp only [Layout.isSpace, Bool.or_eq_true, beq_iff_eq] at h
  rcases h with ((((rfl | rfl) | rfl) | rfl) | rfl) | rfl <;> decide

/-- A token that stands does not begin with layout; only a path may begin like a comment. -/
theorem Token.Stands.begins {t : Token} (h : t.Stands) :
    ∃ c cs, t.text.toList = c :: cs ∧ Layout.isSpace c = false ∧ (t.terminal ≠ .path → c ≠ '#') := by
  obtain ⟨terminal, text⟩ := t
  by_cases hclass : terminal.isClass = false
  · obtain rfl : text = terminal.fixedText := by cases terminal <;> first | exact h | cases hclass
    have hfixed := Terminal.mem_fixed hclass
    obtain ⟨c, cs, htext⟩ := List.exists_cons_of_ne_nil (Terminal.fixedText_ne_nil terminal hfixed)
    have hchars := Terminal.fixedText_chars terminal hfixed c (by rw [htext]; exact .head _)
    exact ⟨c, cs, htext, hchars.1, fun _ => hchars.2.2⟩
  · cases terminal with
    | name =>
      obtain ⟨c, cs, htext, hstart, _⟩ := Lexeme.isIdentifier_spec h
      have hlayout : ¬ (Layout.isSpace c = true ∨ c = '#') := fun hc => by simp [(Layout.not_begin hc).1] at hstart
      simp only [not_or, Bool.not_eq_true] at hlayout
      exact ⟨c, cs, htext, hlayout.1, fun _ => hlayout.2⟩
    | int =>
      obtain ⟨c, cs, htext⟩ := List.exists_cons_of_ne_nil h.1
      have hdigit : Lexeme.isDigit c = true := h.2 c (by rw [htext]; exact .head _)
      have hlayout : ¬ (Layout.isSpace c = true ∨ c = '#') := fun hc => by simp [(Layout.not_begin hc).2] at hdigit
      simp only [not_or, Bool.not_eq_true] at hlayout
      exact ⟨c, cs, htext, hlayout.1, fun _ => hlayout.2⟩
    | path =>
      obtain ⟨c, cs, htext, hspace, _⟩ := Lexeme.isFilePath_spec h
      exact ⟨c, cs, htext, hspace, fun hother => absurd rfl hother⟩
    | _ => exact absurd rfl hclass

/-- Layout ends where a token that stands begins. -/
theorem Token.Stands.rest_eq {t : Token} {allowed : List Terminal} (h : t.Stands) (hallowed : t.terminal ∈ allowed)
    (rest : List Char) :
    Layout.rest (Layout.hasComments allowed) false (t.text.toList ++ rest) = t.text.toList ++ rest := by
  obtain ⟨c, cs, htext, hspace, hcomment⟩ := h.begins
  have hsign : (Layout.hasComments allowed && c == '#') = false := by
    by_cases hterminal : t.terminal = .path
    · simp [Layout.hasComments, hterminal ▸ hallowed]
    · simp [hcomment hterminal]
  rw [htext]
  simp only [List.cons_append, Layout.rest, hspace, hsign, Bool.false_eq_true, if_false]

/-- Reading goes on behind a token that stands and is looked for, whatever layout is in front of it. -/
theorem Reading.run_token {source cs rest : List Char} {r r' : Reading} {t : Token} {tree : Tree} (ht : t.Stands)
    (hallowed : t.terminal ∈ r.allowed) (hfeed : r.feed? t = some r') (hparts : Layout.Parts rest)
    (hlayout : Layout.rest (Layout.hasComments r.allowed) false cs =
      Layout.rest (Layout.hasComments r.allowed) false (t.text.toList ++ rest))
    (hrun : ∀ here last, Reading.run source r' here last rest = .ok tree) (here last : Position) :
    Reading.run source r here last cs = .ok tree := by
  have hfirst := Token.first?_of_stands hparts Reading.allowed_path hallowed ht
  exact Reading.run_of_first? (hlayout.trans (ht.rest_eq hallowed rest)) hfirst hfeed hrun here last

/-- What stands behind a printed token ends it. -/
theorem Layout.parts_flatMap (ts : List Token) : Layout.Parts (ts.flatMap (fun t => ' ' :: t.text.toList)) := by
  intro c hc
  cases ts with
  | nil => cases hc
  | cons t ts =>
    simp only [List.flatMap_cons, List.cons_append, List.head?_cons, Option.mem_some_iff] at hc
    exact hc.symm

/-- Tokens with a space in front of each are read, when they are taken one after another and stand. -/
theorem Reading.run_takes {source : List Char} {r r' : Reading} {ts : List Token} {tree : Tree} (h : r.Takes ts r')
    (hend : r'.end? = some tree) (hstands : ∀ t ∈ ts, t.Stands) (here last : Position) :
    Reading.run source r here last (ts.flatMap (fun t => ' ' :: t.text.toList)) = .ok tree := by
  induction h generalizing here last with
  | nil r => exact Reading.run_of_end rfl hend here last
  | cons hallowed hfeed _ ih =>
    obtain ⟨ht, hts⟩ := List.forall_mem_cons.mp hstands
    rw [List.flatMap_cons, List.cons_append]
    refine Reading.run_token ht hallowed hfeed (Layout.parts_flatMap _) ?_ (ih hend hts) here last
    -- the space in front of the token is skipped
    rfl

/-- A printed source begins with its first token. -/
theorem Token.toList_print (t : Token) (ts : List Token) :
    (Token.print (t :: ts)).toList = t.text.toList ++ ts.flatMap (fun t => ' ' :: t.text.toList) := by
  rw [Token.print, String.toList_intercalate]
  induction ts generalizing t with
  | nil => simp
  | cons u us ih =>
    have hrest := ih u
    simp only [List.map_cons] at hrest ⊢
    rw [List.intercalate_cons_cons, hrest]
    simp

/-- A phrase that fits is read back from its tokens, printed with one space between them. -/
theorem Phrase.parse_print {p : Phrase} (h : p.Fits) (hstands : ∀ t ∈ p.tokens, t.Stands) :
    Tree.parse (Token.print p.tokens) = .ok p.tree := by
  obtain ⟨r, htakes, hend⟩ := Phrase.takes_start h
  obtain ⟨t, ts, htokens⟩ := List.exists_cons_of_ne_nil p.tokens_ne_nil
  rw [htokens] at htakes hstands ⊢
  obtain ⟨ht, hts⟩ := List.forall_mem_cons.mp hstands
  cases htakes with
  | cons hallowed hfeed hrest =>
    rw [Tree.parse, Token.toList_print]
    exact Reading.run_token ht hallowed hfeed (Layout.parts_flatMap ts) rfl (Reading.run_takes hrest hend hts) _ _

end TuneLang
