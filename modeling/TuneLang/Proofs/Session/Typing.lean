import TuneLang.Proofs.Session.Append

/-!
# Programs in files

To have a file run is to type its text. The lines of a text become one command when each of them but the last is typed with a backslash
behind it, and the command is the text again (`Session.glued_typed`); the file is read as the same text. So both commands come to the same
source in worlds that differ in the prompts alone, and nothing that a session does looks at what was printed
(`Session.run_of_sourced`).
-/

namespace TuneLang

/-! ## Texts -/

theorem Text.cut_ne_nil (divides : Char → Bool) (cs : List Char) : Text.cut divides cs ≠ [] := by
  cases cs with
  | nil => simp [Text.cut]
  | cons c cs =>
    rw [Text.cut]
    split
    · simp
    · split <;> simp

/-- A text without a character that divides it is one piece. -/
theorem Text.cut_of_not {divides : Char → Bool} {cs : List Char} (h : ∀ c ∈ cs, divides c = false) : Text.cut divides cs = [cs] := by
  induction cs with
  | nil => rfl
  | cons c cs ih =>
    obtain ⟨hc, hcs⟩ := List.forall_mem_cons.mp h
    simp [Text.cut, hc, ih hcs]

/-- A text is cut where the first character stands that divides it. -/
theorem Text.cut_append {divides : Char → Bool} {cs : List Char} (h : ∀ c ∈ cs, divides c = false) {d : Char} (hd : divides d = true)
    (ds : List Char) : Text.cut divides (cs ++ d :: ds) = cs :: Text.cut divides ds := by
  induction cs with
  | nil => simp [Text.cut, hd]
  | cons c cs ih =>
    obtain ⟨hc, hcs⟩ := List.forall_mem_cons.mp h
    simp [Text.cut, hc, ih hcs]

/-- The pieces of a text make up the text, with the character that divides it between them. -/
theorem Text.intercalate_cut (d : Char) (cs : List Char) : [d].intercalate (Text.cut (fun c => c == d) cs) = cs := by
  induction cs with
  | nil => rfl
  | cons c cs ih =>
    rw [Text.cut]
    split
    · rename_i hc
      rw [List.intercalate_cons_of_ne_nil (Text.cut_ne_nil _ _), ih, eq_of_beq hc]
      rfl
    · split
      · rename_i hnil
        exact absurd hnil (Text.cut_ne_nil _ _)
      · rename_i piece pieces hcut
        rw [hcut] at ih
        cases pieces with
        | nil =>
          rw [List.intercalate_singleton] at ih ⊢
          rw [ih]
        | cons next pieces =>
          rw [List.intercalate_cons_cons] at ih ⊢
          rw [← ih]
          rfl

/-- That a text has no blanks is seen by a look at its characters. -/
theorem Text.not_blank_of_any {s : String} (h : s.toList.any Text.isBlank = false) : ∀ c ∈ s.toList, Text.isBlank c = false :=
  fun c hc => Bool.eq_false_iff.mpr (List.any_eq_false.mp h c hc)

/-- Two words with a blank between them. -/
theorem Text.words_pair {x y : String} (hx : x ≠ "") (hy : y ≠ "") (hxs : ∀ c ∈ x.toList, Text.isBlank c = false)
    (hys : ∀ c ∈ y.toList, Text.isBlank c = false) : Text.words (x ++ " " ++ y) = [x, y] := by
  have hcut : Text.cut Text.isBlank (x ++ " " ++ y).toList = [x.toList, y.toList] := by
    have hlist : (x ++ " " ++ y).toList = x.toList ++ ' ' :: y.toList := by simp
    rw [hlist, Text.cut_append hxs (by decide), Text.cut_of_not hys]
  rw [Text.words, Text.runs, hcut]
  simp [hx, hy]

/-- The empty path leads to the working directory, which is no file. -/
theorem Files.read_empty (fs : Files) : fs.read "" = .error ⟨.isDirectory, "."⟩ := by
  have hhome : fs.isDirectory fs.home = true := by simp [Files.isDirectory]
  have hpath : Path.simplified "" = "." := by decide
  have hcontent : fs.content "." = .error .isDirectory := by
    show (if fs.isDirectory fs.home = true then _ else _) = _
    rw [if_pos hhome]
  delta Files.read
  rw [hpath, hcontent]

namespace Session

/-! ## The lines of a text -/

/-- The lines of a text, divided at its line ends. -/
def lines (s : String) : List String := (Text.cut (fun c => c == '\n') s.toList).map String.ofList

/-- The last line of a text. -/
def lastLine (s : String) : String := (lines s).getLastD ""

/-- The lines of a text as they are typed to make up one command: each of them but the last has a backslash behind it. -/
def typed (s : String) : List String := (lines s).dropLast.map (fun line => line ++ "\\") ++ [lastLine s]

/-- Lines with backslashes behind them, all but the last, are put together with a line end in the place of each backslash. -/
theorem glued_backslashed {ls : List String} (hne : ls ≠ []) :
    glued (ls.dropLast.map (fun line => line ++ "\\")) ++ ls.getLastD "" = "\n".intercalate ls := by
  induction ls with
  | nil => exact absurd rfl hne
  | cons line ls ih =>
    cases ls with
    | nil => simp [glued]
    | cons next ls =>
      have hrest := ih (by simp)
      rw [String.intercalate_cons_cons, ← hrest]
      simp [glued, String.append_assoc]

theorem intercalate_lines (s : String) : "\n".intercalate (lines s) = s := by
  have hlist : ((Text.cut (fun c => c == '\n') s.toList).map String.ofList).map String.toList = Text.cut (fun c => c == '\n') s.toList := by
    simp [Function.comp_def]
  rw [← String.toList_inj, String.toList_intercalate, lines, hlist]
  exact Text.intercalate_cut '\n' s.toList

/-- The lines of a text that are typed as one command make up the text. -/
theorem glued_typed (s : String) : glued ((lines s).dropLast.map (fun line => line ++ "\\")) ++ lastLine s = s := by
  have hne : lines s ≠ [] := by simp [lines, Text.cut_ne_nil]
  rw [lastLine, glued_backslashed hne, intercalate_lines]

/-- A text whose lines are typed is entered. -/
theorem entered_typed {s : String} (hlast : ¬ Continues (lastLine s)) (w : World) (rest : List InputLine) :
    Entered { w with input := (typed s).map .typed ++ rest } s (prompted w ((lines s).length - 1) rest) := by
  refine ⟨(lines s).dropLast.map (fun line => line ++ "\\"), lastLine s, rest, ⟨?_, ?_⟩, hlast, (glued_typed s).symm, ?_⟩
  · simp [typed]
  · intro line hline
    obtain ⟨l, _, rfl⟩ := List.mem_map.mp hline
    simp [Continues]
  · simp [prompted]

/-! ## Sources -/

/-- A command that does not begin with the word for a file is its own source. -/
theorem source_of_not {words : List String} (h : words.head? ≠ some "dofile") (s : String) (w : World) :
    source s words w = (.ok s, w) := by
  unfold source
  split
  · exact absurd rfl h
  · exact absurd rfl h
  · rfl

/-- A text without carriage returns is read as it is. -/
theorem plainLines_of_not {cs : List Char} (h : '\r' ∉ cs) : plainLines cs = cs := by
  induction cs using plainLines.induct with
  | case1 => rfl
  | case2 => exact absurd (.head _) h
  | case3 c cs hplain ih =>
    obtain ⟨hc, hcs⟩ := List.ne_and_not_mem_of_not_mem_cons h
    rw [plainLines, ih hcs]
    · simp [hc.symm]
    · exact hplain

/-- The bytes of a text without carriage returns hold the text. -/
theorem decode?_toUTF8 {s : String} (h : '\r' ∉ s.toList) : decode? s.toUTF8.data.toList = some s := by
  have hread : String.fromUTF8? s.toUTF8 = some s := by
    simp only [String.fromUTF8?, String.toUTF8_eq_toByteArray, dif_pos s.isValidUTF8]
    rfl
  rw [decode?, Array.toArray_toList, hread, Option.map_some, plainLines_of_not h, String.ofList_toList]

theorem source_dofile {w : World} {text path : String} {bytes : List UInt8} (hread : w.files.read path = .ok bytes)
    (hdecode : decode? bytes = some text) (s : String) : source s ["dofile", path] w = (.ok text, w) := by
  unfold source
  simp only [hread, hdecode]

/-- The word for a file, and a path. -/
theorem words_dofile {path : String} (hne : path ≠ "") (hblank : ∀ c ∈ path.toList, Text.isBlank c = false) :
    Text.words ("dofile " ++ path) = ["dofile", path] := by
  have hword : "dofile " ++ path = "dofile" ++ " " ++ path := congrArg (· ++ path) (by decide)
  rw [hword]
  exact Text.words_pair (by decide) hne (Text.not_blank_of_any (by decide)) hblank

/-- The command that names a file comes to the text that the file holds. -/
theorem sourced_dofile {w : World} {s path : String} (hreturn : '\r' ∉ s.toList)
    (hfile : w.files.read path = .ok s.toUTF8.data.toList) (hblank : ∀ c ∈ path.toList, Text.isBlank c = false)
    (hpath : ¬ Continues path) (rest : List InputLine) :
    Sourced { w with input := .typed ("dofile " ++ path) :: rest } s (prompted w 0 rest) := by
  have hne : path ≠ "" := by
    rintro rfl
    rw [Files.read_empty] at hfile
    cases hfile
  have hwords := words_dofile hne hblank
  have hline : ¬ Continues ("dofile " ++ path) := mt (continues_append (by simp [Continues])).mp hpath
  refine ⟨"dofile " ++ path, prompted w 0 rest, ⟨[], "dofile " ++ path, rest, ⟨rfl, by simp⟩, hline, ?_, rfl⟩, ?_, ?_⟩
  · exact String.empty_append.symm
  · rw [hwords]
    exact List.cons_ne_nil _ _
  · have hread : (prompted w 0 rest).files.read path = .ok s.toUTF8.data.toList := hfile
    rw [hwords]
    exact source_dofile hread (decode?_toUTF8 hreturn) _

/-- A text whose lines are typed is its own source. -/
theorem sourced_typed {w : World} {s : String} (hword : ∃ c ∈ s.toList, Text.isBlank c = false)
    (hfirst : (Text.words s).head? ≠ some "dofile") (hlast : ¬ Continues (lastLine s)) (rest : List InputLine) :
    Sourced { w with input := (typed s).map .typed ++ rest } s (prompted w ((lines s).length - 1) rest) := by
  refine ⟨s, _, entered_typed hlast w rest, ?_, source_of_not hfirst s _⟩
  rw [ne_eq, Text.words_eq_nil]
  obtain ⟨c, hc, hblank⟩ := hword
  intro hall
  rw [hall c hc] at hblank
  cases hblank

/-! ## In step -/

/-- A source is run in the same way after anything that was done before. -/
theorem execute_within (depth : Nat) (text : String) (w before : World) :
    execute depth text (w.within before []) = ((execute depth text w).1, (execute depth text w).2.within before []) := by
  cases hparse : Tree.parse text with
  | error e => simp only [execute, hparse, World.within_printLine]
  | ok t =>
    rcases build_cases hparse with ⟨label, counts, hbuild⟩ | ⟨e, counts, running, hbuild, hrunning⟩
    · simp only [execute, hparse, Program.convert, hbuild, World.within_print]
    · rw [execute_of_ready hparse hbuild hrunning, execute_of_ready hparse hbuild hrunning, World.within_print, World.within_printLine,
        Expr.evalClosed_within (fun _ _ _ => .inr rfl), conclude_within]

/-- How a session goes on after a turn. -/
def afterwards (depth : Nat) : Turn × World → Option SessionFailure × World
  | (.next, w) => run depth w
  | (.finished, w) => (none, w)
  | (.stopped e, w) => (some e, w)

theorem run_eq_afterwards (depth : Nat) (w : World) : run depth w = afterwards depth (turn depth w) := by
  rcases hturn : turn depth w with ⟨_ | _ | e, w'⟩
  · exact run_of_next hturn
  · exact run_of_finished hturn
  · exact run_of_stopped hturn

theorem afterwards_within (depth : Nat) (t : Turn) (w before : World) :
    afterwards depth (t, w.within before []) = ((afterwards depth (t, w)).1, (afterwards depth (t, w)).2.within before []) := by
  cases t with
  | next => exact run_within depth w before
  | finished | stopped e => rfl

/-- A session whose first command comes to a source goes on in the same way after anything that was done before. -/
theorem run_of_sourced {w w' before : World} {text : String} (h : Sourced w text (w'.within before [])) (depth : Nat) :
    run depth w = ((afterwards depth (execute depth text w')).1, (afterwards depth (execute depth text w')).2.within before []) := by
  rw [run_eq_afterwards, turn_of_sourced h, execute_within, afterwards_within]

/-- To have a file run is to type its text. A text has a word, no carriage return, another first word than that for a file, and no
backslash at its end; it is held by the file at a path without blanks and without a backslash at its end. Then the session in which its
lines are typed, with a backslash behind each but the last, and the session in which the file is named end in the same way, and leave the
same world but for what they have printed: the one has printed a further prompt for each line but the last, behind its first prompt, and
apart from these both have printed the same. -/
theorem dofile_typed {w : World} {s path : String} (hword : ∃ c ∈ s.toList, Text.isBlank c = false) (hreturn : '\r' ∉ s.toList)
    (hfirst : (Text.words s).head? ≠ some "dofile") (hlast : ¬ Continues (lastLine s))
    (hfile : w.files.read path = .ok s.toUTF8.data.toList) (hblank : ∀ c ∈ path.toList, Text.isBlank c = false)
    (hpath : ¬ Continues path) (rest : List InputLine) (depth : Nat) :
    ∃ (ending : Option SessionFailure) (w' : World) (out : String),
      run depth { w with input := (typed s).map .typed ++ rest } =
        (ending, { w' with out := w.out ++ prompt ++ Text.repeated morePrompt ((lines s).length - 1) ++ out }) ∧
      run depth { w with input := .typed ("dofile " ++ path) :: rest } = (ending, { w' with out := w.out ++ prompt ++ out }) := by
  -- the world behind the prompts, in which nothing has been printed yet
  have hprompted (k : Nat) : prompted w k rest =
      World.within { w with input := rest, out := "" } { out := w.out ++ prompt ++ Text.repeated morePrompt k } [] := by
    simp [prompted, World.within]
  have htyped := sourced_typed hword hfirst hlast rest (w := w)
  have hnamed := sourced_dofile hreturn hfile hblank hpath rest
  rw [hprompted] at htyped hnamed
  have hend := run_of_sourced htyped depth
  have hend' := run_of_sourced hnamed depth
  generalize afterwards depth (execute depth s { w with input := rest, out := "" }) = result at hend hend'
  refine ⟨result.1, result.2, result.2.out, hend.trans ?_, hend'.trans ?_⟩
  · simp [World.within]
  · simp [World.within, Text.repeated]

/-- A question on three lines, one of them empty. -/
def question : String := "read\n\n+ 1"

/-- A world in which a file holds the question. -/
def asking : World := { files := Files.add {} "ask" question.toUTF8.data.toList }

/-- The question is asked and answered alike from its file and from its lines. -/
theorem dofile_typed_question :
    ((∃ c ∈ question.toList, Text.isBlank c = false) ∧ '\r' ∉ question.toList ∧ (Text.words question).head? ≠ some "dofile" ∧
      ¬ Continues (lastLine question) ∧ asking.files.read "ask" = .ok question.toUTF8.data.toList ∧
      (∀ c ∈ "ask".toList, Text.isBlank c = false) ∧ ¬ Continues "ask") ∧
    typed question = ["read\\", "\\", "+ 1"] ∧
    ∃ (ending : Option SessionFailure) (w' : World) (out : String),
      run 4000 { asking with input := (typed question).map .typed ++ [.typed "5"] } =
        (ending, { w' with out := asking.out ++ prompt ++ Text.repeated morePrompt ((lines question).length - 1) ++ out }) ∧
      run 4000 { asking with input := .typed ("dofile " ++ "ask") :: [.typed "5"] } =
        (ending, { w' with out := asking.out ++ prompt ++ out }) := by
  have hword : ∃ c ∈ question.toList, Text.isBlank c = false := ⟨'r', by decide, by decide⟩
  have hreturn : '\r' ∉ question.toList := by decide
  have hfirst : (Text.words question).head? ≠ some "dofile" := by decide +kernel
  have hlast : ¬ Continues (lastLine question) := by
    have hline : lastLine question = "+ 1" := by decide +kernel
    rw [hline]
    simp [Continues]
  have hread : asking.files.read "ask" = .ok question.toUTF8.data.toList := rfl
  have hblank : ∀ c ∈ "ask".toList, Text.isBlank c = false := Text.not_blank_of_any (by decide)
  have hpath : ¬ Continues "ask" := by simp [Continues]
  exact ⟨⟨hword, hreturn, hfirst, hlast, hread, hblank, hpath⟩, by decide +kernel,
    dofile_typed hword hreturn hfirst hlast hread hblank hpath [.typed "5"] 4000⟩

end Session

end TuneLang
