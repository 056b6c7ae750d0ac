import TuneLang.Proofs.Eval.Erasure
import TuneLang.Proofs.Eval.Worlds
import TuneLang.Proofs.Expr.Conversion
import TuneLang.Session

/-!
# Turns of a session

What a turn does before it evaluates anything, told from the lines that are typed: which of them make up the command, what its source
is, and whether it is read and converted (`Session.Reaches`). Every turn comes to one such stage (`Session.exists_reaches`), and the
stage determines the turn (`Session.turn_of_settled`, `Session.turn_of_evaluate`).

A turn that is not the last one uses up a line, so that a session is its first turn and then the session that is left
(`Session.run_of_next`). The worlds in which it asks for a command are those that its turns lead to (`Session.Prompts`).
-/

namespace TuneLang

/-! ## Words -/

/-- All pieces of a text are empty exactly when each of its characters divides it. -/
theorem Text.cut_all_empty {divides : Char → Bool} {cs : List Char} :
    (∀ w ∈ Text.cut divides cs, w = []) ↔ ∀ c ∈ cs, divides c = true := by
  induction cs with
  | nil => simp [Text.cut]
  | cons c cs ih =>
    rw [Text.cut]
    by_cases hc : divides c = true
    · simp [hc, ih]
    · rw [if_neg hc]
      split <;> simp [hc]

/-- A text has no words exactly when it is blank. -/
theorem Text.words_eq_nil {s : String} : Text.words s = [] ↔ ∀ c ∈ s.toList, Text.isBlank c = true := by
  simp [Text.words, Text.runs, ← Text.cut_all_empty]

/-! ## What is left of the input -/

/-- An answer is the first line of the input, and what is left comes after it. -/
theorem World.ask_input_suffix (w : World) (prompt : String) : (w.ask prompt).2.input <:+ w.input := by
  unfold World.ask
  split
  · exact List.suffix_refl _
  · rename_i line rest hinput
    rw [hinput]
    exact List.suffix_cons line rest

/-- An evaluation takes the lines that it asks for from the front of the input. -/
theorem Expr.input_left (n : Nat) (env : Env) (e : Expr) (m : Machine) :
    (EvalM.left (e.eval n env m)).world.input <:+ m.world.input := by
  refine Expr.world_left (R := fun w w' => w'.input <:+ w.input) (fun _ => List.suffix_refl _) (fun h h' => h'.trans h) ?_ n env e m
  intro e v m
  cases e with
  | display a =>
    have hspared : EvalM.Spares (EvalM.display v >>= fun _ => pure v) := (EvalM.spares_display v).bind (fun _ _ => ⟨rfl, rfl⟩)
    have hinput := (hspared m).1
    exact hinput ▸ List.suffix_refl _
  | read =>
    show (EvalM.left (EvalM.readInteger m)).world.input <:+ _
    rw [EvalM.readInteger_eq, EvalM.left_ofExcept]
    exact World.ask_input_suffix _ _
  | write a path =>
    cases v with
    | tune t =>
      have hinput : (EvalM.left (EvalM.write (.tune t) path m)).world.input = m.world.input := by
        rw [EvalM.write_eq, EvalM.left_ofExcept, (World.record_congr rfl t path).2.2]
      exact hinput ▸ List.suffix_refl _
    | _ => exact List.suffix_refl _
  | run path =>
    obtain ⟨codes, commands, hplay⟩ := World.play_eq m.world path
    have hinput : (EvalM.left (EvalM.run path m)).world.input = m.world.input := by
      rw [EvalM.run_eq, EvalM.left_ofExcept, hplay]
    exact hinput ▸ List.suffix_refl _
  | _ => exact List.suffix_refl _

/-- A result that is not to be recorded is printed, unless it has a numeral that is too long. -/
theorem Program.report_plain (v : Value) (w : World) :
    Program.report false v w =
      (v.text?.elim (some (.fault .numeralTooLong)) fun _ => none, v.text?.elim w fun text => w.printLine s!"result: {text}") := by
  unfold Program.report
  cases v.text? with
  | none => rfl
  | some text => cases v <;> rfl

/-! ## The lines of a command -/

namespace Session

/-- Whether a command goes on after a line: the line ends in a backslash. -/
def Continues (line : String) : Prop := line.toList.getLast? = some '\\'

/-- The lines of a command before its last one, put together: a line end stands in the place of each backslash. -/
def glued : List String → String
  | [] => ""
  | line :: lines => String.ofList line.toList.dropLast ++ "\n" ++ glued lines

/-- The world after a command was asked for, with so many further prompts. -/
def prompted (w : World) (further : Nat) (rest : List InputLine) : World :=
  { w with input := rest, out := w.out ++ Session.prompt ++ Text.repeated Session.morePrompt further }

/-- Whether lines that go on are typed first, and then the tail. -/
structure Heard (w : World) (lines : List String) (tail : List InputLine) : Prop where
  input : w.input = lines.map InputLine.typed ++ tail
  continues : ∀ line ∈ lines, Continues line

/-- Whether the lines of a command are typed, and how they leave the world. -/
def Entered (w : World) (s : String) (w' : World) : Prop :=
  ∃ lines last rest, Heard w lines (.typed last :: rest) ∧ ¬ Continues last ∧ s = glued lines ++ last ∧
    w' = prompted w lines.length rest

/-- The lines of an input that go on, and what comes after them. -/
theorem exists_heard (w : World) :
    ∃ lines tail, Heard w lines tail ∧
      (tail = [] ∨ (∃ rest, tail = .interrupt :: rest) ∨ ∃ last rest, tail = .typed last :: rest ∧ ¬ Continues last) := by
  suffices general : ∀ input : List InputLine, ∃ (lines : List String) (tail : List InputLine),
      input = lines.map InputLine.typed ++ tail ∧ (∀ line ∈ lines, Continues line) ∧
        (tail = [] ∨ (∃ rest, tail = .interrupt :: rest) ∨ ∃ last rest, tail = .typed last :: rest ∧ ¬ Continues last) by
    obtain ⟨lines, tail, hinput, hlines, htail⟩ := general w.input
    exact ⟨lines, tail, ⟨hinput, hlines⟩, htail⟩
  intro input
  induction input with
  | nil => exact ⟨[], [], rfl, by simp, .inl rfl⟩
  | cons line rest ih =>
    cases line with
    | interrupt => exact ⟨[], _, rfl, by simp, .inr (.inl ⟨rest, rfl⟩)⟩
    | typed s =>
      by_cases hs : Continues s
      · obtain ⟨lines, tail, rfl, hlines, htail⟩ := ih
        exact ⟨s :: lines, tail, rfl, List.forall_mem_cons.mpr ⟨hs, hlines⟩, htail⟩
      · exact ⟨[], _, rfl, by simp, .inr (.inr ⟨s, rest, rfl, hs⟩)⟩

/-! ### Asking for them -/

theorem ask_first {w : World} {line : InputLine} {rest : List InputLine} (h : w.input = line :: rest) :
    w.ask Session.prompt = (some line, prompted w 0 rest) := by
  simp [World.ask, h, prompted, World.print, Text.repeated]

theorem ask_none {w : World} (h : w.input = []) : w.ask Session.prompt = (none, prompted w 0 []) := by
  simp [World.ask, h, prompted, World.print, Text.repeated]

theorem ask_further (w : World) (k : Nat) (line : InputLine) (rest : List InputLine) :
    (prompted w k (line :: rest)).ask Session.morePrompt = (some line, prompted w (k + 1) rest) := by
  simp [World.ask, prompted, World.print, Text.repeated_add, Text.repeated_one, String.append_assoc]

theorem ask_further_none (w : World) (k : Nat) :
    (prompted w k []).ask Session.morePrompt = (none, prompted w (k + 1) []) := by
  simp [World.ask, prompted, World.print, Text.repeated_add, Text.repeated_one, String.append_assoc]

theorem gather_of_not {w : World} {s : String} (h : ¬ Continues s) : gather w s = (.command s, w) := by
  unfold Continues at h
  rw [gather, if_neg h]

theorem gather_typed {w : World} {s : String} (h : Continues s) (k : Nat) (line : String) (rest : List InputLine) :
    gather (prompted w k (.typed line :: rest)) s =
      gather (prompted w (k + 1) rest) (String.ofList s.toList.dropLast ++ "\n" ++ line) := by
  have hask := ask_further w k (.typed line) rest
  unfold Continues at h
  rw [gather, if_pos h]
  split <;> simp_all

theorem gather_interrupt {w : World} {s : String} (h : Continues s) (k : Nat) (rest : List InputLine) :
    gather (prompted w k (.interrupt :: rest)) s = (.interrupted, prompted w (k + 1) rest) := by
  have hask := ask_further w k .interrupt rest
  unfold Continues at h
  rw [gather, if_pos h]
  split <;> simp_all

theorem gather_none {w : World} {s : String} (h : Continues s) (k : Nat) :
    gather (prompted w k []) s = (.finished, prompted w (k + 1) []) := by
  have hask := ask_further_none w k
  unfold Continues at h
  rw [gather, if_pos h]
  split <;> simp_all

/-- A line that goes on is not empty. -/
theorem Continues.ne_empty {line : String} (h : Continues line) : line ≠ "" := by
  rintro rfl
  simp [Continues] at h

theorem not_continues_newline (s : String) : ¬ Continues (s ++ "\n") := by simp [Continues]

/-- Behind a text that does not go on, a line decides. -/
theorem continues_append {before line : String} (h : ¬ Continues before) : Continues (before ++ line) ↔ Continues line := by
  unfold Continues at *
  rw [String.toList_append, List.getLast?_append]
  cases hline : line.toList.getLast? with
  | none => simpa using h
  | some c => simp

/-- To take the backslash off a text is to take it off its last line. -/
theorem cut_append {before line : String} (h : Continues line) :
    String.ofList (before ++ line).toList.dropLast = before ++ String.ofList line.toList.dropLast := by
  have hne : line.toList ≠ [] := by
    intro hnil
    simp [Continues, hnil] at h
  rw [String.toList_append, List.dropLast_append_of_ne_nil hne, String.ofList_append, String.ofList_toList]

/-- What is gathered over lines that go on: the text that they come to goes on as well, and without its backslash it is these lines
put together. -/
theorem gather_lines {w : World} {line : String} {lines : List String} (hline : Continues line)
    (hlines : ∀ s ∈ lines, Continues s) (before : String) (hbefore : ¬ Continues before) (k : Nat) (tail : List InputLine) :
    ∃ s, Continues s ∧ String.ofList s.toList.dropLast ++ "\n" = before ++ glued (line :: lines) ∧
      gather (prompted w k (lines.map InputLine.typed ++ tail)) (before ++ line) =
        gather (prompted w (k + lines.length) tail) s := by
  induction lines generalizing line before k with
  | nil =>
    refine ⟨before ++ line, (continues_append hbefore).mpr hline, ?_, rfl⟩
    rw [cut_append hline]
    simp [glued, String.append_assoc]
  | cons next lines ih =>
    obtain ⟨hnext, hlines⟩ := List.forall_mem_cons.mp hlines
    obtain ⟨s, hs, hglued, hgather⟩ := ih hnext hlines _ (not_continues_newline (before ++ String.ofList line.toList.dropLast)) (k + 1)
    refine ⟨s, hs, ?_, ?_⟩
    · rw [hglued]
      simp [glued, String.append_assoc]
    · rw [List.map_cons, List.cons_append, gather_typed ((continues_append hbefore).mpr hline), cut_append hline, hgather,
        List.length_cons, Nat.add_right_comm, Nat.add_assoc]

theorem enter_of_gather {w w' : World} {line : String} {rest : List InputLine} {entry : Entry} (hinput : w.input = .typed line :: rest)
    (hline : line ≠ "") (h : gather (prompted w 0 rest) line = (entry, w')) : enter w = (.ok entry, w') := by
  rw [enter, ask_first hinput]
  simp only [hline, if_false, h]

/-- The lines of a command are put together. -/
theorem enter_of_entered {w w' : World} {s : String} (h : Entered w s w') :
    enter w = (if s = "" then .error .emptyCommand else .ok (.command s), w') := by
  obtain ⟨lines, last, rest, ⟨hinput, hlines⟩, hlast, rfl, rfl⟩ := h
  cases lines with
  | nil =>
    by_cases hempty : last = ""
    · rw [enter, ask_first hinput]
      simp [glued, hempty]
    · rw [enter_of_gather hinput hempty (gather_of_not hlast)]
      simp [glued, hempty]
  | cons line lines =>
    obtain ⟨hline, hlines⟩ := List.forall_mem_cons.mp hlines
    obtain ⟨s, hs, htext, hgather⟩ := gather_lines (w := w) hline hlines "" (by simp [Continues]) 0 (.typed last :: rest)
    rw [String.empty_append] at htext
    have hends : ¬ Continues (glued (line :: lines)) := htext ▸ not_continues_newline (String.ofList s.toList.dropLast)
    have hwhole : ¬ Continues (glued (line :: lines) ++ last) := mt (continues_append hends).mp hlast
    rw [String.empty_append, Nat.zero_add, gather_typed hs, htext, gather_of_not hwhole] at hgather
    rw [enter_of_gather hinput hline.ne_empty hgather, if_neg (by simp [glued])]
    rfl

/-- An interruption at any of the prompts is one of the command. -/
theorem enter_of_interrupt {w : World} {lines : List String} {rest : List InputLine} (h : Heard w lines (.interrupt :: rest)) :
    enter w = (.ok .interrupted, prompted w lines.length rest) := by
  obtain ⟨hinput, hlines⟩ := h
  cases lines with
  | nil =>
    rw [enter, ask_first hinput]
    rfl
  | cons line lines =>
    obtain ⟨hline, hlines⟩ := List.forall_mem_cons.mp hlines
    obtain ⟨s, hs, _, hgather⟩ := gather_lines (w := w) hline hlines "" (by simp [Continues]) 0 (.interrupt :: rest)
    rw [String.empty_append, Nat.zero_add, gather_interrupt hs] at hgather
    exact enter_of_gather hinput hline.ne_empty hgather

/-- The input may end at any of the prompts. -/
theorem enter_of_end {w : World} {lines : List String} (h : Heard w lines []) :
    enter w = (.ok .finished, prompted w lines.length []) := by
  obtain ⟨hinput, hlines⟩ := h
  cases lines with
  | nil =>
    rw [enter, ask_none hinput]
    rfl
  | cons line lines =>
    obtain ⟨hline, hlines⟩ := List.forall_mem_cons.mp hlines
    obtain ⟨s, hs, _, hgather⟩ := gather_lines (w := w) hline hlines "" (by simp [Continues]) 0 []
    rw [String.empty_append, Nat.zero_add, gather_none hs] at hgather
    exact enter_of_gather hinput hline.ne_empty hgather

/-! ## Before an evaluation -/

/-- How far a turn gets by itself: its end is settled, or an expression is to be evaluated. -/
inductive Stage where
  | settled (t : Turn)
  | evaluate (e : Expr)

/-- Whether a source is given by the command that is entered, and how the world is left. -/
def Sourced (w : World) (text : String) (w' : World) : Prop :=
  ∃ s w₁, Entered w s w₁ ∧ Text.words s ≠ [] ∧ Session.source s (Text.words s) w₁ = (.ok text, w')

/-- What a turn comes to before an evaluation, and how the world is left. -/
inductive Reaches (w : World) : Stage → World → Prop where
  | finished {lines : List String} (h : Heard w lines []) : Reaches w (.settled .finished) (prompted w lines.length [])
  | interrupted {lines : List String} {rest : List InputLine} (h : Heard w lines (.interrupt :: rest)) :
    Reaches w (.settled .next) ((prompted w lines.length rest).printLine Session.interruptLine)
  | empty {w' : World} (h : Entered w "" w') : Reaches w (.settled (.stopped .emptyCommand)) w'
  | blank {s : String} {w' : World} (h : Entered w s w') (hs : s ≠ "") (hwords : Text.words s = []) :
    Reaches w (.settled (.stopped .blankCommand)) w'
  | unsourced {s : String} {w₁ w' : World} {e : SessionFailure} (h : Entered w s w₁) (hwords : Text.words s ≠ [])
    (hsource : Session.source s (Text.words s) w₁ = (.error e, w')) : Reaches w (.settled (.stopped e)) w'
  | unread {text : String} {w' : World} {e : ParseError} (h : Sourced w text w') (hparse : Tree.parse text = .error e) :
    Reaches w (.settled .next) (w'.printLine (Program.parseErrorLine e))
  | unbuilt {text label : String} {w' : World} {t : Tree} {counts : List Nat} (h : Sourced w text w')
    (hparse : Tree.parse text = .ok t) (hbuild : Expr.ofTree t [] = .error (.failed label .notNumeral) counts) :
    Reaches w (.settled (.stopped (.build (.failed label .notNumeral)))) (w'.print (Program.announcements counts))
  | ready {text running : String} {w' : World} {t : Tree} {e : Expr} {counts : List Nat} (h : Sourced w text w')
    (hparse : Tree.parse text = .ok t) (hbuild : Expr.ofTree t [] = .ok e counts) (hrunning : e.text? = some running) :
    Reaches w (.evaluate e) ((w'.print (Program.announcements counts)).printLine s!"running {running}")

/-- A source that was read is converted, or has a numeral with too many digits; and then its expression has a text. -/
theorem build_cases {text : String} {t : Tree} (h : Tree.parse text = .ok t) :
    (∃ label counts, Expr.ofTree t [] = .error (.failed label .notNumeral) counts) ∨
      ∃ e counts running, Expr.ofTree t [] = .ok e counts ∧ e.text? = some running := by
  cases hbuild : Expr.ofTree t [] with
  | ok e counts =>
    have hparsed : e.Parsed := ⟨text, t, counts, h, hbuild⟩
    obtain ⟨running, hrunning⟩ := hparsed.legible.exists_text?
    exact .inr ⟨e, counts, running, rfl, hrunning⟩
  | error err counts =>
    obtain ⟨p, rfl, _⟩ := Tree.exists_phrase_of_parse h
    have hgives := p.gives_ofTree []
    rw [hbuild] at hgives
    obtain ⟨_, label, rfl⟩ := hgives
    exact .inl ⟨label, counts, rfl⟩

/-- Every turn comes to a stage. -/
theorem exists_reaches (w : World) : ∃ stage w', Reaches w stage w' := by
  obtain ⟨lines, tail, hheard, rfl | ⟨rest, rfl⟩ | ⟨last, rest, rfl, hlast⟩⟩ := exists_heard w
  · exact ⟨_, _, .finished hheard⟩
  · exact ⟨_, _, .interrupted hheard⟩
  · have hentered : Entered w (glued lines ++ last) (prompted w lines.length rest) := ⟨lines, last, rest, hheard, hlast, rfl, rfl⟩
    generalize glued lines ++ last = s at hentered
    by_cases hempty : s = ""
    · subst hempty
      exact ⟨_, _, .empty hentered⟩
    by_cases hwords : Text.words s = []
    · exact ⟨_, _, .blank hentered hempty hwords⟩
    rcases hsource : Session.source s (Text.words s) (prompted w lines.length rest) with ⟨e | text, w'⟩
    · exact ⟨_, _, .unsourced hentered hwords hsource⟩
    have hsourced : Sourced w text w' := ⟨s, _, hentered, hwords, hsource⟩
    cases hparse : Tree.parse text with
    | error e => exact ⟨_, _, .unread hsourced hparse⟩
    | ok t =>
      rcases build_cases hparse with ⟨label, counts, hbuild⟩ | ⟨e, counts, running, hbuild, hrunning⟩
      · exact ⟨_, _, .unbuilt hsourced hparse hbuild⟩
      · exact ⟨_, _, .ready hsourced hparse hbuild hrunning⟩

/-- How a turn ends with an evaluation. -/
def conclude : EStateM.Result Fault Machine Value → Turn × World
  | .ok v m =>
    match v.text? with
    | some text => (.next, (m.world.printLine s!"result: {text}").printLine "")
    | none => (.stopped (.run (.fault .numeralTooLong)), m.world)
  | .error (.misuse misuse) m => (.next, (m.world.printLine misuse.message).printLine "")
  | .error f m => Session.report (.fault f) m.world

theorem turn_of_entered {w w₁ : World} {s : String} (h : Entered w s w₁) (hwords : Text.words s ≠ []) (depth : Nat) :
    turn depth w = command depth s w₁ := by
  have hs : s ≠ "" := by
    rintro rfl
    exact hwords (Text.words_eq_nil.mpr (by simp))
  rw [turn, enter_of_entered h, if_neg hs]

theorem turn_of_sourced {w w' : World} {text : String} (h : Sourced w text w') (depth : Nat) :
    turn depth w = execute depth text w' := by
  obtain ⟨s, w₁, hentered, hwords, hsource⟩ := h
  rw [turn_of_entered hentered hwords, command, if_neg (by simpa using hwords), hsource]

/-- A turn whose end is settled before an evaluation. -/
theorem turn_of_settled {w w' : World} {t : Turn} (h : Reaches w (.settled t) w') (depth : Nat) : turn depth w = (t, w') := by
  cases h with
  | finished h => rw [turn, enter_of_end h]
  | interrupted h => rw [turn, enter_of_interrupt h]
  | empty h =>
    rw [turn, enter_of_entered h]
    rfl
  | blank h hs hwords =>
    rw [turn, enter_of_entered h, if_neg hs]
    simp [command, hwords]
  | unsourced h hwords hsource => rw [turn_of_entered h hwords, command, if_neg (by simpa using hwords), hsource]
  | unread h hparse => rw [turn_of_sourced h, execute, hparse]
  | unbuilt h hparse hbuild =>
    rw [turn_of_sourced h]
    simp only [execute, hparse, Program.convert, hbuild]

/-- A source that is read and converted is announced and evaluated. -/
theorem execute_of_ready {text running : String} {t : Tree} {e : Expr} {counts : List Nat} (hparse : Tree.parse text = .ok t)
    (hbuild : Expr.ofTree t [] = .ok e counts) (hrunning : e.text? = some running) (depth : Nat) (w : World) :
    execute depth text w =
      conclude (e.evalClosed depth ((w.print (Program.announcements counts)).printLine s!"running {running}")) := by
  simp only [execute, hparse, Program.convert, hbuild, Program.run, hrunning, if_true, Program.execute]
  cases e.evalClosed depth _ with
  | ok v m =>
    simp only [Program.report_plain, conclude]
    cases v.text? <;> rfl
  | error f m => cases f <;> rfl

/-- A turn that comes to an evaluation. -/
theorem turn_of_evaluate {w w' : World} {e : Expr} (h : Reaches w (.evaluate e) w') (depth : Nat) :
    turn depth w = conclude (e.evalClosed depth w') := by
  cases h with
  | ready h hparse hbuild hrunning => rw [turn_of_sourced h, execute_of_ready hparse hbuild hrunning]

/-! ## From turn to turn -/

/-- Whether some of the lines that were to come have been used up, and how many of them are left. -/
structure Advances (w w' : World) : Prop where
  suffix : w'.input <:+ w.input
  shorter : w'.input.length < w.input.length

theorem Advances.trans {w w₁ w' : World} (h : Advances w w₁) (h' : w'.input <:+ w₁.input) : Advances w w' where
  suffix := h'.trans h.suffix
  shorter := Nat.lt_of_le_of_lt h'.length_le h.shorter

theorem Heard.advances {w : World} {lines : List String} {line : InputLine} {rest : List InputLine} (h : Heard w lines (line :: rest))
    (k : Nat) : Advances w (prompted w k rest) where
  suffix := by
    rw [h.input]
    exact ((List.suffix_cons line rest).trans (List.suffix_append _ _))
  shorter := by
    rw [h.input, List.length_append, List.length_cons]
    show rest.length < _
    omega

theorem Entered.advances {w w' : World} {s : String} (h : Entered w s w') : Advances w w' := by
  obtain ⟨lines, last, rest, hheard, _, _, rfl⟩ := h
  exact hheard.advances _

/-- To look for the source of a command changes nothing but what is printed. -/
theorem source_prints {s : String} {words : List String} {w w' : World} {r : Except SessionFailure String}
    (h : source s words w = (r, w')) : ∃ out, w' = { w with out := out } := by
  unfold source at h
  split at h
  · split at h
    · split at h <;> cases h <;> exact ⟨_, rfl⟩
    · split at h <;> cases h <;> exact ⟨_, rfl⟩
  · cases h
    exact ⟨_, rfl⟩
  · cases h
    exact ⟨_, rfl⟩

theorem source_input {s : String} {words : List String} {w w' : World} {r : Except SessionFailure String}
    (h : source s words w = (r, w')) : w'.input = w.input := by
  obtain ⟨out, rfl⟩ := source_prints h
  rfl

theorem Sourced.advances {w w' : World} {text : String} (h : Sourced w text w') : Advances w w' := by
  obtain ⟨s, w₁, hentered, _, hsource⟩ := h
  exact hentered.advances.trans (source_input hsource ▸ List.suffix_refl _)

/-- A turn uses up a line before it evaluates anything, unless the input ends. -/
theorem Reaches.advances {w w' : World} {stage : Stage} (h : Reaches w stage w') (hstage : stage ≠ .settled .finished) :
    Advances w w' := by
  cases h with
  | finished => exact absurd rfl hstage
  | interrupted h => exact (h.advances 0).trans (List.suffix_refl _)
  | empty h | blank h => exact h.advances
  | unsourced h _ hsource => exact h.advances.trans (source_input hsource ▸ List.suffix_refl _)
  | unread h | unbuilt h | ready h => exact h.advances.trans (List.suffix_refl _)

/-- The end of a turn changes nothing but what is printed. -/
theorem conclude_prints (result : EStateM.Result Fault Machine Value) :
    ∃ out, (conclude result).2 = { (EvalM.left result).world with out := out } := by
  cases result with
  | ok v m =>
    rw [conclude]
    cases v.text? <;> exact ⟨_, rfl⟩
  | error f m => cases f <;> exact ⟨_, rfl⟩

theorem conclude_input (result : EStateM.Result Fault Machine Value) : (conclude result).2.input = (EvalM.left result).world.input := by
  obtain ⟨out, hout⟩ := conclude_prints result
  rw [hout]

/-- A turn that is not the last one uses up a line. -/
theorem advances_of_next {depth : Nat} {w w' : World} (h : turn depth w = (.next, w')) : Advances w w' := by
  obtain ⟨stage, w₁, hstage⟩ := exists_reaches w
  cases stage with
  | settled t =>
    rw [turn_of_settled hstage] at h
    cases h
    exact hstage.advances (by simp)
  | evaluate e =>
    have hinput := conclude_input (e.evalClosed depth w₁)
    rw [← turn_of_evaluate hstage depth, h] at hinput
    refine (hstage.advances (by simp)).trans ?_
    rw [hinput]
    exact Expr.input_left depth [] e ⟨.empty, w₁⟩

/-- There are turns enough when there are more of them than lines. -/
theorem turns_eq (depth : Nat) {n k : Nat} {w : World} (hn : w.input.length < n) (hk : w.input.length < k) :
    turns depth n w = turns depth k w := by
  induction n generalizing k w with
  | zero => omega
  | succ n ih =>
    cases k with
    | zero => omega
    | succ k =>
      rw [turns, turns]
      rcases hturn : turn depth w with ⟨_ | _ | e, w'⟩
      · have hshorter := (advances_of_next hturn).shorter
        exact ih (by omega) (by omega)
      · rfl
      · rfl

theorem run_of_next {depth : Nat} {w w' : World} (h : turn depth w = (.next, w')) : run depth w = run depth w' := by
  have hshorter := (advances_of_next h).shorter
  rw [run, turns, h]
  exact turns_eq depth hshorter (Nat.lt_succ_self _)

theorem run_of_finished {depth : Nat} {w w' : World} (h : turn depth w = (.finished, w')) : run depth w = (none, w') := by
  rw [run, turns, h]

theorem run_of_stopped {depth : Nat} {w w' : World} {e : SessionFailure} (h : turn depth w = (.stopped e, w')) :
    run depth w = (some e, w') := by
  rw [run, turns, h]

/-- The worlds in which a session asks for a command. -/
inductive Prompts (depth : Nat) (w : World) : World → Prop where
  | first : Prompts depth w w
  | next {u v : World} (h : Prompts depth w u) (hturn : turn depth u = (.next, v)) : Prompts depth w v

/-- A session goes on from each of its prompts. -/
theorem Prompts.run_eq {depth : Nat} {w u : World} (h : Prompts depth w u) : run depth w = run depth u := by
  induction h with
  | first => rfl
  | next _ hturn ih => rw [ih, run_of_next hturn]

theorem Prompts.trans {depth : Nat} {w u v : World} (h : Prompts depth w u) (h' : Prompts depth u v) : Prompts depth w v := by
  induction h' with
  | first => exact h
  | next _ hturn ih => exact ih.next hturn

/-- Every session comes to a last turn, and ends as that turn does. -/
theorem exists_last (depth : Nat) (w : World) :
    ∃ u w', Prompts depth w u ∧
      (turn depth u = (.finished, w') ∧ run depth w = (none, w') ∨
        ∃ e, turn depth u = (.stopped e, w') ∧ run depth w = (some e, w')) := by
  -- Each turn that is not the last one leaves fewer lines.
  induction hlength : w.input.length using Nat.strongRecOn generalizing w with
  | ind n ih =>
    rcases hturn : turn depth w with ⟨_ | _ | e, w'⟩
    · have hshorter := (advances_of_next hturn).shorter
      obtain ⟨u, v, hprompts, hlast⟩ := ih _ (hlength ▸ hshorter) w' rfl
      refine ⟨u, v, (Prompts.first.next hturn).trans hprompts, ?_⟩
      rw [run_of_next hturn]
      exact hlast
    · exact ⟨w, w', .first, .inl ⟨hturn, run_of_finished hturn⟩⟩
    · exact ⟨w, w', .first, .inr ⟨e, hturn, run_of_stopped hturn⟩⟩

end Session

end TuneLang
