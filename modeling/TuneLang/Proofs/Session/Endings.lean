import TuneLang.Proofs.Session.Turn

/-!
# How sessions end

A session ends with its input, or is cut short. It is cut short by a command without words, by a file that is not read for another
reason than that it is not found, by a numeral with too many digits, and by the faults of a run that are not reported
(`Session.Stops`). Everything else is reported, and the session asks for the next command (`Session.Recovers`). `Session.endings` puts
this together for whole sessions.
-/

namespace TuneLang

/-- What a session may be cut short with: a command without words, a file that is not read for another reason than that it is not found,
a numeral that is too long in an integer or a note of the source, or in what a run writes, and a count that is too large. -/
def SessionFailure.Expected : SessionFailure → Prop
  | .emptyCommand | .blankCommand | .notText => True
  | .file err => err.cause ≠ .notFound
  | .build err => ∃ label, (label = "int" ∨ label = "note") ∧ err = .failed label .notNumeral
  | .run f => f = .fault .numeralTooLong ∨ f = .fault .countTooLarge

namespace Session

/-! ## What cuts a turn short -/

/-- Whether the file at a path is not read, for another reason than that it is not found, and what cuts the session short then. -/
def Unreadable (files : Files) (path : String) (e : SessionFailure) : Prop :=
  (∃ err, files.read path = .error err ∧ err.cause ≠ .notFound ∧ e = .file err) ∨
    ∃ bytes, files.read path = .ok bytes ∧ decode? bytes = none ∧ e = .notText

/-- What cuts a turn short. -/
inductive Stops (w : World) : SessionFailure → Prop where
  | empty {w' : World} (h : Entered w "" w') : Stops w .emptyCommand
  | blank {s : String} {w' : World} (h : Entered w s w') (hs : s ≠ "") (hblank : ∀ c ∈ s.toList, Text.isBlank c = true) :
    Stops w .blankCommand
  | file {s path : String} {more : List String} {w' : World} {err : FileError} (h : Entered w s w')
    (hwords : Text.words s = "dofile" :: path :: more) (hread : w'.files.read path = .error err) (hcause : err.cause ≠ .notFound) :
    Stops w (.file err)
  | notText {s path : String} {more : List String} {w' : World} {bytes : List UInt8} (h : Entered w s w')
    (hwords : Text.words s = "dofile" :: path :: more) (hread : w'.files.read path = .ok bytes) (hdecode : decode? bytes = none) :
    Stops w .notText
  | numeral {text label : String} {w' : World} {t : Tree} (h : Sourced w text w') (hparse : Tree.parse text = .ok t)
    (hlong : ∃ digits ∈ t.numerals, Numeral.maxDigits < digits.length) (hlabel : label = "int" ∨ label = "note") :
    Stops w (.build (.failed label .notNumeral))
  | fault {e : Expr} {w' : World} {f : Fault} (h : Reaches w (.evaluate e) w')
    (hf : f = .numeralTooLong ∨ f = .countTooLarge ∨ f = .endless) : Stops w (.run (.fault f))

/-- A command has no source exactly when it names a file that is not read, for another reason than that it is not found. -/
theorem source_error_iff {s : String} {words : List String} {w w' : World} {e : SessionFailure} :
    source s words w = (.error e, w') ↔ (∃ path more, words = "dofile" :: path :: more ∧ Unreadable w.files path e) ∧ w' = w := by
  constructor
  · intro h
    unfold source at h
    split at h
    · rename_i path more
      split at h
      · rename_i bytes hread
        split at h
        · cases h
        · rename_i hdecode
          cases h
          exact ⟨⟨path, more, rfl, .inr ⟨bytes, hread, hdecode, rfl⟩⟩, rfl⟩
      · rename_i err hread
        split at h
        · cases h
        · rename_i hcause
          cases h
          exact ⟨⟨path, more, rfl, .inl ⟨err, hread, hcause, rfl⟩⟩, rfl⟩
    · cases h
    · cases h
  · rintro ⟨⟨path, more, rfl, ⟨err, hread, hcause, rfl⟩ | ⟨bytes, hread, hdecode, rfl⟩⟩, rfl⟩
    · unfold source
      simp only [hread, hcause, if_false]
    · unfold source
      simp only [hread, hdecode]

/-- A tree that cannot be converted has a numeral with too many digits, and an integer or a note is named. -/
theorem long_of_unbuilt {text label : String} {t : Tree} {counts : List Nat} (hparse : Tree.parse text = .ok t)
    (hbuild : Expr.ofTree t [] = .error (.failed label .notNumeral) counts) :
    (∃ digits ∈ t.numerals, Numeral.maxDigits < digits.length) ∧ (label = "int" ∨ label = "note") := by
  constructor
  · refine Classical.byContradiction fun hno => ?_
    have hshort : ∀ digits ∈ t.numerals, digits.length ≤ Numeral.maxDigits :=
      fun digits hdigits => Nat.le_of_not_lt fun hlong => hno ⟨digits, hdigits, hlong⟩
    obtain ⟨e, hok, _⟩ := Expr.ofTree_of_short hparse hshort
    rw [hok] at hbuild
    cases hbuild
  · have haccounts := Expr.accounts_ofTree t []
    rw [hbuild] at haccounts
    exact haccounts label rfl

/-- The faults with which the end of a turn cuts it short. -/
theorem fault_of_conclude {result : EStateM.Result Fault Machine Value} {e : SessionFailure} {w : World}
    (h : conclude result = (.stopped e, w)) :
    ∃ f, e = .run (.fault f) ∧ (f = .numeralTooLong ∨ f = .countTooLarge ∨ f = .endless) := by
  cases result with
  | ok v m =>
    rw [conclude] at h
    split at h
    · cases h
    · cases h
      exact ⟨_, rfl, .inl rfl⟩
  | error f m =>
    cases f with
    | numeralTooLong | countTooLarge | endless =>
      cases h
      exact ⟨_, rfl, by simp⟩
    | _ => cases h

/-- A turn that is cut short has a cause. -/
theorem stops_of_turn {depth : Nat} {w w' : World} {e : SessionFailure} (h : turn depth w = (.stopped e, w')) : Stops w e := by
  obtain ⟨stage, w₁, hstage⟩ := exists_reaches w
  cases stage with
  | evaluate e =>
    rw [turn_of_evaluate hstage] at h
    obtain ⟨f, rfl, hf⟩ := fault_of_conclude h
    exact .fault hstage hf
  | settled t =>
    rw [turn_of_settled hstage] at h
    cases h
    cases hstage with
    | empty h => exact .empty h
    | blank h hs hwords => exact .blank h hs (Text.words_eq_nil.mp hwords)
    | unsourced h hwords hsource =>
      obtain ⟨⟨path, more, hdofile, ⟨err, hread, hcause, rfl⟩ | ⟨bytes, hread, hdecode, rfl⟩⟩, _⟩ := source_error_iff.mp hsource
      · exact .file h hdofile hread hcause
      · exact .notText h hdofile hread hdecode
    | unbuilt h hparse hbuild =>
      obtain ⟨hlong, hlabel⟩ := long_of_unbuilt hparse hbuild
      exact .numeral h hparse hlong hlabel

/-- A session is cut short exactly when one of its turns is. -/
theorem run_eq_some_iff {depth : Nat} {w w' : World} {e : SessionFailure} :
    run depth w = (some e, w') ↔ ∃ u, Prompts depth w u ∧ turn depth u = (.stopped e, w') := by
  constructor
  · intro h
    obtain ⟨u, v, hprompts, ⟨_, hrun⟩ | ⟨e', hturn, hrun⟩⟩ := exists_last depth w
    · rw [hrun] at h
      cases h
    · rw [hrun] at h
      cases h
      exact ⟨u, hprompts, hturn⟩
  · rintro ⟨u, hprompts, hturn⟩
    rw [hprompts.run_eq, run_of_stopped hturn]

/-- A session that is cut short comes to a prompt where there is a cause for it. -/
theorem exists_stops {depth : Nat} {w : World} {e : SessionFailure} (h : (run depth w).1 = some e) :
    ∃ u, Prompts depth w u ∧ Stops u e := by
  obtain ⟨u, hprompts, hturn⟩ := run_eq_some_iff.mp (Prod.ext h rfl)
  exact ⟨u, hprompts, stops_of_turn hturn⟩

theorem run_fst_of_stopped {depth : Nat} {w u v : World} {e : SessionFailure} (h : Prompts depth w u)
    (hstage : Reaches u (.settled (.stopped e)) v) : (run depth w).1 = some e := by
  rw [run_eq_some_iff.mpr ⟨u, h, turn_of_settled hstage depth⟩]

/-- A command without words cuts a session short, and nothing else does so in this way. -/
theorem run_blank_iff {depth : Nat} {w : World} :
    ((run depth w).1 = some .emptyCommand ∨ (run depth w).1 = some .blankCommand) ↔
      ∃ u s v, Prompts depth w u ∧ Entered u s v ∧ ∀ c ∈ s.toList, Text.isBlank c = true := by
  constructor
  · rintro (h | h)
    · obtain ⟨u, hprompts, hstops⟩ := exists_stops h
      cases hstops with
      | empty hentered => exact ⟨u, "", _, hprompts, hentered, by simp⟩
    · obtain ⟨u, hprompts, hstops⟩ := exists_stops h
      cases hstops with
      | blank hentered _ hblank => exact ⟨u, _, _, hprompts, hentered, hblank⟩
  · rintro ⟨u, s, v, hprompts, hentered, hblank⟩
    by_cases hs : s = ""
    · subst hs
      exact .inl (run_fst_of_stopped hprompts (.empty hentered))
    · exact .inr (run_fst_of_stopped hprompts (.blank hentered hs (Text.words_eq_nil.mpr hblank)))

/-- A file that is not read cuts a session short, unless it is not found. -/
theorem run_unreadable_iff {depth : Nat} {w : World} :
    ((∃ err, (run depth w).1 = some (.file err)) ∨ (run depth w).1 = some .notText) ↔
      ∃ u s v path more e, Prompts depth w u ∧ Entered u s v ∧ Text.words s = "dofile" :: path :: more ∧
        Unreadable v.files path e := by
  constructor
  · rintro (⟨err, h⟩ | h)
    · obtain ⟨u, hprompts, hstops⟩ := exists_stops h
      cases hstops with
      | file hentered hwords hread hcause =>
        exact ⟨u, _, _, _, _, _, hprompts, hentered, hwords, .inl ⟨err, hread, hcause, rfl⟩⟩
    · obtain ⟨u, hprompts, hstops⟩ := exists_stops h
      cases hstops with
      | notText hentered hwords hread hdecode =>
        exact ⟨u, _, _, _, _, _, hprompts, hentered, hwords, .inr ⟨_, hread, hdecode, rfl⟩⟩
  · rintro ⟨u, s, v, path, more, e, hprompts, hentered, hwords, hread⟩
    have hsource : source s (Text.words s) v = (.error e, v) := source_error_iff.mpr ⟨⟨path, more, hwords, hread⟩, rfl⟩
    have hrun := run_fst_of_stopped hprompts (.unsourced hentered (by simp [hwords]) hsource)
    rcases hread with ⟨err, _, _, rfl⟩ | ⟨_, _, _, rfl⟩
    · exact .inl ⟨err, hrun⟩
    · exact .inr hrun

/-- A numeral with too many digits cuts a session short when its command is converted, and nothing else does so. -/
theorem run_build_iff {depth : Nat} {w : World} :
    (∃ err, (run depth w).1 = some (.build err)) ↔
      ∃ u text v t, Prompts depth w u ∧ Sourced u text v ∧ Tree.parse text = .ok t ∧
        ∃ digits ∈ t.numerals, Numeral.maxDigits < digits.length := by
  constructor
  · rintro ⟨err, h⟩
    obtain ⟨u, hprompts, hstops⟩ := exists_stops h
    cases hstops with
    | numeral hsourced hparse hlong => exact ⟨u, _, _, _, hprompts, hsourced, hparse, hlong⟩
  · rintro ⟨u, text, v, t, hprompts, hsourced, hparse, hlong⟩
    obtain ⟨label, counts, _, hbuild⟩ := Expr.ofTree_of_long hparse hlong
    exact ⟨_, run_fst_of_stopped hprompts (.unbuilt hsourced hparse hbuild)⟩

/-! ## What is reported -/

/-- What is reported before the next command is asked for, and how the world is left. -/
inductive Recovers (depth : Nat) (w : World) : World → Prop where
  | interrupted {lines : List String} {rest : List InputLine} (h : Heard w lines (.interrupt :: rest)) :
    Recovers depth w ((prompted w lines.length rest).printLine Session.interruptLine)
  | unread {text : String} {w' : World} {e : ParseError} (h : Sourced w text w') (hparse : Tree.parse text = .error e) :
    Recovers depth w (w'.printLine (Program.parseErrorLine e))
  | ambiguous {text : String} {w' : World} {t : Tree} {counts : List Nat} (h : Sourced w text w') (hparse : Tree.parse text = .ok t)
    (hbuild : Expr.ofTree t [] = .error .ambiguous counts) :
    Recovers depth w ((w'.print (Program.announcements counts)).printLine Program.ambiguousLine)
  | misuse {e : Expr} {w' : World} {misuse : Misuse} {m : Machine} (h : Reaches w (.evaluate e) w')
    (heval : e.evalClosed depth w' = .error (.misuse misuse) m) :
    Recovers depth w ((m.world.printLine misuse.message).printLine "")
  | unbound {e : Expr} {w' : World} {x : String} {m : Machine} (h : Reaches w (.evaluate e) w')
    (heval : e.evalClosed depth w' = .error (.unbound x) m) :
    Recovers depth w (m.world.printLine ("EnvError: " ++ Fault.unboundMessage x))
  | exchange {e : Expr} {w' : World} {failure : ExchangeFailure} {m : Machine} (h : Reaches w (.evaluate e) w')
    (heval : e.evalClosed depth w' = .error (.exchange failure) m) :
    Recovers depth w (m.world.printLine ("RuntimeError: " ++ failure.message))
  | brokenOff {e : Expr} {w' : World} {m : Machine} (h : Reaches w (.evaluate e) w')
    (heval : e.evalClosed depth w' = .error .interrupted m) : Recovers depth w (m.world.printLine Session.interruptLine)

/-- After what is reported, the session goes on. -/
theorem Recovers.turn_eq {depth : Nat} {w w' : World} (h : Recovers depth w w') : turn depth w = (.next, w') := by
  cases h with
  | interrupted h => exact turn_of_settled (.interrupted h) depth
  | unread h hparse => exact turn_of_settled (.unread h hparse) depth
  | ambiguous h hparse hbuild =>
    rw [turn_of_sourced h]
    simp only [execute, hparse, Program.convert, hbuild]
  | misuse h heval | unbound h heval | exchange h heval | brokenOff h heval =>
    rw [turn_of_evaluate h, heval]
    rfl

/-! ## Sessions -/

/-- The causes for which a session is cut short, but for an endless evaluation. -/
theorem Stops.expected {w : World} {e : SessionFailure} (h : Stops w e) (hendless : e ≠ .run (.fault .endless)) : e.Expected := by
  cases h with
  | empty | blank | notText => exact trivial
  | file _ _ _ hcause => exact hcause
  | numeral _ _ _ hlabel => exact ⟨_, hlabel, rfl⟩
  | fault _ hf =>
    rcases hf with rfl | rfl | rfl
    · exact .inl rfl
    · exact .inr rfl
    · exact absurd rfl hendless

/-- The end of a turn does not end the session. -/
theorem conclude_ne_finished (result : EStateM.Result Fault Machine Value) (w : World) : conclude result ≠ (.finished, w) := by
  cases result with
  | ok v m =>
    rw [conclude]
    split <;> simp
  | error f m => cases f <;> simp [conclude, report]

/-- A session ends without being cut short exactly when its input ends, at the prompt of a command or of a further line of it. -/
theorem run_eq_none_iff {depth : Nat} {w w' : World} :
    run depth w = (none, w') ↔ ∃ u lines, Prompts depth w u ∧ Heard u lines [] ∧ w' = prompted u lines.length [] := by
  constructor
  · intro h
    obtain ⟨u, v, hprompts, ⟨hturn, hrun⟩ | ⟨_, _, hrun⟩⟩ := exists_last depth w
    · rw [hrun] at h
      cases h
      obtain ⟨stage, w₁, hstage⟩ := exists_reaches u
      cases stage with
      | settled t =>
        rw [turn_of_settled hstage] at hturn
        cases hturn
        cases hstage with
        | finished hheard => exact ⟨u, _, hprompts, hheard, rfl⟩
      | evaluate e =>
        rw [turn_of_evaluate hstage] at hturn
        exact absurd hturn (conclude_ne_finished _ _)
    · rw [hrun] at h
      cases h
  · rintro ⟨u, lines, hprompts, hheard, rfl⟩
    rw [hprompts.run_eq, run_of_finished (turn_of_settled (.finished hheard) depth)]

/-- What can end a session. Unless an evaluation is endless, a session is cut short with one of few failures. It is cut short by a
command without words exactly when one is entered, by a file exactly when one is named that is not read for another reason than that it
is not found, and by the conversion of a command exactly when the command has a numeral with too many digits. The end of the input, at
any prompt, is the one way in which it ends otherwise. After everything that is reported it asks for the next command, with the lines
that are not used up yet. -/
theorem endings (depth : Nat) (w : World) :
    (∀ e w', run depth w = (some e, w') → e ≠ .run (.fault .endless) → e.Expected) ∧
    (((run depth w).1 = some .emptyCommand ∨ (run depth w).1 = some .blankCommand) ↔
      ∃ u s v, Prompts depth w u ∧ Entered u s v ∧ ∀ c ∈ s.toList, Text.isBlank c = true) ∧
    (((∃ err, (run depth w).1 = some (.file err)) ∨ (run depth w).1 = some .notText) ↔
      ∃ u s v path more e, Prompts depth w u ∧ Entered u s v ∧ Text.words s = "dofile" :: path :: more ∧
        Unreadable v.files path e) ∧
    ((∃ err, (run depth w).1 = some (.build err)) ↔
      ∃ u text v t, Prompts depth w u ∧ Sourced u text v ∧ Tree.parse text = .ok t ∧
        ∃ digits ∈ t.numerals, Numeral.maxDigits < digits.length) ∧
    (∀ w', run depth w = (none, w') ↔ ∃ u lines, Prompts depth w u ∧ Heard u lines [] ∧ w' = prompted u lines.length []) ∧
    ∀ u v, Prompts depth w u → Recovers depth u v → Prompts depth w v ∧ Advances u v := by
  refine ⟨fun e w' hrun hendless => ?_, run_blank_iff, run_unreadable_iff, run_build_iff, fun w' => run_eq_none_iff,
    fun u v hprompts hrecovers => ?_⟩
  · obtain ⟨u, _, hturn⟩ := run_eq_some_iff.mp hrun
    exact (stops_of_turn hturn).expected hendless
  · exact ⟨hprompts.next hrecovers.turn_eq, advances_of_next hrecovers.turn_eq⟩

/-- A command that cannot be read, and one of blanks alone. -/
def slip : World := { input := [.typed "(", .typed " "] }

/-- The first slip is reported, and the second one cuts the session short. -/
theorem endings_slip : (run 1 slip).1 = some .emptyCommand ∨ (run 1 slip).1 = some .blankCommand := by
  have hline : ∀ {w : World} {line : String} {rest : List InputLine}, w.input = .typed line :: rest → ¬ Continues line →
      Entered w line (prompted w 0 rest) := by
    intro w line rest hinput hlast
    exact ⟨[], line, rest, ⟨hinput, by simp⟩, hlast, String.empty_append.symm, rfl⟩
  have hfirst : Sourced slip "(" (prompted slip 0 [.typed " "]) :=
    ⟨"(", _, hline rfl (by simp [Continues]), by decide +kernel, rfl⟩
  have hunread : (Tree.parse "(").toOption = none := by decide +kernel
  cases hparse : Tree.parse "(" with
  | ok t =>
    rw [hparse] at hunread
    cases hunread
  | error e =>
    obtain ⟨hprompts, _⟩ := (endings 1 slip).2.2.2.2.2 slip _ .first (.unread hfirst hparse)
    have hblank : ∀ c ∈ " ".toList, Text.isBlank c = true := List.all_eq_true.mp (by decide)
    exact (endings 1 slip).2.1.mpr ⟨_, " ", _, hprompts, hline rfl (by simp [Continues]), hblank⟩

end Session

end TuneLang
