import TuneLang.Proofs.Session.Turn

/-!
# One session after another

A session keeps nothing from one command to the next but the world. So when the input of a session ends at the prompt of a command,
and would not have been missed by a question before, more lines behind it make the session go on as a new session with these lines
does, in the world that the first one left (`Session.run_append`).

The two sessions are compared through a change of the world (`World.within`): more lines to come behind those that there are, and in
front of what was printed, told to the system and recorded for playing what was so before. Every operation on the world carries this
change along, as long as it does not run into the end of the input.
-/

namespace TuneLang

/-- A world with more lines to come, and with what another one has printed, told to the system and recorded put in front. -/
def World.within (w before : World) (more : List InputLine) : World :=
  { w with
    input := w.input ++ more
    out := before.out ++ w.out
    commands := before.commands ++ w.commands
    temporaries := before.temporaries ++ w.temporaries }

variable {before : World} {more : List InputLine}

/-! ## Operations on the world -/

theorem World.within_print (w : World) (s : String) : (w.within before more).print s = (w.print s).within before more := by
  simp [World.print, World.within, String.append_assoc]

theorem World.within_printLine (w : World) (s : String) :
    (w.within before more).printLine s = (w.printLine s).within before more := World.within_print w _

/-- A question has the same answer when there is one, or when there are no more lines after all. -/
theorem World.within_ask {w : World} (h : w.input ≠ [] ∨ more = []) (prompt : String) :
    (w.within before more).ask prompt = ((w.ask prompt).1, (w.ask prompt).2.within before more) := by
  unfold World.ask
  rw [World.within_print]
  cases hinput : w.input with
  | nil =>
    obtain rfl : more = [] := h.resolve_left (absurd hinput)
    simp [World.within, World.print, hinput]
  | cons line rest => simp [World.within, World.print, hinput]

theorem World.within_issue (w : World) (command : String) :
    (w.within before more).issue command = ((w.issue command).1, (w.issue command).2.within before more) := by
  unfold World.issue
  cases hcodes : w.codes <;> simp [World.within, hcodes]

theorem World.within_play (w : World) (path : String) :
    (w.within before more).play path = ((w.play path).1, (w.play path).2.within before more) := by
  unfold World.play
  have hplatform : (w.within before more).platform = w.platform := rfl
  rw [hplatform, World.within_issue]
  split
  · rcases w.issue Player.findPlayer with ⟨found, w₁⟩
    by_cases hfound : found = 0
    · subst hfound
      simp only [World.within_issue]
      rcases w₁.issue (Player.findFile path) with ⟨present, w₂⟩
      by_cases hpresent : present = 0
      · subst hpresent
        simp only [World.within_issue]
        rcases w₂.issue (Player.start path) with ⟨played, w₃⟩
        by_cases hplayed : played = 0
        · subst hplayed
          rfl
        · simp
      · simp
    · simp
  · rfl

theorem World.within_record (w : World) (t : Tune) (path : String) :
    (w.within before more).record t path = ((w.record t path).1, (w.record t path).2.within before more) := rfl

theorem World.within_playTune (w : World) (t : Tune) :
    (w.within before more).playTune t = ((w.playTune t).1, (w.playTune t).2.within before more) := by
  have hrecorded : { w.within before more with temporaries := (w.within before more).temporaries ++ [(Midi.file t).1] } =
      World.within { w with temporaries := w.temporaries ++ [(Midi.file t).1] } before more := by
    simp [World.within]
  unfold World.playTune
  simp only [hrecorded, World.within_play]
  split <;> rfl

/-! ## Evaluations -/

namespace EvalM

theorem follows_printLine (s : String) (m : Machine) : Follows (World.within · before more) (EvalM.printLine s) m :=
  follows_onWorld (by rw [World.within_printLine])

theorem follows_display (v : Value) (m : Machine) : Follows (World.within · before more) (EvalM.display v) m := by
  unfold EvalM.display
  split
  · rename_i t
    refine (follows_written _ m).bind fun listing m₁ _ => (follows_printLine listing m₁).bind fun _ m₂ _ => ?_
    refine Follows.bind (follows_onWorld (World.within_playTune m₂.world t)) fun failure m₃ _ => ?_
    cases failure with
    | none => rfl
    | some reason => exact follows_printLine _ m₃
  · exact (follows_written _ m).bind fun text m₁ _ => follows_printLine text m₁

theorem follows_readInteger {m : Machine} (h : m.world.input ≠ [] ∨ more = []) :
    Follows (World.within · before more) EvalM.readInteger m := by
  refine Follows.bind (follows_onWorld (World.within_ask h _)) fun answer m₁ _ => ?_
  cases answer with
  | none => rfl
  | some line =>
    cases line with
    | interrupt => rfl
    | typed s => cases hread : Numeral.read? s <;> simp only [hread] <;> rfl

theorem follows_write (v : Value) (path : String) (m : Machine) : Follows (World.within · before more) (EvalM.write v path) m := by
  cases v with
  | tune t =>
    refine Follows.bind (follows_onWorld (World.within_record m.world t path)) fun failure m₁ _ => ?_
    cases failure <;> rfl
  | _ => rfl

theorem follows_run (path : String) (m : Machine) : Follows (World.within · before more) (EvalM.run path) m := by
  refine Follows.bind (follows_onWorld (World.within_play m.world path)) fun failure m₁ _ => ?_
  cases failure <;> rfl

end EvalM

/-- What an evaluation does, it does within any world, when each of its questions has an answer. -/
theorem Expr.evalClosed_within {depth : Nat} {e : Expr} {w : World}
    (h : ∀ env m, Moment.begins env .read m ∈ e.history depth [] ⟨.empty, w⟩ → m.world.input ≠ [] ∨ more = []) :
    e.evalClosed depth (w.within before more) = EvalM.moved (World.within · before more) (e.evalClosed depth w) := by
  show EvalM.Follows (World.within · before more) (e.eval depth []) ⟨.empty, w⟩
  refine Expr.eval_follows depth [] e ⟨.empty, w⟩ fun env₁ e₁ m₁ hbegins => ?_
  cases e₁ with
  | display a => exact fun v m => EvalM.follows_display v m
  | read => exact EvalM.follows_readInteger (h env₁ m₁ hbegins)
  | write a path => exact fun v m => EvalM.follows_write v path m
  | run path => exact EvalM.follows_run path m₁
  | _ => exact trivial

/-! ## Turns -/

namespace Session

/-- The end of a turn is the same within any world. -/
theorem conclude_within (result : EStateM.Result Fault Machine Value) :
    conclude (EvalM.moved (World.within · before more) result) =
      ((conclude result).1, (conclude result).2.within before more) := by
  cases result with
  | ok v m =>
    simp only [EvalM.moved, conclude, Machine.moved]
    cases v.text? <;> simp [World.within_printLine]
  | error f m => cases f <;> simp [EvalM.moved, conclude, Machine.moved, Session.report, World.within_printLine]

theorem prompted_within (w : World) (k : Nat) (rest : List InputLine) :
    prompted (w.within before more) k (rest ++ more) = (prompted w k rest).within before more := by
  simp [prompted, World.within, String.append_assoc]

theorem Heard.within {w : World} {lines : List String} {tail : List InputLine} (h : Heard w lines tail) :
    Heard (w.within before more) lines (tail ++ more) where
  input := by rw [World.within, h.input, List.append_assoc]
  continues := h.continues

theorem Entered.within {w w' : World} {s : String} (h : Entered w s w') :
    Entered (w.within before more) s (w'.within before more) := by
  obtain ⟨lines, last, rest, hheard, hlast, hs, rfl⟩ := h
  exact ⟨lines, last, rest ++ more, hheard.within, hlast, hs, (prompted_within w _ rest).symm⟩

theorem source_within (s : String) (words : List String) (w : World) :
    source s words (w.within before more) = ((source s words w).1, (source s words w).2.within before more) := by
  have hfiles : (w.within before more).files = w.files := rfl
  unfold source
  rw [hfiles, World.within_printLine]
  split
  · cases w.files.read _ with
    | ok bytes => cases hdecode : decode? bytes <;> simp [hdecode]
    | error e => by_cases hcause : e.cause = .notFound <;> simp [hcause, World.within_printLine]
  · rfl
  · rfl

theorem Sourced.within {w w' : World} {text : String} (h : Sourced w text w') :
    Sourced (w.within before more) text (w'.within before more) := by
  obtain ⟨s, w₁, hentered, hwords, hsource⟩ := h
  exact ⟨s, _, hentered.within, hwords, by rw [source_within, hsource]⟩

/-- A turn comes to the same stage within any world, if its prompts are answered, or if there are no more lines after all. -/
theorem Reaches.within {w w' : World} {stage : Stage} (h : Reaches w stage w') (hstage : stage ≠ .settled .finished ∨ more = []) :
    Reaches (w.within before more) stage (w'.within before more) := by
  cases h with
  | @finished lines h =>
    obtain rfl : more = [] := hstage.resolve_left (absurd rfl)
    rw [← prompted_within]
    exact .finished h.within
  | @interrupted lines rest h =>
    rw [← World.within_printLine, ← prompted_within]
    exact .interrupted h.within
  | empty h => exact .empty h.within
  | blank h hs hwords => exact .blank h.within hs hwords
  | unsourced h hwords hsource => exact .unsourced h.within hwords (by rw [source_within, hsource])
  | unread h hparse =>
    rw [← World.within_printLine]
    exact .unread h.within hparse
  | unbuilt h hparse hbuild =>
    rw [← World.within_print]
    exact .unbuilt h.within hparse hbuild
  | ready h hparse hbuild hrunning =>
    rw [← World.within_printLine, ← World.within_print]
    exact .ready h.within hparse hbuild hrunning

/-- Whether every question that is asked in a turn has an answer. -/
def TurnAnswered (depth : Nat) (w : World) : Prop :=
  ∀ e w' env m, Reaches w (.evaluate e) w' → Moment.begins env .read m ∈ e.history depth [] ⟨.empty, w'⟩ → m.world.input ≠ []

/-- A turn does the same within any world, if all that it asks is answered, or if there are no more lines after all. -/
theorem turn_within {depth : Nat} {w w' : World} {t : Turn} (h : turn depth w = (t, w'))
    (hanswered : t ≠ .finished ∧ TurnAnswered depth w ∨ more = []) :
    turn depth (w.within before more) = (t, w'.within before more) := by
  obtain ⟨stage, w₁, hstage⟩ := exists_reaches w
  cases stage with
  | settled t' =>
    rw [turn_of_settled hstage] at h
    cases h
    refine turn_of_settled (hstage.within (hanswered.imp_left fun hanswered => ?_)) depth
    exact fun heq => hanswered.1 (Stage.settled.inj heq)
  | evaluate e =>
    rw [turn_of_evaluate hstage] at h
    rw [turn_of_evaluate (hstage.within (.inl (by simp))), Expr.evalClosed_within, conclude_within, h]
    intro env m hbegins
    exact hanswered.imp_left fun hanswered => hanswered.2 e w₁ env m hstage hbegins

/-! ## Sessions -/

/-- Whether every question that is asked in a session has an answer. -/
def Answered (depth : Nat) (w : World) : Prop := ∀ u, Prompts depth w u → TurnAnswered depth u

/-- The prompts of a session are prompts within any world. -/
theorem Prompts.within {depth : Nat} {w u : World} (h : Prompts depth w u) (hanswered : Answered depth w ∨ more = []) :
    Prompts depth (w.within before more) (u.within before more) := by
  induction h with
  | first => exact .first
  | next hprompts hturn ih =>
    refine ih.next (turn_within hturn (hanswered.imp_left fun hanswered => ?_))
    exact ⟨by simp, hanswered _ hprompts⟩

/-- A session does the same after anything that was done before. -/
theorem run_within (depth : Nat) (w before : World) :
    run depth (w.within before []) = ((run depth w).1, (run depth w).2.within before []) := by
  obtain ⟨u, w', hprompts, ⟨hturn, hrun⟩ | ⟨e, hturn, hrun⟩⟩ := exists_last depth w
  · rw [(hprompts.within (.inr rfl)).run_eq, run_of_finished (turn_within hturn (.inr rfl)), hrun]
  · rw [(hprompts.within (.inr rfl)).run_eq, run_of_stopped (turn_within hturn (.inr rfl)), hrun]

/-- The world at the start of a session, with these lines to come: nothing has been printed, told to the system or played yet. -/
def opened (w : World) (lines : List InputLine) : World :=
  { input := lines, codes := w.codes, platform := w.platform, files := w.files }

/-- A session keeps no hidden state. When the input of a session ends at the prompt of a command, and no question before has met its
end, the session with more lines behind it ends as the session with these lines does that is opened in the world that the first one
left, and leaves the world so, but for what the first one has printed before its last prompt, has told the system and has played, which
comes in front. -/
theorem run_append {depth : Nat} {w u : World} {first : List InputLine} (hprompts : Prompts depth (opened w first) u)
    (hend : u.input = []) (hanswered : Answered depth (opened w first)) (second : List InputLine) :
    ∃ (w₁ w₂ : World) (out : String) (ending : Option SessionFailure),
      run depth (opened w first) = (none, w₁) ∧ w₁.out = out ++ Session.prompt ∧ run depth (opened w₁ second) = (ending, w₂) ∧
        run depth (opened w (first ++ second)) =
          (ending, { w₂ with
            out := out ++ w₂.out
            commands := w₁.commands ++ w₂.commands
            temporaries := w₁.temporaries ++ w₂.temporaries }) := by
  have hheard : Heard u [] [] := ⟨hend, by simp⟩
  have hlast : turn depth u = (.finished, prompted u 0 []) := turn_of_settled (.finished hheard) depth
  have hfirst : run depth (opened w first) = (none, prompted u 0 []) := by rw [hprompts.run_eq, run_of_finished hlast]
  -- With the further lines behind, the session comes to the same prompt, where these lines are left.
  have hmore : (opened w first).within {} second = opened w (first ++ second) := by simp [World.within, opened]
  have hboth : Prompts depth ((opened w first).within {} second) (u.within {} second) := hprompts.within (.inl hanswered)
  -- There it is as if a session were opened, within what was done before.
  have hthere : u.within {} second = (opened (prompted u 0 []) second).within u [] := by
    simp [World.within, opened, prompted, hend]
  refine ⟨prompted u 0 [], (run depth (opened (prompted u 0 []) second)).2, u.out, (run depth (opened (prompted u 0 []) second)).1,
    hfirst, by simp [prompted, Text.repeated], rfl, ?_⟩
  rw [hmore, hthere] at hboth
  rw [hboth.run_eq, run_within]
  simp [World.within, prompted]

/-- A command is entered in one way only. -/
theorem Entered.unique {w w₁ w₂ : World} {s s' : String} (h : Entered w s w₁) (h' : Entered w s' w₂) : s = s' ∧ w₁ = w₂ := by
  have heq := (enter_of_entered h).symm.trans (enter_of_entered h')
  obtain ⟨hentry, hworld⟩ := Prod.mk.inj heq
  refine ⟨?_, hworld⟩
  by_cases hs : s = "" <;> by_cases hs' : s' = "" <;> simp_all

theorem Sourced.unique {w w₁ w₂ : World} {text text' : String} (h : Sourced w text w₁) (h' : Sourced w text' w₂) :
    text = text' ∧ w₁ = w₂ := by
  obtain ⟨s, v, hentered, _, hsource⟩ := h
  obtain ⟨s', v', hentered', _, hsource'⟩ := h'
  obtain ⟨rfl, rfl⟩ := hentered.unique hentered'
  rw [hsource] at hsource'
  simpa using hsource'

/-- A command in two lines, and the answer to the question that it asks. -/
def inquiry : List InputLine := [.typed "\\", .typed "read", .typed "5"]

theorem inquiry_sourced : Sourced (opened {} inquiry) "\nread" (prompted (opened {} inquiry) 1 [.typed "5"]) := by
  refine ⟨"\nread", _, ⟨["\\"], "read", [.typed "5"], ⟨rfl, by simp [Continues]⟩, by simp [Continues], rfl, rfl⟩, ?_, ?_⟩
  · decide +kernel
  · rfl

theorem inquiry_parse : Tree.parse "\nread" = .ok (Tree.ofName "read") := Tree.parse_of_toOption (by decide +kernel)

/-- The inquiry asks for an integer, with its last line to come. -/
theorem inquiry_reaches {e : Expr} {w : World} (h : Reaches (opened {} inquiry) (.evaluate e) w) :
    e = .read ∧ w.input = [.typed "5"] := by
  have hbuilt : Expr.ofTree (Tree.ofName "read") [] = .ok .read [] := rfl
  cases h with
  | ready hsourced hparse hbuild =>
    obtain ⟨rfl, rfl⟩ := hsourced.unique inquiry_sourced
    rw [inquiry_parse] at hparse
    cases hparse
    rw [hbuilt] at hbuild
    cases hbuild
    exact ⟨rfl, rfl⟩

/-- The inquiry is answered, and nothing is left of it. -/
theorem inquiry_turn : ∃ u, turn 1 (opened {} inquiry) = (.next, u) ∧ u.input = [] := by
  obtain ⟨w, hready⟩ : ∃ w, Reaches (opened {} inquiry) (.evaluate .read) w := ⟨_, .ready inquiry_sourced inquiry_parse rfl rfl⟩
  have hread : Numeral.read? "5" = some 5 := by decide +kernel
  obtain ⟨text, hwritten⟩ := Numeral.exists_write? (Numeral.natAbs_lt_of_read? hread)
  have htext : (Value.int 5).text? = some text := by rw [Value.text?, hwritten]
  have hask : w.ask "enter Integer: " = (some (.typed "5"), { w.print "enter Integer: " with input := [] }) := by
    rw [World.ask, (inquiry_reaches hready).2]
  have heval : Expr.read.evalClosed 1 w = .ok (.int 5) ⟨.empty, { w.print "enter Integer: " with input := [] }⟩ := by
    show EvalM.readInteger ⟨.empty, w⟩ = _
    rw [EvalM.readInteger_eq]
    simp only [hask, InputLine.integer, hread]
    rfl
  rw [turn_of_evaluate hready, heval]
  simp only [conclude, htext]
  exact ⟨_, rfl, rfl⟩

theorem inquiry_answered : Answered 1 (opened {} inquiry) := by
  obtain ⟨u, hturn, hend⟩ := inquiry_turn
  -- There are two prompts: the first one, and one where nothing is left.
  have hprompts : ∀ v, Prompts 1 (opened {} inquiry) v → v = opened {} inquiry ∨ v.input = [] := by
    intro v hv
    induction hv with
    | first => exact .inl rfl
    | next _ hnext ih =>
      rcases ih with rfl | hempty
      · rw [hturn] at hnext
        cases hnext
        exact .inr hend
      · have hshorter := (advances_of_next hnext).shorter
        simp [hempty] at hshorter
  intro v hv e w env m hreaches hbegins
  rcases hprompts v hv with rfl | hempty
  · obtain ⟨rfl, hinput⟩ := inquiry_reaches hreaches
    have hmoment : (Moment.begins env .read m) = .begins [] .read ⟨.empty, w⟩ := by simpa [Expr.history, Expr.tasks] using hbegins
    cases hmoment
    simp [hinput]
  · have hshorter := (hreaches.advances (by simp)).shorter
    simp [hempty] at hshorter

/-- After the inquiry, the same question meets the end of the input, in one session as in two. -/
theorem run_append_inquiry :
    ∃ u, Prompts 1 (opened {} inquiry) u ∧ u.input = [] ∧ Answered 1 (opened {} inquiry) ∧
      ∃ (w₁ w₂ : World) (out : String) (ending : Option SessionFailure),
        run 1 (opened {} inquiry) = (none, w₁) ∧ w₁.out = out ++ Session.prompt ∧
          run 1 (opened w₁ [.typed "read"]) = (ending, w₂) ∧
          run 1 (opened {} (inquiry ++ [.typed "read"])) =
            (ending, { w₂ with
              out := out ++ w₂.out
              commands := w₁.commands ++ w₂.commands
              temporaries := w₁.temporaries ++ w₂.temporaries }) := by
  obtain ⟨u, hturn, hend⟩ := inquiry_turn
  have hprompts : Prompts 1 (opened {} inquiry) u := Prompts.first.next hturn
  exact ⟨u, hprompts, hend, inquiry_answered, run_append hprompts hend inquiry_answered _⟩

end Session

end TuneLang
