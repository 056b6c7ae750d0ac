import TuneLang.World.Recording

/-!
# Attempts to play a file

What the system is told when a file is played, and what it returns. Commands lead from one world to another with the codes that the
system had to return, the next one for each command (`World.Issues`). An attempt looks for the player and for the file before it starts
the player, and goes on only as long as zero is returned (`Player.Attempt`); it succeeds when all three commands return zero.
-/

namespace TuneLang

/-! ## Commands and their codes -/

/-- The code that the system will return after so many further commands. -/
def World.answer (w : World) (i : Nat) : Int := w.codes.getD i World.defaultCode

/-- Whether commands are what the system was told between two worlds, each with the code that was to be returned then. -/
structure World.Issues (w : World) (issued : List Command) (w' : World) : Prop where
  commands : w'.commands = w.commands ++ issued
  returned : issued.map Command.code = (List.range issued.length).map w.answer
  codes : w'.codes = w.codes.drop issued.length
  platform : w'.platform = w.platform

namespace World.Issues

variable {w w₁ w₂ : World} {first second : List Command}

/-- The system was told nothing where neither what it was told before nor what it will return has changed. -/
theorem of_eq (hcommands : w₁.commands = w.commands) (hcodes : w₁.codes = w.codes) (hplatform : w₁.platform = w.platform) :
    w.Issues [] w₁ :=
  ⟨by rw [hcommands, List.append_nil], rfl, hcodes, hplatform⟩

theorem refl (w : World) : w.Issues [] w := of_eq rfl rfl rfl

/-- Commands after commands. The second ones get the codes that the first ones have left. -/
theorem trans (h : w.Issues first w₁) (h' : w₁.Issues second w₂) : w.Issues (first ++ second) w₂ where
  commands := by rw [h'.commands, h.commands, List.append_assoc]
  returned := by
    have hlater : w₁.answer = fun i => w.answer (first.length + i) := by
      funext i
      rw [World.answer, World.answer, h.codes, List.getD_eq_getElem?_getD, List.getD_eq_getElem?_getD, List.getElem?_drop]
    rw [List.map_append, h.returned, h'.returned, hlater, List.length_append, List.range_add, List.map_append, List.map_map]
    rfl
  codes := by rw [h'.codes, h.codes, List.drop_drop, List.length_append]
  platform := h'.platform.trans h.platform

end World.Issues

theorem World.issues_issue {w w' : World} {command : String} {code : Int} (h : w.issue command = (code, w')) :
    w.Issues [⟨command, code⟩] w' := by
  unfold World.issue at h
  split at h
  · rename_i hcodes
    cases h
    exact ⟨rfl, by simp [World.answer, hcodes], by simp [hcodes], rfl⟩
  · rename_i hcodes
    cases h
    exact ⟨rfl, by simp [World.answer, hcodes], by simp [hcodes], rfl⟩

theorem World.issues_print (w : World) (s : String) : w.Issues [] (w.print s) := .of_eq rfl rfl rfl

/-- A question tells the system nothing. -/
theorem World.issues_ask (w : World) (prompt : String) : w.Issues [] (w.ask prompt).2 := by
  unfold World.ask
  split
  · exact w.issues_print prompt
  · exact .of_eq rfl rfl rfl

/-- Recording a tune tells the system nothing. -/
theorem World.issues_record (w : World) (t : Tune) (path : String) : w.Issues [] (w.record t path).2 := .of_eq rfl rfl rfl

/-! ## Attempts -/

/-- The commands that play a file, in their order. -/
def Player.commands (path : String) : List String := [Player.findPlayer, Player.findFile path, Player.start path]

/-- Whether commands are an attempt to play a file. -/
structure Player.Attempt (path : String) (issued : List Command) : Prop where
  /-- The commands come in their order, from the first one on. -/
  inOrder : issued.map Command.text <+: Player.commands path
  /-- A command is given only when all before it returned zero. -/
  checked : issued.Pairwise fun earlier _ => earlier.code = 0
  /-- The attempt is broken off only when the last command returned something else. -/
  pursued : issued.map Command.text ≠ Player.commands path → ∃ last, issued.getLast? = some last ∧ last.code ≠ 0

/-- Whether commands are an attempt that is complete, with every code zero. -/
def Player.Succeeds (path : String) (issued : List Command) : Prop :=
  issued.map Command.text = Player.commands path ∧ ∀ c ∈ issued, c.code = 0

/-- How an attempt to play a file goes: what the system is told and returns, and what the failure is. -/
inductive Player.Goes (path : String) : List Command → Option PlayFailure → Prop where
  | playerMissing {code : Int} (h : code ≠ 0) : Goes path [⟨Player.findPlayer, code⟩] (some .playerMissing)
  | fileMissing {code : Int} (h : code ≠ 0) :
    Goes path [⟨Player.findPlayer, 0⟩, ⟨Player.findFile path, code⟩] (some (.fileMissing path))
  | playerFailed {code : Int} (h : code ≠ 0) :
    Goes path [⟨Player.findPlayer, 0⟩, ⟨Player.findFile path, 0⟩, ⟨Player.start path, code⟩] (some .playerFailed)
  | played : Goes path [⟨Player.findPlayer, 0⟩, ⟨Player.findFile path, 0⟩, ⟨Player.start path, 0⟩] none

theorem Player.Goes.attempt {path : String} {issued : List Command} {failure : Option PlayFailure}
    (h : Player.Goes path issued failure) : Player.Attempt path issued := by
  cases h with
  | playerMissing h => exact ⟨⟨_, rfl⟩, by simp, fun _ => ⟨_, rfl, h⟩⟩
  | fileMissing h => exact ⟨⟨_, rfl⟩, by simp, fun _ => ⟨_, rfl, h⟩⟩
  | playerFailed h => exact ⟨⟨_, rfl⟩, by simp, fun _ => ⟨_, rfl, h⟩⟩
  | played => exact ⟨⟨_, rfl⟩, by simp, fun hbroken => absurd rfl hbroken⟩

/-- The attempts without a failure are those that succeed. -/
theorem Player.Goes.succeeds_iff {path : String} {issued : List Command} {failure : Option PlayFailure}
    (h : Player.Goes path issued failure) : failure = none ↔ Player.Succeeds path issued := by
  cases h with
  | playerMissing h | fileMissing h | playerFailed h => simp [Player.Succeeds, h]
  | played => simp [Player.Succeeds, Player.commands]

/-- To play a file is to attempt it, where there is a player. -/
theorem World.play_goes {w : World} (hposix : w.platform = "posix") (path : String) :
    ∃ issued, w.Issues issued (w.play path).2 ∧ Player.Goes path issued (w.play path).1 := by
  unfold World.play
  rw [if_pos hposix]
  split
  · rename_i w₁ hplayer
    split
    · rename_i w₂ hfile
      have hbefore := (World.issues_issue hplayer).trans (World.issues_issue hfile)
      split
      · rename_i w₃ hstart
        exact ⟨_, hbefore.trans (World.issues_issue hstart), .played⟩
      · rename_i code w₃ hcode hstart
        exact ⟨_, hbefore.trans (World.issues_issue hstart), .playerFailed hcode⟩
    · rename_i code w₂ hcode hfile
      exact ⟨_, (World.issues_issue hplayer).trans (World.issues_issue hfile), .fileMissing hcode⟩
  · rename_i code w₁ hcode hplayer
    exact ⟨_, World.issues_issue hplayer, .playerMissing hcode⟩

/-- Nothing is attempted on another platform. -/
theorem World.play_elsewhere {w : World} (h : w.platform ≠ "posix") (path : String) : w.play path = (some .wrongPlatform, w) := if_neg h

/-- A tune that is recorded without a failure is played from its temporary file, and nothing is told to the system before. -/
theorem World.playTune_recorded {t : Tune} (h : (Midi.file t).2 = none) (w : World) :
    ∃ player : World, w.Issues [] player ∧ (w.playTune t).2 = (player.play Recording.temporaryName).2 := by
  refine ⟨{ w with temporaries := w.temporaries ++ [(Midi.file t).1] }, .of_eq rfl rfl rfl, ?_⟩
  simp only [World.playTune, h]

/-- A tune that cannot be recorded is not played. -/
theorem World.issues_playTune {w : World} {t : Tune} (h : (Midi.file t).2 ≠ none) : w.Issues [] (w.playTune t).2 := by
  obtain ⟨failure, hfailure⟩ := Option.ne_none_iff_exists'.mp h
  simp only [World.playTune, hfailure]
  exact .of_eq rfl rfl rfl

end TuneLang
