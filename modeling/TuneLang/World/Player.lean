import TuneLang.World

/-!
# Playing a file

A MIDI file is played by a program of the system. Before it is started, the program and then the file are looked for, and each
step is taken only when the one before it returned zero.
-/

namespace TuneLang

/-- Why a file was not played. -/
inductive PlayFailure where
  | wrongPlatform
  | playerMissing
  | fileMissing (path : String)
  | playerFailed
  deriving DecidableEq, Repr

/-- The text of a failure to play. -/
def PlayFailure.message : PlayFailure → String
  | .wrongPlatform => "non-POSIX system"
  | .playerMissing => "VLC player not found"
  | .fileMissing path => s!"no midi file {path}"
  | .playerFailed => "VLC error"

/-- The command that looks for the player. -/
def Player.findPlayer : String := "which vlc > /dev/null 2>&1"

/-- The command that looks for the file. -/
def Player.findFile (path : String) : String := s!"[ -f {path} ] > /dev/null 2>&1"

/-- The command that plays the file. -/
def Player.start (path : String) : String := s!"vlc {path} > /dev/null 2>&1"

/-- Play a file. -/
def World.play (w : World) (path : String) : Option PlayFailure × World :=
  if w.platform = "posix" then
    match w.issue Player.findPlayer with
    | (0, w) =>
      match w.issue (Player.findFile path) with
      | (0, w) =>
        match w.issue (Player.start path) with
        | (0, w) => (none, w)
        | (_, w) => (some .playerFailed, w)
      | (_, w) => (some (.fileMissing path), w)
    | (_, w) => (some .playerMissing, w)
  else (some .wrongPlatform, w)

/-- Playing a file changes nothing but what the system was told and what it will return. -/
theorem World.play_eq (w : World) (path : String) :
    ∃ codes commands, (w.play path).2 = { w with codes := codes, commands := commands } := by
  unfold World.play
  split
  · obtain ⟨codes₁, commands₁, h₁⟩ := w.issue_eq Player.findPlayer
    split
    · rename_i w₁ hplayer
      obtain rfl : w₁ = { w with codes := codes₁, commands := commands₁ } := by rwa [hplayer] at h₁
      obtain ⟨codes₂, commands₂, h₂⟩ := World.issue_eq { w with codes := codes₁, commands := commands₁ } (Player.findFile path)
      split
      · rename_i w₂ hfile
        obtain rfl : w₂ = { w with codes := codes₂, commands := commands₂ } := by rwa [hfile] at h₂
        obtain ⟨codes₃, commands₃, h₃⟩ := World.issue_eq { w with codes := codes₂, commands := commands₂ } (Player.start path)
        refine ⟨codes₃, commands₃, Eq.trans ?_ h₃⟩
        split
        · rename_i w₃ hstart
          rw [hstart]
        · rename_i w₃ _ hstart
          rw [hstart]
      · rename_i w₂ _ hfile
        exact ⟨codes₂, commands₂, by rwa [hfile] at h₂⟩
    · rename_i w₁ _ hplayer
      exact ⟨codes₁, commands₁, by rwa [hplayer] at h₁⟩
  · exact ⟨w.codes, w.commands, rfl⟩

end TuneLang
