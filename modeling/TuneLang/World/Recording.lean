import TuneLang.Midi.File
import TuneLang.World.Player

/-!
# Recording a tune

A tune is recorded to a file that is named, or to a temporary file in order to be played. The file is opened first; what it holds
when the notes of the tune cannot be written is the header alone. A temporary file takes all bytes.
-/

namespace TuneLang

/-- Why a tune was not recorded. -/
inductive RecordFailure where
  | file (e : FileError)
  | notes (e : Midi.Failure)
  deriving DecidableEq, Repr

/-- The text of a failure to record. -/
def RecordFailure.message : RecordFailure → String
  | .file e => e.message
  | .notes e => e.message

/-- Record a tune to a file. A file that refuses bytes is the reason that is given, also when the notes could not be written. -/
def World.record (w : World) (t : Tune) (path : String) : Option RecordFailure × World :=
  let written := w.files.write path (Midi.file t).1
  ((written.1.map .file).or ((Midi.file t).2.map .notes), { w with files := written.2 })

/-- The name under which a temporary file is played. -/
def Recording.temporaryName : String := "TMP.mid"

/-- Record a tune to a temporary file and play it: the text of what went wrong, if anything did. -/
def World.playTune (w : World) (t : Tune) : Option String × World :=
  let recorded := { w with temporaries := w.temporaries ++ [(Midi.file t).1] }
  match (Midi.file t).2 with
  | some e => (some e.message, recorded)
  | none =>
    match recorded.play Recording.temporaryName with
    | (failure, w) => (failure.map PlayFailure.message, w)

end TuneLang
