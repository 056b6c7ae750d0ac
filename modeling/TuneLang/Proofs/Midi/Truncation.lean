import TuneLang.Proofs.Eval.Chain
import TuneLang.Proofs.Expr.Plain
import TuneLang.Proofs.Midi.Balance
import TuneLang.Proofs.Midi.Recording

/-!
# What a failed recording leaves behind

A file is opened before the timeline of the tune is settled, and what was in it is gone by then. So a recording that fails does not
always leave the files as they were. Where the notes are to blame, because they are overdrawn or their track is too long, the file that
was opened is left with a header and nothing behind it (`Expr.failed_write_truncates`); where it refused bytes itself, it is left with
those that it took. That is all a failure can do: no other file is touched, and where no file was opened, none is (`Expr.failed_write`).
-/

namespace TuneLang

/-- The notes of a tune cannot be written, whatever path they go to. -/
def Tune.Unwritable (t : Tune) : Prop := t.Overdrawn ∨ t.Oversized

/-- A file whose notes are to blame has the header alone. -/
theorem Midi.file_of_unwritable {t : Tune} (h : t.Unwritable) : ∃ failure, Midi.file t = (Midi.header, some failure) := by
  rcases h with h | h
  · obtain ⟨failure, htimeline⟩ := (Midi.timeline_error_iff t).mpr h
    refine ⟨failure, ?_⟩
    rw [Midi.file, Midi.tracks, htimeline]
    rfl
  · exact ⟨_, Midi.file_of_oversized h⟩

/-- Notes that can be written are not to blame. -/
theorem Midi.file_of_not_unwritable {t : Tune} (h : ¬ t.Unwritable) : (Midi.file t).2 = none := by
  cases htimeline : Midi.timeline t with
  | error failure => exact absurd (Or.inl ((Midi.timeline_error_iff t).mp ⟨failure, htimeline⟩)) h
  | ok es =>
    obtain ⟨_, _, _, _, hfile⟩ := Midi.file_of_timeline htimeline (fun hsize => h (Or.inr hsize))
    rw [hfile]

/-- Writing a tune that an expression comes to is recording it. -/
theorem Expr.eval_write {a : Expr} {env : Env} {n : Nat} {m m₁ : Machine} {t : Tune} (ha : a.eval n env m = .ok (.tune t) m₁)
    (path : String) : (Expr.write a path).eval (n + 1) env m =
      EvalM.ofExcept (RecordFailure.outcome (m₁.world.record t path).1) { m₁ with world := (m₁.world.record t path).2 } := by
  have hwrite : (Expr.write a path).eval (n + 1) env m = EvalM.write (.tune t) path m₁ := EvalM.bind_ok ha
  rw [hwrite, EvalM.write_eq]

/-- A tune whose notes cannot be written is not written, and where its path opens a file that takes bytes the header is. -/
theorem Expr.write_unwritable {a : Expr} {path : String} {env : Env} {n : Nat} {m m₁ : Machine} {t : Tune} {place : List String}
    (ha : a.eval n env m = .ok (.tune t) m₁) (htakes : m₁.world.files.Takes path place) (hnotes : t.Unwritable) :
    ∃ failure, (Expr.write a path).eval (n + 1) env m = .error (.exchange (.notWritten (.notes failure)))
      { m₁ with world := { m₁.world with files := m₁.world.files.filled place Midi.header } } := by
  obtain ⟨failure, hfile⟩ := Midi.file_of_unwritable hnotes
  refine ⟨failure, ?_⟩
  rw [Expr.eval_write ha, World.record, hfile, htakes.write]
  rfl

/-- A tune is not written where its path opens something that refuses the bytes. -/
theorem Expr.write_refused {a : Expr} {path : String} {env : Env} {n : Nat} {m m₁ : Machine} {t : Tune} {place : List String}
    {refusal : Refusal} (ha : a.eval n env m = .ok (.tune t) m₁) (hopened : m₁.world.files.opened path = .ok place)
    (hrefusal : m₁.world.files.refusal? place = some refusal) :
    (Expr.write a path).eval (n + 1) env m = .error (.exchange (.notWritten (.file ⟨.refused refusal.error, path⟩)))
      { m₁ with world := { m₁.world with files := m₁.world.files.filled place (Midi.file t).1 } } := by
  rw [Expr.eval_write ha, World.record, Files.write_of_opened hopened, hrefusal]
  rfl

/-- What a failed recording leaves behind. An expression has come to a tune, and the tune could not be written to a path. Then nothing
is changed but the bytes of files and what the system will do next. The place at which the path opens a file holds the header alone, if
the file took the bytes, and then the notes cannot be written; and it holds those bytes of the recording that the file took, if it refused
the others. Every other place holds what it held before, or nothing as before. -/
theorem Expr.failed_write {a : Expr} {path : String} {env : Env} {n : Nat} {m m₁ m₂ : Machine} {t : Tune} {fault : Fault}
    (ha : a.eval n env m = .ok (.tune t) m₁) (hfailed : (Expr.write a path).eval (n + 1) env m = .error fault m₂) :
    ∃ after : Files, m₂ = { m₁ with world := { m₁.world with files := after } } ∧ after.home = m₁.world.files.home ∧
      after.devices = m₁.world.files.devices ∧ ∀ place,
        (m₁.world.files.Opens path place →
          (m₁.world.files.refusal? place = none → t.Unwritable ∧ after.get? place = some Midi.header) ∧
          ∀ refusal, m₁.world.files.refusal? place = some refusal → after.get? place = some ((Midi.file t).1.take refusal.taken)) ∧
        (¬ m₁.world.files.Opens path place → after.get? place = m₁.world.files.get? place) := by
  rw [Expr.eval_write ha] at hfailed
  have hend := congrArg EvalM.left hfailed
  rw [EvalM.left_ofExcept] at hend
  obtain ⟨hhome, hdevices⟩ := m₁.world.files.write_frame path (Midi.file t).1
  refine ⟨_, hend.symm, hhome, hdevices, fun place => ?_⟩
  obtain ⟨hopens, hother⟩ := m₁.world.files.get?_write path (Midi.file t).1 place
  refine ⟨fun hplace => ⟨fun htakes => ?_, fun refusal hrefusal => ?_⟩, hother⟩
  · -- the file took the bytes, so that only the notes are left to blame
    have hwrite := Files.Takes.write ⟨hplace.opened, htakes⟩ (Midi.file t).1
    have hnotes : t.Unwritable := by
      refine Classical.byContradiction (fun hwritable => ?_)
      rw [World.record, hwrite, Midi.file_of_not_unwritable hwritable] at hfailed
      cases hfailed
    obtain ⟨failure, hfile⟩ := Midi.file_of_unwritable hnotes
    refine ⟨hnotes, (hopens hplace).trans ?_⟩
    rw [htakes, hfile]
    rfl
  · refine (hopens hplace).trans ?_
    rw [hrefusal]
    rfl

/-- Files with a recording and a text beside it. -/
def Files.shelf : Files := { entries := [(["tmp", "work", "song.mid"], [1, 2, 3]), (["tmp", "work", "notes.txt"], [4])] }

/-- The same files, where the next one that is written has room for five bytes. -/
def Files.crampedShelf : Files := { Files.shelf with openings := [.granted (some ⟨5, ⟨27, "File too large"⟩⟩)] }

/-- A key that is struck and released at one tick and struck again there. -/
def Expr.stutter : Expr := .binary .join (.note "C" 0) (.note "C" 1)

/-- The stutter cannot be recorded, and a note that can be is not where there is no room for it. Both times the recording that was there
is lost to the attempt, and the text beside it is not. -/
theorem Expr.failed_write_stutter :
    (∃ fault after, (Expr.write .stutter "song.mid").eval 3 [] ⟨.empty, { files := .shelf }⟩ =
          .error fault ⟨.empty, { files := after }⟩ ∧
        after.get? ["tmp", "work", "song.mid"] = some Midi.header ∧ after.get? ["tmp", "work", "notes.txt"] = some [4]) ∧
      ∃ fault after, (Expr.write (.note "A" 1) "song.mid").eval 2 [] ⟨.empty, { files := .crampedShelf }⟩ =
          .error fault ⟨.empty, { files := after }⟩ ∧
        after.get? ["tmp", "work", "song.mid"] = some ((Midi.file [⟨"A", 1⟩]).1.take 5) ∧
        after.get? ["tmp", "work", "notes.txt"] = some [4] := by
  constructor
  · have heval : Expr.stutter.eval 2 [] ⟨.empty, { files := .shelf }⟩ =
        .ok (.tune [⟨"C", 0⟩, ⟨"C", 1⟩]) ⟨.empty, { files := .shelf }⟩ := rfl
    have hopens : Files.shelf.Opens "song.mid" ["tmp", "work", "song.mid"] := ⟨rfl, rfl⟩
    have hother : ¬ Files.shelf.Opens "song.mid" ["tmp", "work", "notes.txt"] := fun h => absurd (h.unique hopens) (by decide)
    have hnotes : Tune.Unwritable [⟨"C", 0⟩, ⟨"C", 1⟩] := Or.inl (by decide)
    obtain ⟨failure, hfailed⟩ := Expr.write_unwritable heval ⟨hopens.opened, rfl⟩ hnotes
    obtain ⟨after, hafter, _, _, hplaces⟩ := Expr.failed_write heval hfailed
    exact ⟨_, after, hafter ▸ hfailed, (((hplaces _).1 hopens).1 rfl).2, (hplaces _).2 hother⟩
  · have heval : (Expr.note "A" 1).eval 1 [] ⟨.empty, { files := .crampedShelf }⟩ =
        .ok (.tune [⟨"A", 1⟩]) ⟨.empty, { files := .crampedShelf }⟩ := rfl
    have hopens : Files.crampedShelf.Opens "song.mid" ["tmp", "work", "song.mid"] := ⟨rfl, rfl⟩
    have hother : ¬ Files.crampedShelf.Opens "song.mid" ["tmp", "work", "notes.txt"] :=
      fun h => absurd (h.unique hopens) (by decide)
    have hfailed := Expr.write_refused heval hopens.opened rfl
    obtain ⟨after, hafter, _, _, hplaces⟩ := Expr.failed_write heval hfailed
    exact ⟨_, after, hafter ▸ hfailed, ((hplaces _).1 hopens).2 _ rfl, (hplaces _).2 hother⟩

/-- A recording that fails does not leave every file as it was: a note of no duration, which the language has, is enough. -/
theorem Expr.failed_write_truncates :
    ¬ ∀ (a : Expr) (path : String) (env : Env) (n : Nat) (m m₁ m₂ : Machine) (t : Tune) (fault : Fault),
      (Expr.write a path).Parsed → (∀ note ∈ t, 0 ≤ note.duration) → a.eval n env m = .ok (.tune t) m₁ →
      (Expr.write a path).eval (n + 1) env m = .error fault m₂ →
      ∀ place, m₂.world.files.get? place = m₁.world.files.get? place := by
  intro h
  have hread : Expr.ofSource? "write (A, 0) : song.mid" = some (.write (.note "A" 0) "song.mid") := by decide +kernel
  have heval : (Expr.note "A" 0).eval 1 [] ⟨.empty, { files := .shelf }⟩ =
      .ok (.tune [⟨"A", 0⟩]) ⟨.empty, { files := .shelf }⟩ := rfl
  have htakes : Files.shelf.Takes "song.mid" ["tmp", "work", "song.mid"] := ⟨rfl, rfl⟩
  obtain ⟨failure, hfailed⟩ := Expr.write_unwritable heval htakes (Or.inl (by decide))
  have hkept := h _ _ _ _ _ _ _ _ _ (Expr.parsed_of_ofSource? hread) (by decide) heval hfailed ["tmp", "work", "song.mid"]
  revert hkept
  decide

end TuneLang
