import TuneLang.World.Files

/-!
# Writing to files

Bytes that go to a path can be refused at two points: the path is not opened, or what it opens does not take them (`Files.Refuses`,
`Files.write_error_iff`). In between, a file that was opened has lost what it held, so the two leave different things behind. What
`Files.get?_write` says holds of every writing, whether it failed or not: the place at which a file was opened holds the bytes that were
taken, and every other place what it held.
-/

namespace TuneLang

/-- A path is opened at a place, and what is there takes the bytes that go to it. -/
structure Files.Takes (fs : Files) (path : String) (place : List String) : Prop where
  opened : fs.opened path = .ok place
  willing : fs.refusal? place = none

/-- A path does not take the bytes that go to it, for a reason: it cannot be opened, or what it opens refuses them. -/
inductive Files.Refuses (fs : Files) (path : String) : FileError.Cause → Prop where
  | unopened {cause : FileError.Cause} (h : fs.opened path = .error cause) : fs.Refuses path cause
  | opened {place : List String} {refusal : Refusal} (h : fs.opened path = .ok place) (hrefusal : fs.refusal? place = some refusal) :
    fs.Refuses path (.refused refusal.error)

/-- A path opens a file at a place, one that is there or is made. -/
structure Files.Opens (fs : Files) (path : String) (place : List String) : Prop where
  opened : fs.opened path = .ok place
  keeps : fs.device? place = none

/-- A path opens at most one file. -/
theorem Files.Opens.unique {fs : Files} {path : String} {place other : List String} (h : fs.Opens path place)
    (h' : fs.Opens path other) : place = other := Except.ok.inj (h.opened.symm.trans h'.opened)

/-- What is written to a path that is opened. -/
theorem Files.write_of_opened {fs : Files} {path : String} {place : List String} (h : fs.opened path = .ok place)
    (bytes : List UInt8) :
    fs.write path bytes = ((fs.refusal? place).map (fun r => ⟨.refused r.error, path⟩), fs.filled place bytes) := by
  rw [Files.write, h]

/-- Nothing is written to a path that is not opened. -/
theorem Files.write_of_unopened {fs : Files} {path : String} {cause : FileError.Cause} (h : fs.opened path = .error cause)
    (bytes : List UInt8) : fs.write path bytes = (some ⟨cause, path⟩, fs.answered) := by
  rw [Files.write, h]

/-- A writing fails for exactly the reasons for which its path refuses bytes. -/
theorem Files.write_error_iff {fs : Files} {path : String} {bytes : List UInt8} {failure : FileError} :
    (fs.write path bytes).1 = some failure ↔ failure.path = path ∧ fs.Refuses path failure.cause := by
  obtain ⟨cause, other⟩ := failure
  cases hopened : fs.opened path with
  | error found =>
    rw [Files.write_of_unopened hopened]
    constructor
    · intro h
      cases h
      exact ⟨rfl, .unopened hopened⟩
    · rintro ⟨hpath, hrefuses⟩
      obtain rfl : other = path := hpath
      cases hrefuses with
      | unopened h => rw [Except.error.inj (hopened.symm.trans h)]
      | opened h _ => cases hopened.symm.trans h
  | ok place =>
    rw [Files.write_of_opened hopened]
    constructor
    · intro h
      obtain ⟨refusal, hrefusal, hfailure⟩ := Option.map_eq_some_iff.mp h
      cases hfailure
      exact ⟨rfl, .opened hopened hrefusal⟩
    · rintro ⟨hpath, hrefuses⟩
      obtain rfl : other = path := hpath
      cases hrefuses with
      | unopened h => cases hopened.symm.trans h
      | opened h hrefusal =>
        obtain rfl := Except.ok.inj (hopened.symm.trans h)
        rw [hrefusal]
        rfl

/-- A writing does not fail where the bytes are taken. -/
theorem Files.Takes.write {fs : Files} {path : String} {place : List String} (h : fs.Takes path place) (bytes : List UInt8) :
    fs.write path bytes = (none, fs.filled place bytes) := by
  rw [Files.write_of_opened h.opened, h.willing]
  rfl

/-! ## What is left -/

/-- Bytes that are put among files are found at their place. -/
theorem Files.lookup_insert (place : List String) (bytes : List UInt8) (entries : List (List String × List UInt8)) :
    (Files.insert place bytes entries).lookup place = some bytes := by
  induction entries with
  | nil => simp [Files.insert]
  | cons f fs ih =>
    rw [Files.insert]
    split
    · simp
    · rename_i hne
      rw [List.lookup_cons, beq_false_of_ne (Ne.symm hne)]
      exact ih

/-- Bytes that are put among files leave the other places as they are. -/
theorem Files.lookup_insert_of_ne {place other : List String} (h : other ≠ place) (bytes : List UInt8)
    (entries : List (List String × List UInt8)) : (Files.insert place bytes entries).lookup other = entries.lookup other := by
  induction entries with
  | nil => simp [Files.insert, h]
  | cons f fs ih =>
    rw [Files.insert]
    split
    · rename_i heq
      obtain ⟨here, held⟩ := f
      obtain rfl : here = place := heq
      simp [List.lookup_cons, beq_false_of_ne h]
    · rw [List.lookup_cons, List.lookup_cons, ih]

/-- A file is filled with the bytes that are taken. -/
theorem Files.filled_of_keeps {fs : Files} {place : List String} (h : fs.device? place = none) (bytes : List UInt8) :
    fs.filled place bytes = fs.answered.put place (Refusal.front (fs.refusal? place) bytes) := by
  rw [Files.filled, h]
  rfl

/-- A device is filled with nothing. -/
theorem Files.filled_of_device {fs : Files} {place : List String} {device : Device} (h : fs.device? place = some device)
    (bytes : List UInt8) : fs.filled place bytes = fs.answered := by
  rw [Files.filled, h]
  rfl

/-- After a writing, failed or not, the bytes that were taken are found where the path opens a file, and every other place holds what
it held. -/
theorem Files.get?_write (fs : Files) (path : String) (bytes : List UInt8) (place : List String) :
    (fs.Opens path place → (fs.write path bytes).2.get? place = some (Refusal.front (fs.refusal? place) bytes)) ∧
      (¬ fs.Opens path place → (fs.write path bytes).2.get? place = fs.get? place) := by
  cases hopened : fs.opened path with
  | error cause =>
    rw [Files.write_of_unopened hopened]
    refine ⟨fun h => ?_, fun _ => rfl⟩
    cases hopened.symm.trans h.opened
  | ok reached =>
    rw [Files.write_of_opened hopened]
    cases hdevice : fs.device? reached with
    | some device =>
      rw [Files.filled_of_device hdevice]
      refine ⟨fun h => ?_, fun _ => rfl⟩
      obtain rfl := Except.ok.inj (hopened.symm.trans h.opened)
      cases hdevice.symm.trans h.keeps
    | none =>
      rw [Files.filled_of_keeps hdevice]
      constructor
      · intro h
        obtain rfl := Except.ok.inj (hopened.symm.trans h.opened)
        exact Files.lookup_insert reached _ fs.entries
      · intro h
        refine Files.lookup_insert_of_ne ?_ _ fs.entries
        rintro rfl
        exact h ⟨hopened, hdevice⟩

/-- A writing moves nothing but files and what the system will do. -/
theorem Files.write_frame (fs : Files) (path : String) (bytes : List UInt8) :
    (fs.write path bytes).2.home = fs.home ∧ (fs.write path bytes).2.devices = fs.devices := by
  unfold Files.write Files.filled
  split
  · exact ⟨rfl, rfl⟩
  · split <;> exact ⟨rfl, rfl⟩

end TuneLang
