import TuneLang.Proofs.Midi.Reading
import TuneLang.Proofs.World.Writing
import TuneLang.World.Recording

/-!
# What a recorded tune says

A tune in which every note lasts at least one unit is recorded as it is. Its events come out of `Midi.eventsFrom` in the order of
the timeline already (`Midi.Event.Precedes`), no two of them alike, and no key is struck before it was released, so that leaving
out repetitions, sorting and settling change nothing (`Midi.timeline_eq`). Read back, the note track says of every note of the
scale when its key goes down and when it comes up, and nothing else (`Tune.score`).

Three things stand in the way of this besides short notes. The path may not take the bytes, the note track may be too long for its
length field (`Tune.Oversized`), and more ticks may pass between two messages than a file can say (`Midi.Spaced`).
-/

namespace TuneLang

/-- The time at which the note at a position begins: the durations before it, added up. -/
def Tune.onset (t : Tune) (i : Nat) : Int := (t.take i).foldl (fun d n => d + n.duration) 0

/-- What the note at position `i` of a tune says: a note of the scale goes down where it begins and comes up where the next note
begins; any other note says nothing. -/
def Tune.strokes (t : Tune) (n : Note) (i : Nat) : List Midi.Timed :=
  match n.pitch.index? with
  | some k =>
    [⟨(960 * t.onset i).toNat, .noteOn 0 (60 + k) 100⟩, ⟨(960 * t.onset (i + 1)).toNat, .noteOff 0 (60 + k) 100⟩]
  | none => []

/-- What a tune says, note by note. -/
def Tune.score (t : Tune) : List Midi.Timed := t.zipIdx.flatMap (fun p => t.strokes p.1 p.2)

/-! ## The order of the events -/

/-- One event comes before another on the timeline: at an earlier tick, or as a release at the tick of a strike. -/
def Midi.Event.Precedes (a b : Midi.Event) : Prop :=
  a.tick < b.tick ∨ (a.tick = b.tick ∧ a.action = .release ∧ b.action = .strike)

/-- The events of a tune that starts at `time` come no earlier, and only a strike comes as early as that. -/
theorem Midi.tick_of_mem_eventsFrom {t : Tune} (ht : ∀ n ∈ t, 1 ≤ n.duration) {time : Int} {i : Nat} {e : Midi.Event}
    (he : e ∈ Midi.eventsFrom time i t) : 960 * time < e.tick ∨ (960 * time = e.tick ∧ e.action = .strike) := by
  induction t generalizing time i with
  | nil => simp [Midi.eventsFrom] at he
  | cons n t ih =>
    have hn : 1 ≤ n.duration := ht n List.mem_cons_self
    have htail : ∀ m ∈ t, 1 ≤ m.duration := fun m hm => ht m (List.mem_cons_of_mem _ hm)
    rw [Midi.eventsFrom] at he
    split at he
    · rcases List.mem_cons.mp he with rfl | he
      · exact Or.inr ⟨rfl, rfl⟩
      · rcases List.mem_cons.mp he with rfl | he
        · simp only [Midi.resolution]
          omega
        · have := ih htail he
          omega
    · have := ih htail he
      omega

/-- The events of a tune of notes that last come in the order of the timeline. -/
theorem Midi.precedes_eventsFrom {t : Tune} (ht : ∀ n ∈ t, 1 ≤ n.duration) (time : Int) (i : Nat) :
    (Midi.eventsFrom time i t).Pairwise Midi.Event.Precedes := by
  induction t generalizing time i with
  | nil => exact List.Pairwise.nil
  | cons n t ih =>
    have hn : 1 ≤ n.duration := ht n List.mem_cons_self
    have htail : ∀ m ∈ t, 1 ≤ m.duration := fun m hm => ht m (List.mem_cons_of_mem _ hm)
    rw [Midi.eventsFrom]
    split
    · refine List.pairwise_cons.mpr ⟨?_, List.pairwise_cons.mpr ⟨?_, ih htail _ _⟩⟩
      · intro e he
        left
        rcases List.mem_cons.mp he with rfl | he
        · simp only [Midi.resolution]
          omega
        · have := Midi.tick_of_mem_eventsFrom htail he
          simp only [Midi.resolution]
          omega
      · intro e he
        rcases Midi.tick_of_mem_eventsFrom htail he with h | ⟨h, hs⟩
        · exact Or.inl h
        · exact Or.inr ⟨h, rfl, hs⟩
    · exact ih htail _ _

/-- Events that come one before the other are not alike, so none is left out as a repetition. -/
theorem Midi.distinct_eq {es : List Midi.Event} (h : es.Pairwise Midi.Event.Precedes) : Midi.distinct es = es := by
  induction es with
  | nil => rfl
  | cons e es ih =>
    obtain ⟨hfirst, hrest⟩ := List.pairwise_cons.mp h
    rw [Midi.distinct, ih hrest]
    congr 1
    rw [List.filter_eq_self]
    intro f hf
    rcases hfirst f hf with hlt | ⟨_, hr, hs⟩
    · have : e.tick ≠ f.tick := by omega
      simp [Midi.Event.same, this]
    · simp [Midi.Event.same, hr, hs]

/-- Events that come one before the other are sorted. -/
theorem Midi.sorted_eq {es : List Midi.Event} (h : es.Pairwise Midi.Event.Precedes) : Midi.sorted es = es := by
  refine List.mergeSort_of_pairwise (h.imp ?_)
  intro a b hab
  unfold Midi.Event.before
  rcases hab with hlt | ⟨heq, hr, hs⟩
  · rw [if_neg (by omega)]
    exact decide_eq_true hlt
  · rw [if_pos heq, hr, hs]
    rfl

/-! ## Settling -/

/-- No key is down. -/
def Midi.OpenKeys.Quiet (struck : Midi.OpenKeys) : Prop := ∀ p ∈ struck, p.2 = []

/-- A key that is struck while no key is down is released from that strike, and no key is down after that. -/
theorem Midi.OpenKeys.release_strike {struck : Midi.OpenKeys} (h : struck.Quiet) (key : Nat) (tick : Int) :
    ∃ later : Midi.OpenKeys, (struck.strike key tick).release key = .ok ([tick], later) ∧ later.Quiet := by
  induction struck with
  | nil => exact ⟨[(key, [])], by simp [Midi.OpenKeys.strike, Midi.OpenKeys.release], by simp [Midi.OpenKeys.Quiet]⟩
  | cons p rest ih =>
    obtain ⟨k, ticks⟩ := p
    have hticks : ticks = [] := h (k, ticks) List.mem_cons_self
    have hrest : Midi.OpenKeys.Quiet rest := fun p hp => h p (List.mem_cons_of_mem _ hp)
    subst hticks
    by_cases hk : k = key
    · subst hk
      exact ⟨(k, []) :: rest, by simp [Midi.OpenKeys.strike, Midi.OpenKeys.release], h⟩
    · obtain ⟨later, hl, hq⟩ := ih hrest
      refine ⟨(k, []) :: later, ?_, ?_⟩
      · simp [Midi.OpenKeys.strike, Midi.OpenKeys.release, hk, hl, Except.map]
      · intro p hp
        rcases List.mem_cons.mp hp with rfl | hp
        · rfl
        · exact hq p hp

/-- The events of a tune settle as they are, from where no key is down: each release finds one strike, that of its own note. -/
theorem Midi.settle_eventsFrom (t : Tune) (time : Int) (i : Nat) {struck : Midi.OpenKeys} (h : struck.Quiet) :
    Midi.settle struck (Midi.eventsFrom time i t) = .ok (Midi.eventsFrom time i t) := by
  induction t generalizing time i struck with
  | nil => rfl
  | cons n t ih =>
    rw [Midi.eventsFrom]
    split
    · rename_i k _
      obtain ⟨later, hl, hq⟩ := Midi.OpenKeys.release_strike h (Midi.lowestKey + k) (Midi.resolution * time)
      simp only [Midi.settle, hl, bind, Except.bind, ih _ _ hq]
      rfl
    · exact ih _ _ h

/-- The timeline of a tune of notes that last is the list of its events. -/
theorem Midi.timeline_eq {t : Tune} (ht : ∀ n ∈ t, 1 ≤ n.duration) :
    Midi.timeline t = .ok (Midi.eventsFrom 0 0 t) := by
  have hp := Midi.precedes_eventsFrom ht 0 0
  have hquiet : Midi.OpenKeys.Quiet [] := by simp [Midi.OpenKeys.Quiet]
  rw [Midi.timeline, Midi.distinct_eq hp, Midi.sorted_eq hp, Midi.settle_eventsFrom t 0 0 hquiet]
  exact congrArg Except.ok (Midi.sorted_eq hp)

/-! ## What the events say -/

/-- The scale has twelve pitches. -/
theorem Pitch.index?_lt {p : Pitch} {k : Nat} (h : p.index? = some k) : k < 12 := by
  unfold Pitch.index? at h
  exact (List.findIdx?_eq_some_iff_getElem.mp h).1

/-- The keys of a tune are keys of the instrument. -/
theorem Midi.key_of_mem_eventsFrom {t : Tune} {time : Int} {i : Nat} {e : Midi.Event}
    (he : e ∈ Midi.eventsFrom time i t) : e.key < 128 := by
  induction t generalizing time i with
  | nil => simp [Midi.eventsFrom] at he
  | cons n t ih =>
    rw [Midi.eventsFrom] at he
    split at he
    · rename_i k hk
      have hkey : Midi.lowestKey + k < 128 := by
        have := Pitch.index?_lt hk
        simp only [Midi.lowestKey]
        omega
      rcases List.mem_cons.mp he with rfl | he
      · exact hkey
      · rcases List.mem_cons.mp he with rfl | he
        · exact hkey
        · exact ih he
    · exact ih he

/-- The notes before a position, with one more. -/
theorem Tune.onset_append_cons (before : Tune) (n : Note) (t : Tune) :
    Tune.onset (before ++ n :: t) (before.length + 1) = Tune.onset (before ++ n :: t) before.length + n.duration := by
  have hmove : before ++ n :: t = (before ++ [n]) ++ t := by simp
  have hupto : (before ++ n :: t).take before.length = before := List.take_left
  have hwith : (before ++ n :: t).take (before.length + 1) = before ++ [n] := by
    rw [hmove]
    exact List.take_left' (by simp)
  rw [Tune.onset, Tune.onset, hupto, hwith, List.foldl_append, List.foldl_cons, List.foldl_nil]

/-- The events of the notes behind a position say what these notes say. -/
theorem Midi.timed_eventsFrom (before t : Tune) (i : Nat) :
    (Midi.eventsFrom (Tune.onset (before ++ t) before.length) i t).map Midi.Event.timed =
      (t.zipIdx before.length).flatMap (fun p => Tune.strokes (before ++ t) p.1 p.2) := by
  induction t generalizing before i with
  | nil => rfl
  | cons n t ih =>
    have hmove : before ++ n :: t = (before ++ [n]) ++ t := by simp
    have hlength : before.length + 1 = (before ++ [n]).length := by simp
    have hrest : ∀ j, (Midi.eventsFrom (Tune.onset (before ++ n :: t) before.length + n.duration) j t).map Midi.Event.timed =
        (t.zipIdx (before.length + 1)).flatMap (fun p => Tune.strokes (before ++ n :: t) p.1 p.2) := by
      intro j
      rw [← Tune.onset_append_cons, hmove, hlength]
      exact ih (before ++ [n]) j
    rw [Midi.eventsFrom, List.zipIdx_cons, List.flatMap_cons]
    split
    · rename_i k hk
      rw [List.map_cons, List.map_cons, hrest]
      simp only [Tune.strokes, hk, Tune.onset_append_cons]
      rfl
    · rename_i hk
      rw [hrest]
      simp [Tune.strokes, hk]

/-- The events of a tune say what the tune says. -/
theorem Midi.timed_eventsFrom_zero (t : Tune) : (Midi.eventsFrom 0 0 t).map Midi.Event.timed = t.score :=
  Midi.timed_eventsFrom [] t 0

/-- The note track of a tune of notes that last is read back as what the tune says, unless too much time passes in between. -/
theorem Midi.readTrack_notes {t : Tune} (ht : ∀ n ∈ t, 1 ≤ n.duration) :
    Midi.readTrack 0 (Midi.eventBytes 0 (Midi.eventsFrom 0 0 t) ++ Midi.endOfTrack) =
      if Midi.Spaced 0 t.score then some t.score else none := by
  have hsorted : (Midi.eventsFrom 0 0 t).Pairwise (fun a b => a.tick ≤ b.tick) := by
    refine (Midi.precedes_eventsFrom ht 0 0).imp ?_
    intro a b hab
    rcases hab with h | h <;> omega
  have hstart : ∀ e ∈ Midi.eventsFrom 0 0 t, 0 ≤ e.tick := by
    intro e he
    have := Midi.tick_of_mem_eventsFrom ht he
    omega
  rw [← Midi.timed_eventsFrom_zero]
  exact Midi.readTrack_eventBytes (Int.le_refl 0) hstart hsorted (fun e he => Midi.key_of_mem_eventsFrom he)

/-- The track that sets the tempo is read back. -/
theorem Midi.readTrack_tempo : Midi.readTrack 0 (Midi.tempo ++ Midi.endOfTrack) = some [⟨0, .tempo 240000⟩] := by
  have he : Midi.readEvent (Midi.tempo ++ Midi.endOfTrack) = some (0, .tempo 240000, Midi.endOfTrack) := rfl
  rw [Midi.readTrack_event he (by simp), Midi.readTrack_endOfTrack]
  rfl

/-! ## Recording -/

/-- The note track of a tune is too long for its length field. -/
def Tune.Oversized (t : Tune) : Prop :=
  ∃ es, Midi.timeline t = .ok es ∧ 0x100000000 ≤ (Midi.eventBytes 0 es ++ Midi.endOfTrack).length

/-- The note track of a tune of notes that last is as long as the bytes of its events. -/
theorem Tune.not_oversized {t : Tune} (ht : ∀ n ∈ t, 1 ≤ n.duration)
    (h : (Midi.eventBytes 0 (Midi.eventsFrom 0 0 t) ++ Midi.endOfTrack).length < 0x100000000) : ¬ t.Oversized := by
  rintro ⟨es, htimeline, hlength⟩
  rw [Midi.timeline_eq ht, Except.ok.injEq] at htimeline
  subst htimeline
  exact Nat.not_le.mpr h hlength

/-- A track that is too long for its length field cannot be written. -/
theorem Midi.track_of_le {events : List UInt8} (h : 0x100000000 ≤ (events ++ Midi.endOfTrack).length) :
    Midi.track events = .error .trackTooLong := by
  rw [Midi.track, Midi.field32, if_neg (Nat.not_lt.mpr h)]

/-- A track that is not too long for its length field is its mark, the field and its data. -/
theorem Midi.track_of_lt {events : List UInt8} (h : (events ++ Midi.endOfTrack).length < 0x100000000) :
    ∃ field, Midi.field32 (events ++ Midi.endOfTrack).length = some field ∧
      Midi.track events = .ok (Midi.trackMark ++ field ++ (events ++ Midi.endOfTrack)) := by
  obtain ⟨field, hfield⟩ : ∃ field, Midi.field32 (events ++ Midi.endOfTrack).length = some field := by
    rw [Midi.field32, if_pos h]
    exact ⟨_, rfl⟩
  refine ⟨field, hfield, ?_⟩
  rw [Midi.track, hfield]

/-- The track that sets the tempo can be written, and where the timeline can be settled only the note track can fail. -/
theorem Midi.tracks_of_timeline {t : Tune} {es : List Midi.Event} (h : Midi.timeline t = .ok es) :
    ∃ tempo, Midi.track Midi.tempo = .ok tempo ∧ Midi.tracks t = (Midi.track (Midi.eventBytes 0 es)).map (tempo ++ ·) := by
  obtain ⟨tempo, htempo⟩ : ∃ tempo, Midi.track Midi.tempo = .ok tempo := ⟨_, rfl⟩
  refine ⟨tempo, htempo, ?_⟩
  rw [Midi.tracks, h, htempo]
  cases hnotes : Midi.track (Midi.eventBytes 0 es) <;> simp only [bind, Except.bind, hnotes] <;> rfl

/-- A file whose note track is too long has the header alone. -/
theorem Midi.file_of_oversized {t : Tune} (h : t.Oversized) : Midi.file t = (Midi.header, some .trackTooLong) := by
  obtain ⟨es, htimeline, hlength⟩ := h
  obtain ⟨tempo, _, htracks⟩ := Midi.tracks_of_timeline htimeline
  rw [Midi.file, htracks, Midi.track_of_le hlength]
  rfl

/-- A file whose timeline can be settled and whose note track is not too long has its two tracks behind the header. -/
theorem Midi.file_of_timeline {t : Tune} {es : List Midi.Event} (htimeline : Midi.timeline t = .ok es) (hsize : ¬ t.Oversized) :
    ∃ tempo notes, Midi.track Midi.tempo = .ok tempo ∧ Midi.track (Midi.eventBytes 0 es) = .ok notes ∧
      Midi.file t = (Midi.header ++ (tempo ++ notes), none) := by
  have hlength : (Midi.eventBytes 0 es ++ Midi.endOfTrack).length < 0x100000000 :=
    Nat.lt_of_not_le (fun h => hsize ⟨es, htimeline, h⟩)
  obtain ⟨field, _, hnotes⟩ := Midi.track_of_lt hlength
  obtain ⟨tempo, htempo, htracks⟩ := Midi.tracks_of_timeline htimeline
  refine ⟨tempo, _, htempo, hnotes, ?_⟩
  rw [Midi.file, htracks, hnotes]
  rfl

/-- A track is read in front of other tracks. -/
theorem Midi.readTracks_track {n : Nat} {events bytes : List UInt8} (htrack : Midi.track events = .ok bytes) (rest : List UInt8) :
    Midi.readTracks (n + 1) (bytes ++ rest) =
      (Midi.readTrack 0 (events ++ Midi.endOfTrack)).bind (fun track => (Midi.readTracks n rest).map (track :: ·)) := by
  have hlength : (events ++ Midi.endOfTrack).length < 0x100000000 := by
    refine Nat.lt_of_not_le (fun h => ?_)
    rw [Midi.track_of_le h] at htrack
    cases htrack
  obtain ⟨field, hfield, hbytes⟩ := Midi.track_of_lt hlength
  obtain rfl := Except.ok.inj (htrack.symm.trans hbytes)
  have hmark : Midi.trackMark.length = 4 := rfl
  simp only [Midi.readTracks, Midi.readChunk_chunk hmark hfield rest, Option.bind_eq_bind, Option.bind_some, Option.pure_def,
    Option.map_eq_bind]
  rfl

/-- The header is read back: what follows it are two tracks. -/
theorem Midi.read_header (rest : List UInt8) :
    Midi.read (Midi.header ++ rest) = (Midi.readTracks 2 rest).map (fun tracks => ⟨1, 960, tracks⟩) := by
  have hmark : Midi.fileMark.length = 4 := rfl
  have hfield : Midi.field32 ([0x00, 0x01, 0x00, 0x02, 0x03, 0xc0] : List UInt8).length = some [0x00, 0x00, 0x00, 0x06] := rfl
  have hchunk : Midi.readChunk Midi.fileMark (Midi.header ++ rest) = some ([0x00, 0x01, 0x00, 0x02, 0x03, 0xc0], rest) :=
    Midi.readChunk_chunk hmark hfield rest
  have hcount : Midi.number [0x00, 0x02] = 2 := rfl
  simp only [Midi.read, hchunk, Option.bind_eq_bind, Option.bind_some, List.drop_succ_cons, List.drop_zero,
    List.take_succ_cons, List.take_zero, hcount, Option.map_eq_bind]
  rfl

/-- The bytes of a tune of notes that last, when its note track is not too long for its length field. If its messages are spaced
closely enough, they are a file of format 1 with two tracks: the tempo, and what the tune says. If not, they are no such file. -/
theorem Midi.read_file {t : Tune} (ht : ∀ n ∈ t, 1 ≤ n.duration) (hsize : ¬ t.Oversized) :
    (Midi.file t).2 = none ∧ Midi.read (Midi.file t).1 =
      if Midi.Spaced 0 t.score then some ⟨1, 960, [[⟨0, .tempo 240000⟩], t.score]⟩ else none := by
  obtain ⟨tempo, notes, htempo, hnotes, hfile⟩ := Midi.file_of_timeline (Midi.timeline_eq ht) hsize
  have hsecond : Midi.readTracks 1 notes = (if Midi.Spaced 0 t.score then some t.score else none).map ([·]) := by
    have hread := Midi.readTracks_track (n := 0) hnotes []
    rw [List.append_nil, Midi.readTrack_notes ht] at hread
    rw [hread]
    cases (if Midi.Spaced 0 t.score then some t.score else none) <;> rfl
  rw [hfile]
  refine ⟨rfl, ?_⟩
  rw [Midi.read_header, Midi.readTracks_track htempo, Midi.readTrack_tempo, hsecond]
  split <;> rfl

/-- One message comes before another: at an earlier tick, or as a note-off at the tick of a note-on. -/
def Midi.Timed.Precedes (a b : Midi.Timed) : Prop :=
  a.tick < b.tick ∨ (a.tick = b.tick ∧ (∃ key, a.message = .noteOff 0 key 100) ∧ ∃ key, b.message = .noteOn 0 key 100)

/-- What a tune of notes that last says comes in order, a note-off before a note-on of the same tick. -/
theorem Tune.precedes_score {t : Tune} (ht : ∀ n ∈ t, 1 ≤ n.duration) : t.score.Pairwise Midi.Timed.Precedes := by
  rw [← Midi.timed_eventsFrom_zero, List.pairwise_map]
  refine (Midi.precedes_eventsFrom ht 0 0).imp_of_mem ?_
  intro a b ha _ hab
  have hstart := Midi.tick_of_mem_eventsFrom ht ha
  rcases hab with hlt | ⟨heq, hr, hs⟩
  · left
    simp only [Midi.Event.timed]
    omega
  · right
    refine ⟨by simp only [Midi.Event.timed, heq], ⟨a.key, ?_⟩, ⟨b.key, ?_⟩⟩
    · simp only [Midi.Event.timed, Midi.Event.message, hr]
    · simp only [Midi.Event.timed, Midi.Event.message, hs]

/-- A tune of notes that last is recorded to every path that takes the bytes, unless its note track is too long for its length
field. If its messages are spaced closely enough, the file is of format 1 with two tracks, the tempo and a note track in which every
note of the scale goes down and comes up once, at its own ticks, and which says nothing else. -/
theorem World.record_score {w : World} {t : Tune} {path : String} {place : List String} (ht : ∀ n ∈ t, 1 ≤ n.duration)
    (hpath : w.files.Takes path place) (hsize : ¬ t.Oversized) (hgaps : Midi.Spaced 0 t.score) :
    ∃ after, w.files.write path (Midi.file t).1 = (none, after) ∧ w.record t path = (none, { w with files := after }) ∧
      (w.files.device? place = none → after.get? place = some (Midi.file t).1) ∧
      Midi.read (Midi.file t).1 = some ⟨1, 960, [[⟨0, .tempo 240000⟩], t.score]⟩ ∧
      t.score.Pairwise Midi.Timed.Precedes := by
  have hwrite := hpath.write (Midi.file t).1
  obtain ⟨hnone, hread⟩ := Midi.read_file ht hsize
  rw [if_pos hgaps] at hread
  refine ⟨_, hwrite, ?_, ?_, hread, Tune.precedes_score ht⟩
  · rw [World.record, hwrite, hnone]
    rfl
  · intro hkeeps
    have hheld := (w.files.get?_write path (Midi.file t).1 place).1 ⟨hpath.opened, hkeeps⟩
    rw [hwrite, hpath.willing] at hheld
    exact hheld

/-- A tune with a key that is struck again where it comes up, a rest and a pitch outside the scale. -/
def Tune.sample : Tune := [⟨"C", 1⟩, ⟨"C", 2⟩, ⟨"R", 1⟩, ⟨"H", 3⟩, ⟨"B", 1⟩]

/-- The sample tune is recorded, and its file says three notes. -/
theorem World.record_score_sample :
    (∀ n ∈ Tune.sample, 1 ≤ n.duration) ∧ ({} : World).files.Takes "x.mid" ["tmp", "work", "x.mid"] ∧
      ∃ after, ({} : World).record Tune.sample "x.mid" = (none, { ({} : World) with files := after }) ∧
        after.get? ["tmp", "work", "x.mid"] = some (Midi.file Tune.sample).1 ∧
        Midi.read (Midi.file Tune.sample).1 =
          some ⟨1, 960, [[⟨0, .tempo 240000⟩],
            [⟨0, .noteOn 0 60 100⟩, ⟨960, .noteOff 0 60 100⟩, ⟨960, .noteOn 0 60 100⟩, ⟨2880, .noteOff 0 60 100⟩,
              ⟨6720, .noteOn 0 71 100⟩, ⟨7680, .noteOff 0 71 100⟩]]⟩ := by
  have ht : ∀ n ∈ Tune.sample, 1 ≤ n.duration := by decide
  have hpath : ({} : World).files.Takes "x.mid" ["tmp", "work", "x.mid"] := ⟨rfl, rfl⟩
  have hsize : ¬ Tune.sample.Oversized := Tune.not_oversized ht (by decide +kernel)
  obtain ⟨after, _, hrecord, hplace, hread, _⟩ := World.record_score ht hpath hsize (by decide)
  exact ⟨ht, hpath, after, hrecord, hplace rfl, hread⟩

/-- It is not enough that a path can be opened, and not every duration can be said: the full device is opened and takes no tune, and
the release of a key that was held for long enough stands behind a quantity that no reader takes. -/
theorem World.record_score_limits :
    (¬ ∀ (w : World) (t : Tune) (path : String) (place : List String), (∀ n ∈ t, 1 ≤ n.duration) →
        w.files.opened path = .ok place → ¬ t.Oversized → Midi.Spaced 0 t.score → (w.record t path).1 = none) ∧
      ¬ ∀ (t : Tune), (∀ n ∈ t, 1 ≤ n.duration) → ¬ t.Oversized → ∃ score, Midi.read (Midi.file t).1 = some score := by
  constructor
  · intro h
    have ht : ∀ n ∈ ([⟨"A", 1⟩] : Tune), 1 ≤ n.duration := by decide
    have hrecord := h {} [⟨"A", 1⟩] "/dev/full" ["dev", "full"] ht rfl (Tune.not_oversized ht (by decide +kernel)) (by decide)
    have hwrite : (({} : World).files.write "/dev/full" (Midi.file [⟨"A", 1⟩]).1).1 = some ⟨.refused .noSpace, "/dev/full"⟩ := rfl
    rw [World.record, hwrite] at hrecord
    cases hrecord
  · intro h
    have ht : ∀ n ∈ ([⟨"A", 279621⟩] : Tune), 1 ≤ n.duration := by decide
    have hsize : ¬ Tune.Oversized [⟨"A", 279621⟩] := Tune.not_oversized ht (by decide +kernel)
    obtain ⟨score, hscore⟩ := h [⟨"A", 279621⟩] ht hsize
    rw [(Midi.read_file ht hsize).2, if_neg (by decide)] at hscore
    cases hscore

end TuneLang
