import TuneLang.Midi.Event
import TuneLang.Midi.File

/-!
# Reading MIDI files

A reader of Standard MIDI files, written from the format alone: chunks with a mark and a length, a header of six bytes, and tracks
of messages, each behind the ticks that passed since the one before it. The reader takes the whole file: a chunk is as long as its
length says, a track ends with its end-of-track message and not before, and nothing may follow the last track. Of the messages it
knows those that strike and release a key, the tempo, and the end of a track; any other is refused.

A quantity of variable length has four bytes at most, so it cannot say more than `Midi.maxQuantity`. The file that is written knows
no such limit: more ticks than that between two messages are written with five bytes or more, and the reader refuses them.

The statements below say that each piece of a file that is written is read back, whatever follows it: `readQuantity_quantity`,
`readChunk_chunk`, `readTrack_eventBytes`. The last one is exact: a track is read back if its messages are spaced closely enough
(`Midi.Spaced`), and is not read at all if they are not.
-/

namespace TuneLang

/-- A message of a track. The end of the track is a message too. -/
inductive Midi.Message where
  | noteOff (channel key velocity : Nat)
  | noteOn (channel key velocity : Nat)
  | tempo (microseconds : Nat)
  | endOfTrack
  deriving DecidableEq, Repr

/-- A message and the tick at which it stands. -/
structure Midi.Timed where
  tick : Nat
  message : Midi.Message
  deriving DecidableEq, Repr

/-- What a file holds: its format, its ticks to a quarter, and the messages of its tracks. -/
structure Midi.Score where
  format : Nat
  division : Nat
  tracks : List (List Midi.Timed)
  deriving DecidableEq, Repr

/-- The number that bytes write, the most significant first. -/
def Midi.number (bytes : List UInt8) : Nat := bytes.foldl (fun n b => 256 * n + b.toNat) 0

/-- The most bytes that a quantity of variable length has. -/
def Midi.quantityBytes : Nat := 4

/-- The most that a quantity of variable length can say. -/
def Midi.maxQuantity : Nat := 0x0fffffff

/-- The quantity of variable length that bytes begin with, if it takes no more than a given number of them, and the bytes behind it;
`high` is the number read so far. -/
def Midi.readQuantity : (most high : Nat) → List UInt8 → Option (Nat × List UInt8)
  | 0, _, _ => none
  | _ + 1, _, [] => none
  | most + 1, high, b :: rest =>
    if b.toNat < 128 then some (128 * high + b.toNat, rest) else Midi.readQuantity most (128 * high + (b.toNat - 128)) rest

/-- The message that bytes begin with, and the bytes behind it. -/
def Midi.readMessage : List UInt8 → Option (Midi.Message × List UInt8)
  | 0xff :: 0x2f :: 0x00 :: rest => some (.endOfTrack, rest)
  | 0xff :: 0x51 :: 0x03 :: a :: b :: c :: rest => some (.tempo (Midi.number [a, b, c]), rest)
  | status :: key :: velocity :: rest =>
    if 128 ≤ key.toNat ∨ 128 ≤ velocity.toNat then none
    else if status.toNat / 16 = 8 then some (.noteOff (status.toNat % 16) key.toNat velocity.toNat, rest)
    else if status.toNat / 16 = 9 then some (.noteOn (status.toNat % 16) key.toNat velocity.toNat, rest)
    else none
  | _ => none

/-- The ticks that pass before the message that bytes begin with, the message, and the bytes behind it. -/
def Midi.readEvent (bytes : List UInt8) : Option (Nat × Midi.Message × List UInt8) := do
  let (delta, rest) ← Midi.readQuantity Midi.quantityBytes 0 bytes
  let (message, rest) ← Midi.readMessage rest
  return (delta, message, rest)

/-- A quantity takes bytes. -/
theorem Midi.length_readQuantity {bytes rest : List UInt8} {most high n : Nat}
    (h : Midi.readQuantity most high bytes = some (n, rest)) : rest.length < bytes.length := by
  induction bytes generalizing most high with
  | nil => cases most <;> simp [Midi.readQuantity] at h
  | cons b bytes ih =>
    cases most with
    | zero => simp [Midi.readQuantity] at h
    | succ most =>
      simp only [Midi.readQuantity] at h
      split at h
      · simp only [Option.some.injEq, Prod.mk.injEq] at h
        rw [← h.2]
        exact Nat.lt_succ_self _
      · exact Nat.lt_succ_of_lt (ih h)

/-- A message takes bytes. -/
theorem Midi.length_readMessage {bytes rest : List UInt8} {message : Midi.Message}
    (h : Midi.readMessage bytes = some (message, rest)) : rest.length < bytes.length := by
  unfold Midi.readMessage at h
  split at h
  · simp only [Option.some.injEq, Prod.mk.injEq] at h
    simp only [List.length_cons, ← h.2]
    omega
  · simp only [Option.some.injEq, Prod.mk.injEq] at h
    simp only [List.length_cons, ← h.2]
    omega
  · rename_i status key velocity tail _ _
    split at h
    · cases h
    · have hr : rest = tail := by
        split at h
        · exact (Prod.mk.inj (Option.some.inj h)).2.symm
        · split at h
          · exact (Prod.mk.inj (Option.some.inj h)).2.symm
          · cases h
      simp only [List.length_cons, hr]
      omega
  · cases h

/-- An event takes bytes. -/
theorem Midi.length_readEvent {bytes rest : List UInt8} {delta : Nat} {message : Midi.Message}
    (h : Midi.readEvent bytes = some (delta, message, rest)) : rest.length < bytes.length := by
  simp only [Midi.readEvent, Option.bind_eq_bind, Option.bind_eq_some_iff] at h
  obtain ⟨⟨d, middle⟩, hq, ⟨msg, rest'⟩, hm, he⟩ := h
  simp only [Option.pure_def, Option.some.injEq, Prod.mk.injEq] at he
  obtain ⟨_, _, rfl⟩ := he
  exact Nat.lt_trans (Midi.length_readMessage hm) (Midi.length_readQuantity hq)

/-- The messages of a track whose data comes after the tick `last`, up to the end of the track, which has to end the data. -/
def Midi.readTrack (last : Nat) (bytes : List UInt8) : Option (List Midi.Timed) :=
  match h : Midi.readEvent bytes with
  | none => none
  | some (_, .endOfTrack, rest) => if rest = [] then some [] else none
  | some (delta, message, rest) =>
    have : rest.length < bytes.length := Midi.length_readEvent h
    (Midi.readTrack (last + delta) rest).map (⟨last + delta, message⟩ :: ·)
termination_by bytes.length

/-- The data of the chunk with the given mark that bytes begin with, and the bytes behind it. -/
def Midi.readChunk (mark bytes : List UInt8) : Option (List UInt8 × List UInt8) :=
  let body := bytes.drop 8
  let length := Midi.number ((bytes.drop 4).take 4)
  if bytes.take 4 = mark ∧ length ≤ body.length then some (body.take length, body.drop length) else none

/-- The given number of tracks, which have to take up all bytes. -/
def Midi.readTracks : Nat → List UInt8 → Option (List (List Midi.Timed))
  | 0, bytes => if bytes = [] then some [] else none
  | n + 1, bytes => do
    let (data, rest) ← Midi.readChunk Midi.trackMark bytes
    let track ← Midi.readTrack 0 data
    let tracks ← Midi.readTracks n rest
    return track :: tracks

/-- The mark that opens a file. -/
def Midi.fileMark : List UInt8 := [0x4d, 0x54, 0x68, 0x64]

/-- What a file holds. -/
def Midi.read (bytes : List UInt8) : Option Midi.Score := do
  let (header, rest) ← Midi.readChunk Midi.fileMark bytes
  if header.length = 6 then
    let tracks ← Midi.readTracks (Midi.number ((header.drop 2).take 2)) rest
    return ⟨Midi.number (header.take 2), Midi.number (header.drop 4), tracks⟩
  else none

/-! ## Quantities -/

/-- The number of a byte that is made from a small number. -/
theorem Midi.toNat_toUInt8 {n : Nat} (h : n < 256) : n.toUInt8.toNat = n := by
  simp [Nat.mod_eq_of_lt h]

/-- The bytes of a quantity before its last one are as many as the number needs, with seven bits in each. -/
theorem Midi.length_leading_le_iff (n k : Nat) : (Midi.leading n).length ≤ k ↔ n < Nat.pow 128 k := by
  induction k generalizing n with
  | zero =>
    rw [Midi.leading]
    split
    · rename_i hn
      simp [hn]
    · rename_i hn
      have hone : Nat.pow 128 0 = 1 := rfl
      rw [List.length_append, List.length_singleton, hone]
      omega
  | succ k ih =>
    have hpow : Nat.pow 128 (k + 1) = Nat.pow 128 k * 128 := rfl
    rw [Midi.leading, hpow]
    split
    · rename_i hn
      have hpos : 0 < Nat.pow 128 k := Nat.pow_pos (by decide)
      simp only [List.length_nil, hn]
      omega
    · rw [List.length_append, List.length_singleton, Nat.add_le_add_iff_right, ih, Nat.div_lt_iff_lt_mul (by decide)]

/-- The bytes of a quantity before its last one have their high bit set. -/
theorem Midi.le_of_mem_leading {n : Nat} {b : UInt8} (h : b ∈ Midi.leading n) : 128 ≤ b.toNat := by
  induction n using Nat.strongRecOn with
  | ind n ih =>
    rw [Midi.leading] at h
    split at h
    · cases h
    · rcases List.mem_append.mp h with h | h
      · exact ih (n / 128) (by omega) h
      · rw [List.mem_singleton.mp h, Midi.toNat_toUInt8 (by omega)]
        omega

/-- The bytes of a quantity before its last one are read as the number they write. -/
theorem Midi.readQuantity_leading (n most : Nat) (bytes : List UInt8) :
    Midi.readQuantity (most + (Midi.leading n).length) 0 (Midi.leading n ++ bytes) = Midi.readQuantity most n bytes := by
  induction n using Nat.strongRecOn generalizing most bytes with
  | ind n ih =>
    rw [Midi.leading]
    split
    · rename_i hn
      simp [hn]
    · rename_i hn
      have hb : (n % 128 + 128).toUInt8.toNat = n % 128 + 128 := Midi.toNat_toUInt8 (by omega)
      have hd : 128 * (n / 128) + (n % 128 + 128 - 128) = n := by omega
      have hmost : most + ((Midi.leading (n / 128)).length + 1) = most + 1 + (Midi.leading (n / 128)).length := by omega
      rw [List.length_append, List.length_singleton, hmost, List.append_assoc, ih (n / 128) (by omega), List.singleton_append,
        Midi.readQuantity, hb, if_neg (by omega), hd]

/-- A quantity is not read when it goes on for as many bytes as it may have. -/
theorem Midi.readQuantity_of_high {most high : Nat} {front rest : List UInt8} (hfront : ∀ b ∈ front, 128 ≤ b.toNat)
    (hmost : most ≤ front.length) : Midi.readQuantity most high (front ++ rest) = none := by
  induction front generalizing most high with
  | nil =>
    obtain rfl : most = 0 := Nat.le_zero.mp hmost
    rfl
  | cons b front ih =>
    cases most with
    | zero => rfl
    | succ most =>
      have hb : 128 ≤ b.toNat := hfront b List.mem_cons_self
      rw [List.cons_append, Midi.readQuantity, if_neg (by omega)]
      exact ih (fun c hc => hfront c (List.mem_cons_of_mem _ hc)) (Nat.le_of_succ_le_succ hmost)

/-- A quantity has four bytes at most, its last one counted, exactly when it is not too large. -/
theorem Midi.length_leading_le_three_iff (n : Nat) : (Midi.leading (n / 128)).length ≤ 3 ↔ n ≤ Midi.maxQuantity := by
  have hpow : Nat.pow 128 3 = 0x200000 := rfl
  rw [Midi.length_leading_le_iff, hpow, Midi.maxQuantity]
  omega

/-- A quantity that is not too large is read back, whatever follows it. -/
theorem Midi.readQuantity_quantity {n : Nat} (h : n ≤ Midi.maxQuantity) (rest : List UInt8) :
    Midi.readQuantity Midi.quantityBytes 0 (Midi.quantity n ++ rest) = some (n, rest) := by
  have hb : (n % 128).toUInt8.toNat = n % 128 := Midi.toNat_toUInt8 (by omega)
  have hd : 128 * (n / 128) + n % 128 = n := by omega
  have hleading := (Midi.length_leading_le_three_iff n).mpr h
  have hbytes : Midi.quantityBytes = 3 - (Midi.leading (n / 128)).length + 1 + (Midi.leading (n / 128)).length := by
    rw [Midi.quantityBytes]
    omega
  rw [hbytes, Midi.quantity, List.append_assoc, Midi.readQuantity_leading, List.singleton_append, Midi.readQuantity, hb,
    if_pos (by omega), hd]

/-- A quantity that is too large is refused. -/
theorem Midi.readQuantity_of_lt {n : Nat} (h : Midi.maxQuantity < n) (rest : List UInt8) :
    Midi.readQuantity Midi.quantityBytes 0 (Midi.quantity n ++ rest) = none := by
  have hleading : ¬ (Midi.leading (n / 128)).length ≤ 3 :=
    fun hle => Nat.not_le.mpr h ((Midi.length_leading_le_three_iff n).mp hle)
  rw [Midi.quantity, List.append_assoc]
  exact Midi.readQuantity_of_high (fun b hb => Midi.le_of_mem_leading hb) (Nat.lt_of_not_le hleading)

/-! ## Chunks -/

/-- A length field has four bytes and is read back. -/
theorem Midi.number_field32 {n : Nat} {field : List UInt8} (h : Midi.field32 n = some field) :
    field.length = 4 ∧ Midi.number field = n := by
  unfold Midi.field32 at h
  split at h
  · cases h
    refine ⟨rfl, ?_⟩
    simp only [Midi.number, List.foldl_cons, List.foldl_nil]
    rw [Midi.toNat_toUInt8 (by omega), Midi.toNat_toUInt8 (by omega), Midi.toNat_toUInt8 (by omega),
      Midi.toNat_toUInt8 (by omega)]
    omega
  · cases h

/-- A chunk is read back, whatever follows it. -/
theorem Midi.readChunk_chunk {mark field data : List UInt8} (hm : mark.length = 4) (hfield : Midi.field32 data.length = some field)
    (rest : List UInt8) : Midi.readChunk mark (mark ++ field ++ data ++ rest) = some (data, rest) := by
  obtain ⟨hf, hnumber⟩ := Midi.number_field32 hfield
  have htake : (mark ++ field ++ data ++ rest).take 4 = mark := by
    rw [List.append_assoc, List.append_assoc, List.take_left' hm]
  have hlength : ((mark ++ field ++ data ++ rest).drop 4).take 4 = field := by
    rw [List.append_assoc, List.append_assoc, List.drop_left' hm, List.take_left' hf]
  have hbody : (mark ++ field ++ data ++ rest).drop 8 = data ++ rest := by
    rw [List.append_assoc, List.drop_left' (by rw [List.length_append, hm, hf])]
  have hle : data.length ≤ (data ++ rest).length := by
    rw [List.length_append]
    omega
  unfold Midi.readChunk
  simp only [htake, hlength, hbody, hnumber, hle, and_self, if_true, List.take_left, List.drop_left]

/-! ## Tracks -/

/-- The message that an event is written as. -/
def Midi.Event.message (e : Midi.Event) : Midi.Message :=
  match e.action with
  | .release => .noteOff 0 e.key 100
  | .strike => .noteOn 0 e.key 100

/-- An event as it is read back. -/
def Midi.Event.timed (e : Midi.Event) : Midi.Timed := ⟨e.tick.toNat, e.message⟩

/-- The bytes of an event's message are read back. -/
theorem Midi.readMessage_event (e : Midi.Event) (hk : e.key < 128) (rest : List UInt8) :
    Midi.readMessage ([e.action.status, e.key.toUInt8, Midi.velocity] ++ rest) = some (e.message, rest) := by
  have hb : e.key.toUInt8.toNat = e.key := Midi.toNat_toUInt8 (by omega)
  obtain ⟨tick, action, key, order⟩ := e
  simp only at hk hb
  cases action <;> simp [Midi.readMessage, Midi.Action.status, Midi.velocity, Midi.Event.message, hb] <;> omega

/-- The ticks between two events that are in order are written as a quantity. -/
theorem Midi.delta_eq {last tick : Int} (h : last ≤ tick) : Midi.delta (tick - last) = Midi.quantity (tick - last).toNat := by
  rw [Midi.delta, if_neg (by omega)]

/-- The bytes of an event that comes soon after the tick `last` are read back as its distance from `last` and its message. -/
theorem Midi.readEvent_event {last : Int} (e : Midi.Event) (hl : last ≤ e.tick) (hgap : (e.tick - last).toNat ≤ Midi.maxQuantity)
    (hk : e.key < 128) (rest : List UInt8) :
    Midi.readEvent (Midi.delta (e.tick - last) ++ [e.action.status, e.key.toUInt8, Midi.velocity] ++ rest) =
      some ((e.tick - last).toNat, e.message, rest) := by
  rw [Midi.delta_eq hl, List.append_assoc, Midi.readEvent, Midi.readQuantity_quantity hgap]
  simp only [Option.bind_eq_bind, Option.bind_some, Midi.readMessage_event e hk rest]
  rfl

/-- The bytes of an event that comes too late after the tick `last` are refused. -/
theorem Midi.readEvent_of_lt {last : Int} (e : Midi.Event) (hl : last ≤ e.tick) (hgap : Midi.maxQuantity < (e.tick - last).toNat)
    (rest : List UInt8) :
    Midi.readEvent (Midi.delta (e.tick - last) ++ [e.action.status, e.key.toUInt8, Midi.velocity] ++ rest) = none := by
  rw [Midi.delta_eq hl, List.append_assoc, Midi.readEvent, Midi.readQuantity_of_lt hgap]
  rfl

/-- The end of a track is read as such. -/
theorem Midi.readTrack_endOfTrack (last : Nat) : Midi.readTrack last Midi.endOfTrack = some [] := by
  have he : Midi.readEvent Midi.endOfTrack = some (0, .endOfTrack, []) := rfl
  rw [Midi.readTrack]
  split
  · rename_i h
    rw [he] at h
    cases h
  · rename_i rest h
    rw [he] at h
    cases h
    rfl
  · rename_i delta message rest hne h
    rw [he] at h
    cases h
    exact absurd rfl hne

/-- A track that begins with no event is refused. -/
theorem Midi.readTrack_of_none {last : Nat} {bytes : List UInt8} (h : Midi.readEvent bytes = none) :
    Midi.readTrack last bytes = none := by
  rw [Midi.readTrack]
  split
  · rfl
  · rename_i h'
    rw [h] at h'
    cases h'
  · rename_i h'
    rw [h] at h'
    cases h'

/-- A message other than the end of the track is followed by the rest of the track. -/
theorem Midi.readTrack_event {last delta : Nat} {message : Midi.Message} {bytes rest : List UInt8}
    (h : Midi.readEvent bytes = some (delta, message, rest)) (hm : message ≠ .endOfTrack) :
    Midi.readTrack last bytes = (Midi.readTrack (last + delta) rest).map (⟨last + delta, message⟩ :: ·) := by
  rw [Midi.readTrack]
  split
  · rename_i h'
    rw [h] at h'
    cases h'
  · rename_i h'
    rw [h] at h'
    cases h'
    exact absurd rfl hm
  · rename_i h'
    rw [h] at h'
    cases h'
    rfl

/-- Messages that follow the tick `last`, each no later after the one before it than a quantity can say. -/
def Midi.Spaced (last : Nat) : List Midi.Timed → Prop
  | [] => True
  | m :: ms => m.tick ≤ last + Midi.maxQuantity ∧ Midi.Spaced m.tick ms

instance Midi.Spaced.decidable : (last : Nat) → (ms : List Midi.Timed) → Decidable (Midi.Spaced last ms)
  | _, [] => inferInstanceAs (Decidable True)
  | last, m :: ms =>
    have := Midi.Spaced.decidable m.tick ms
    inferInstanceAs (Decidable (m.tick ≤ last + Midi.maxQuantity ∧ Midi.Spaced m.tick ms))

/-- The bytes of events in order of time are read back as these events if they are spaced closely enough, and refused if not. -/
theorem Midi.readTrack_eventBytes {last : Int} {es : List Midi.Event} (h0 : 0 ≤ last) (hl : ∀ e ∈ es, last ≤ e.tick)
    (hs : es.Pairwise (fun a b => a.tick ≤ b.tick)) (hk : ∀ e ∈ es, e.key < 128) :
    Midi.readTrack last.toNat (Midi.eventBytes last es ++ Midi.endOfTrack) =
      if Midi.Spaced last.toNat (es.map Midi.Event.timed) then some (es.map Midi.Event.timed) else none := by
  induction es generalizing last with
  | nil => exact Midi.readTrack_endOfTrack _
  | cons e es ih =>
    have hle : last ≤ e.tick := hl e List.mem_cons_self
    have he : e.message ≠ .endOfTrack := by
      unfold Midi.Event.message
      split <;> simp
    have ht : last.toNat + (e.tick - last).toNat = e.tick.toNat := by omega
    have htick : e.timed.tick = e.tick.toNat := rfl
    obtain ⟨hfirst, hrest⟩ := List.pairwise_cons.mp hs
    rw [Midi.eventBytes, List.append_assoc _ (Midi.eventBytes e.tick es), List.map_cons]
    simp only [Midi.Spaced, htick]
    by_cases hsoon : e.tick.toNat ≤ last.toNat + Midi.maxQuantity
    · rw [Midi.readTrack_event (Midi.readEvent_event e hle (by omega) (hk e List.mem_cons_self) _) he, ht,
        ih (by omega) hfirst hrest (fun f hf => hk f (List.mem_cons_of_mem _ hf))]
      by_cases hspaced : Midi.Spaced e.tick.toNat (es.map Midi.Event.timed)
      · rw [if_pos hspaced, if_pos ⟨hsoon, hspaced⟩]
        rfl
      · rw [if_neg hspaced, if_neg (fun h => hspaced h.2)]
        rfl
    · rw [Midi.readTrack_of_none (Midi.readEvent_of_lt e hle (by omega) _), if_neg (fun h => hsoon h.1)]

end TuneLang
