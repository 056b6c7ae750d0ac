import TuneLang.Midi.Event
import TuneLang.Midi.Quantity

/-!
# MIDI files

The bytes of a tune as a Standard MIDI file of format 1: a header, a track that sets the tempo, and a track with the notes. The
header is written before the timeline is settled and the tracks are put together, so a file for which one of these fails holds the
header alone.
-/

namespace TuneLang

/-- The header: format 1, two tracks, 960 ticks to a quarter. -/
def Midi.header : List UInt8 :=
  [0x4d, 0x54, 0x68, 0x64, 0x00, 0x00, 0x00, 0x06, 0x00, 0x01, 0x00, 0x02, 0x03, 0xc0]

/-- The mark that opens a track. -/
def Midi.trackMark : List UInt8 := [0x4d, 0x54, 0x72, 0x6b]

/-- The event that ends a track. -/
def Midi.endOfTrack : List UInt8 := [0x00, 0xff, 0x2f, 0x00]

/-- The event that sets the tempo, 240000 microseconds to a quarter. -/
def Midi.tempo : List UInt8 := [0x00, 0xff, 0x51, 0x03, 0x03, 0xa9, 0x80]

/-- A track of the given events: its mark, its length, the events, and its end. -/
def Midi.track (events : List UInt8) : Except Midi.Failure (List UInt8) :=
  match Midi.field32 (events ++ Midi.endOfTrack).length with
  | some length => .ok (Midi.trackMark ++ length ++ (events ++ Midi.endOfTrack))
  | none => .error .trackTooLong

/-- The status byte of an event on the first channel. -/
def Midi.Action.status : Midi.Action → UInt8
  | .release => 0x80
  | .strike => 0x90

/-- How hard every key is struck. -/
def Midi.velocity : UInt8 := 100

/-- The bytes of events that follow the tick `last`. -/
def Midi.eventBytes (last : Int) : List Midi.Event → List UInt8
  | [] => []
  | e :: es => Midi.delta (e.tick - last) ++ [e.action.status, e.key.toUInt8, Midi.velocity] ++ Midi.eventBytes e.tick es

/-- The two tracks of a tune. -/
def Midi.tracks (t : Tune) : Except Midi.Failure (List UInt8) := do
  let es ← Midi.timeline t
  let tempo ← Midi.track Midi.tempo
  let notes ← Midi.track (Midi.eventBytes 0 es)
  return tempo ++ notes

/-- What writing a tune leaves in its file, and the failure it ends with. -/
def Midi.file (t : Tune) : List UInt8 × Option Midi.Failure :=
  match Midi.tracks t with
  | .ok bytes => (Midi.header ++ bytes, none)
  | .error e => (Midi.header, some e)

end TuneLang
