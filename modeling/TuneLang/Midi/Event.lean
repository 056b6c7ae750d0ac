import TuneLang.Tune
import TuneLang.Text.Quoted

/-!
# Note events

A tune as a timeline of note-on and note-off events. Each note of the scale makes two events, at the ticks where it begins and
ends; equal events count once; and the events are put in order of time, a note-off before a note-on of the same tick.

A key that is struck again before it was released is settled by `Midi.settle`: the note-offs of one key take the ticks of its
open note-ons off a stack. A note-off without any note-on to release is a failure, which durations below one can bring about.
-/

namespace TuneLang

/-- Whether a key is struck or released. A release comes first at one tick. -/
inductive Midi.Action where
  | release | strike
  deriving DecidableEq, Repr

/-- An event of the note track. `order` is the number of the note that made it. -/
structure Midi.Event where
  tick : Int
  action : Midi.Action
  key : Nat
  order : Nat
  deriving DecidableEq, Repr

/-- Ticks to a unit of duration. -/
def Midi.resolution : Int := 960

/-- The key of the scale's C. -/
def Midi.lowestKey : Nat := 60

/-- The events of a tune that starts at `time`, its played notes numbered from `i`. -/
def Midi.eventsFrom (time : Int) (i : Nat) : Tune → List Midi.Event
  | [] => []
  | n :: ns =>
    match n.pitch.index? with
    | some k =>
      ⟨Midi.resolution * time, .strike, Midi.lowestKey + k, i⟩ ::
        ⟨Midi.resolution * (time + n.duration), .release, Midi.lowestKey + k, i⟩ ::
          Midi.eventsFrom (time + n.duration) (i + 1) ns
    | none => Midi.eventsFrom (time + n.duration) i ns

/-- Two events that do the same thing to the same key at the same tick. -/
def Midi.Event.same (a b : Midi.Event) : Bool := a.action == b.action && a.tick == b.tick && a.key == b.key

/-- The events without those that repeat an earlier one. -/
def Midi.distinct : List Midi.Event → List Midi.Event
  | [] => []
  | e :: es => e :: (Midi.distinct es).filter (fun f => !e.same f)

/-- The order on the timeline: by tick, then releases before strikes, then by the number of the note. -/
def Midi.Event.before (a b : Midi.Event) : Bool :=
  if a.tick = b.tick then
    if a.action = b.action then decide (a.order ≤ b.order) else decide (a.action = .release)
  else decide (a.tick < b.tick)

/-- Events in the order of the timeline. -/
def Midi.sorted (es : List Midi.Event) : List Midi.Event := es.mergeSort Midi.Event.before

/-- Why the notes of a tune cannot be written: a key is released that was never struck, or more often than it was struck, so that
the timeline cannot be settled; or their track is too long for its length field. -/
inductive Midi.Failure where
  | neverStruck (key : Nat)
  | nothingOpen
  | trackTooLong
  deriving DecidableEq, Repr

/-- The text of a failure. A key is named with the number of its channel, zero, behind it. -/
def Midi.Failure.message : Midi.Failure → String
  | .neverStruck key => Text.quoted (toString key ++ "0")
  | .nothingOpen => "pop from empty list"
  | .trackTooLong => "'L' format requires 0 <= number <= 4294967295"

/-- The ticks at which each key was struck and not yet released, the latest first. A key is listed once it has been struck. -/
abbrev Midi.OpenKeys := List (Nat × List Int)

/-- Strike a key. -/
def Midi.OpenKeys.strike (key : Nat) (tick : Int) : Midi.OpenKeys → Midi.OpenKeys
  | [] => [(key, [tick])]
  | (k, ticks) :: rest => if k = key then (k, tick :: ticks) :: rest else (k, ticks) :: Midi.OpenKeys.strike key tick rest

/-- Release a key: the ticks it was open at, and the keys after the latest of them is closed. -/
def Midi.OpenKeys.release (key : Nat) : Midi.OpenKeys → Except Midi.Failure (List Int × Midi.OpenKeys)
  | [] => .error (.neverStruck key)
  | (k, ticks) :: rest =>
    if k = key then
      match ticks with
      | [] => .error .nothingOpen
      | _ :: later => .ok (ticks, (k, later) :: rest)
    else (Midi.OpenKeys.release key rest).map (fun r => (r.1, (k, ticks) :: r.2))

/-- The timeline with its releases settled: a release of a key that is open more than once moves to the tick of its latest
strike. -/
def Midi.settle : Midi.OpenKeys → List Midi.Event → Except Midi.Failure (List Midi.Event)
  | _, [] => .ok []
  | struck, e :: es =>
    match e.action with
    | .strike => (Midi.settle (struck.strike e.key e.tick) es).map (e :: ·)
    | .release => do
      let (ticks, struck) ← struck.release e.key
      let rest ← Midi.settle struck es
      match ticks with
      | tick :: _ :: _ => return ⟨tick, e.action, e.key, e.order⟩ :: rest
      | _ => return e :: rest

/-- The timeline of a tune as it is written to the note track. -/
def Midi.timeline (t : Tune) : Except Midi.Failure (List Midi.Event) :=
  (Midi.settle [] (Midi.sorted (Midi.distinct (Midi.eventsFrom 0 0 t)))).map Midi.sorted

end TuneLang
