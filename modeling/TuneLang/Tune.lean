import TuneLang.Pitch

/-!
# Notes and tunes

A note is a pitch held for a duration, and a tune is a list of notes played one after another. The operations on tunes are
transposition, the scaling of durations, the slice between two positions, and repetition.
-/

namespace TuneLang

/-- A pitch and how long it is held. -/
structure Note where
  pitch : Pitch
  duration : Int
  deriving DecidableEq, Repr

/-- Notes in the order in which they are played. -/
abbrev Tune := List Note

/-- Every note moved by a number of half steps. -/
def Tune.transpose (t : Tune) (steps : Int) : Tune := t.map (fun n => ⟨n.pitch.transpose steps, n.duration⟩)

/-- Every duration multiplied. -/
def Tune.stretch (t : Tune) (factor : Int) : Tune := t.map (fun n => ⟨n.pitch, n.duration * factor⟩)

/-- A duration divided and rounded down, where a quotient of zero becomes one. -/
def Note.shortened (duration divisor : Int) : Int :=
  let d := duration.fdiv divisor
  if d = 0 then 1 else d

/-- Every duration divided. -/
def Tune.shrink (t : Tune) (divisor : Int) : Tune := t.map (fun n => ⟨n.pitch, Note.shortened n.duration divisor⟩)

/-- The position that a slice bound names in a tune of `n` notes: a negative bound counts from the end, and both ends of the tune
are limits. -/
def Tune.position (n : Nat) (i : Int) : Nat := if i < 0 then (i + n).toNat else if i.toNat ≤ n then i.toNat else n

/-- The notes from one position up to another. -/
def Tune.slice (t : Tune) (start stop : Int) : Tune :=
  (t.take (Tune.position t.length stop)).drop (Tune.position t.length start)

/-- The tune played `n` times. -/
def Tune.times (t : Tune) (n : Nat) : Tune := if t.isEmpty then [] else (List.replicate n t).flatten

end TuneLang
