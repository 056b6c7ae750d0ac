/-!
# Pitches

A pitch is a name. Twelve names make up the chromatic scale and are played; any other name, the rest among them, only takes time.
-/

namespace TuneLang

/-- The name of a pitch. -/
abbrev Pitch := String

/-- The chromatic scale, in half steps upward from C. -/
def Pitch.scale : List Pitch := ["C", "C#", "D", "D#", "E", "F", "F#", "G", "G#", "A", "A#", "B"]

/-- The pitch that is not played. -/
def Pitch.rest : Pitch := "R"

/-- The number of half steps from C up to a pitch of the scale. -/
def Pitch.index? (p : Pitch) : Option Nat := Pitch.scale.idxOf? p

/-- The pitch of the scale so many half steps above C, octaves left aside. -/
def Pitch.ofIndex (k : Int) : Pitch := Pitch.scale.getD (k % 12).toNat Pitch.rest

/-- A pitch moved by a number of half steps. A pitch outside the scale becomes the rest. -/
def Pitch.transpose (p : Pitch) (steps : Int) : Pitch :=
  match p.index? with
  | some k => Pitch.ofIndex (k + steps)
  | none => Pitch.rest

end TuneLang
