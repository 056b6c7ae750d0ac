/-!
# Quantities in a MIDI file

Two ways to write a number as bytes: a quantity of variable length, with seven bits in each byte and the high bit set in all but
the last, and a length field of four bytes, into which not every number fits. Both put the most significant byte first. A quantity
is written with as many bytes as it takes.
-/

namespace TuneLang

/-- The bytes of a variable-length quantity that come before its last one. -/
def Midi.leading (n : Nat) : List UInt8 :=
  if n = 0 then [] else Midi.leading (n / 128) ++ [(n % 128 + 128).toUInt8]
termination_by n
decreasing_by omega

/-- A number as a variable-length quantity. -/
def Midi.quantity (n : Nat) : List UInt8 := Midi.leading (n / 128) ++ [(n % 128).toUInt8]

/-- A difference of ticks as a variable-length quantity: a negative one is written as nothing. -/
def Midi.delta (d : Int) : List UInt8 := if d < 0 then [] else Midi.quantity d.toNat

/-- A number as four bytes, if it fits into them. -/
def Midi.field32 (n : Nat) : Option (List UInt8) :=
  if n < 0x100000000 then
    some [(n / 0x1000000).toUInt8, (n / 0x10000 % 0x100).toUInt8, (n / 0x100 % 0x100).toUInt8, (n % 0x100).toUInt8]
  else none

end TuneLang
