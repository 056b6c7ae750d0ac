import TuneLang.Text.Blank
import TuneLang.Text.Digit

/-!
# Numerals

Integers as decimal text. A numeral is read with padding around it, an optional sign, and digits of any script between which
single underscores may stand. Neither direction goes beyond 4300 digits: a longer text is not read (its leading zeros count)
and a longer number is not written.
-/

namespace TuneLang

/-- The most digits a numeral may have. -/
def Numeral.maxDigits : Nat := 4300

/-- The least number that needs more digits than a numeral may have. -/
def Numeral.bound : Nat := Nat.pow 10 Numeral.maxDigits

/-- The digits of an unsigned numeral: at least one, and an underscore only between two of them. -/
def Numeral.digits? : List Char → Option (List Nat)
  | [] => none
  | [c] => (Digit.value? c).map (fun d => [d])
  | c :: '_' :: cs => do
    let d ← Digit.value? c
    let ds ← Numeral.digits? cs
    return d :: ds
  | c :: cs => do
    let d ← Digit.value? c
    let ds ← Numeral.digits? cs
    return d :: ds

/-- The number that decimal digits write, the most significant first. -/
def Numeral.ofDigits (ds : List Nat) : Nat := ds.foldl (fun n d => 10 * n + d) 0

/-- The number that an unsigned numeral writes. -/
def Numeral.unsigned? (cs : List Char) : Option Nat := do
  let ds ← Numeral.digits? cs
  if ds.length ≤ Numeral.maxDigits then some (Numeral.ofDigits ds) else none

/-- The number that a signed numeral without padding writes. -/
def Numeral.signed? : List Char → Option Int
  | '-' :: cs => (Numeral.unsigned? cs).map (fun n => -(n : Int))
  | '+' :: cs => (Numeral.unsigned? cs).map (fun n => (n : Int))
  | cs => (Numeral.unsigned? cs).map (fun n => (n : Int))

/-- The integer that a text writes, and none when the text is not a numeral. -/
def Numeral.read? (s : String) : Option Int := Numeral.signed? (Text.unpadded s.toList)

/-- The decimal text of an integer, and none when it has too many digits to be written. -/
def Numeral.write? (n : Int) : Option String := if n.natAbs < Numeral.bound then some (toString n) else none

end TuneLang
