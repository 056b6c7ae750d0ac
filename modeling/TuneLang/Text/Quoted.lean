import TuneLang.Text.Printable

/-!
# Quoted text

The form in which text appears inside a larger printed value. It stands between single quotes, or between double quotes when it
holds a single quote and no double quote. A backslash and the quote in use are escaped, line ends and tabs have their short
escapes, and any other unprintable character is written as its code point in hexadecimal.
-/

namespace TuneLang

/-- The single quote. -/
def Quoted.single : Char := Char.ofNat 0x27

/-- The double quote. -/
def Quoted.double : Char := Char.ofNat 0x22

/-- The hexadecimal digits of a number, with zeros in front up to the given width. -/
def Quoted.hex (width n : Nat) : List Char :=
  let ds := Nat.toDigits 16 n
  List.replicate (width - ds.length) '0' ++ ds

/-- One character of a text that is quoted by `quote`. -/
def Quoted.escape (quote c : Char) : List Char :=
  if c = '\\' ∨ c = quote then ['\\', c]
  else if c = '\n' then ['\\', 'n']
  else if c = '\r' then ['\\', 'r']
  else if c = '\t' then ['\\', 't']
  else if Text.isPrintable c then [c]
  else if c.toNat < 0x100 then '\\' :: 'x' :: Quoted.hex 2 c.toNat
  else if c.toNat < 0x10000 then '\\' :: 'u' :: Quoted.hex 4 c.toNat
  else '\\' :: 'U' :: Quoted.hex 8 c.toNat

/-- The quote a text is written between. -/
def Quoted.quoteFor (cs : List Char) : Char :=
  if cs.contains Quoted.single && !cs.contains Quoted.double then Quoted.double else Quoted.single

/-- The text between quotes. -/
def Text.quoted (s : String) : String :=
  let cs := s.toList
  let q := Quoted.quoteFor cs
  String.ofList (q :: cs.flatMap (Quoted.escape q) ++ [q])

end TuneLang
