/-!
# White space

Two classes of characters that text is divided or padded by. Words are divided at every space of Unicode; a numeral may be
padded by all of these but the four control characters that separate records (U+001C to U+001F).
-/

namespace TuneLang

/-- The control characters that separate files, groups, records and units. -/
def Text.isSeparator (c : Char) : Bool := 0x1c ≤ c.toNat && c.toNat ≤ 0x1f

/-- The white space of Unicode, without the separators: what may stand around a numeral. -/
def Text.isPadding (c : Char) : Bool :=
  let n := c.toNat
  (0x09 ≤ n && n ≤ 0x0d) || n == 0x20 || n == 0x85 || n == 0xa0 || n == 0x1680 || (0x2000 ≤ n && n ≤ 0x200a) ||
    n == 0x2028 || n == 0x2029 || n == 0x202f || n == 0x205f || n == 0x3000

/-- The white space of Unicode: what divides words. -/
def Text.isBlank (c : Char) : Bool := Text.isPadding c || Text.isSeparator c

/-- The text with the padding at its two ends taken off. -/
def Text.unpadded (cs : List Char) : List Char :=
  ((cs.dropWhile Text.isPadding).reverse.dropWhile Text.isPadding).reverse

/-- The pieces of a text between the characters that divide it, the empty pieces among them. -/
def Text.cut (divides : Char → Bool) : List Char → List (List Char)
  | [] => [[]]
  | c :: cs =>
    if divides c then [] :: Text.cut divides cs
    else match Text.cut divides cs with
      | [] => [[c]]
      | w :: ws => (c :: w) :: ws

/-- The longest runs of a text without a character that divides it. -/
def Text.runs (divides : Char → Bool) (cs : List Char) : List (List Char) :=
  (Text.cut divides cs).filter (fun w => !w.isEmpty)

/-- The words of a text: its longest runs without a blank. -/
def Text.words (s : String) : List String := (Text.runs Text.isBlank s.toList).map String.ofList

end TuneLang
