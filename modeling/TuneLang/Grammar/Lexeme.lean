import TuneLang.Grammar.Terminal

/-!
# Lexemes

How a source is cut into tokens. Which token stands at a place depends on the terminals that the grammar allows there: a name is
tried first, then an integer, a path and the fixed texts. A name whose whole text is a word that is allowed is that word; where no
name is allowed, a word is cut off whatever follows it; and a word that is not allowed is an ordinary name.

Between tokens stand layout characters and comments, which run from `#` to the end of the line. Where a path is expected, `#`
begins a path and no comment.
-/

namespace TuneLang

/-- The characters that may stand between tokens. -/
def Layout.isSpace (c : Char) : Bool := c == ' ' || c == '\t' || c == Char.ofNat 0x0c || c == '\r' || c == '\n'

/-- What is left of a source after the layout in front of it. The second argument says whether a comment has begun; comments are
left out of the layout when `comments` is false. -/
def Layout.rest (comments : Bool) : Bool → List Char → List Char
  | _, [] => []
  | true, c :: cs => Layout.rest comments (c != '\n') cs
  | false, c :: cs =>
    if Layout.isSpace c then Layout.rest comments false cs
    else if comments && c == '#' then Layout.rest comments true cs
    else c :: cs

/-- Skipping layout never makes a source longer. -/
theorem Layout.length_rest_le (comments inComment : Bool) (cs : List Char) :
    (Layout.rest comments inComment cs).length ≤ cs.length := by
  induction cs generalizing inComment with
  | nil => cases inComment <;> simp [Layout.rest]
  | cons c cs ih =>
    cases inComment with
    | true => exact Nat.le_succ_of_le (ih (c != '\n'))
    | false =>
      unfold Layout.rest
      split
      · exact Nat.le_succ_of_le (ih false)
      · split
        · exact Nat.le_succ_of_le (ih true)
        · exact Nat.le_refl _

/-- The characters a name begins with. -/
def Lexeme.isNameStart (c : Char) : Bool := c == '_' || ('a' ≤ c && c ≤ 'z') || ('A' ≤ c && c ≤ 'Z')

/-- The digits of an integer. -/
def Lexeme.isDigit (c : Char) : Bool := '0' ≤ c && c ≤ '9'

/-- The characters a name goes on with. -/
def Lexeme.isNameChar (c : Char) : Bool := Lexeme.isNameStart c || Lexeme.isDigit c

/-- The characters of a path. -/
def Lexeme.isPathChar (c : Char) : Bool := c != Char.ofNat 0 && c != ';' && c != ' '

/-- The fixed text of a terminal stands in front of a source. -/
def Lexeme.startsWith (t : Terminal) (cs : List Char) : Bool := t.fixedText.toList.isPrefixOf cs

/-- The name in front of a source, empty when there is none. -/
def Lexeme.name : List Char → List Char
  | [] => []
  | c :: cs =>
    if Terminal.hardWords.any (fun t => Lexeme.startsWith t (c :: cs)) then []
    else if Lexeme.isNameStart c then c :: cs.takeWhile Lexeme.isNameChar
    else []

/-- The integer in front of a source, empty when there is none. -/
def Lexeme.int (cs : List Char) : List Char := cs.takeWhile Lexeme.isDigit

/-- The path in front of a source, empty when there is none. -/
def Lexeme.path (cs : List Char) : List Char := cs.takeWhile Lexeme.isPathChar

/-- The terminal of a text that was read as a name, when the given words are allowed. -/
def Lexeme.wordOrName (words : List Terminal) (text : List Char) : Terminal :=
  (words.find? (fun t => t.fixedText.toList == text)).getD .name

/-- The token in front of a source, among the allowed terminals. -/
def Token.first? (allowed : List Terminal) (cs : List Char) : Option Token :=
  if allowed.contains .name && !(Lexeme.name cs).isEmpty then
    some ⟨Lexeme.wordOrName (Terminal.softWords.filter allowed.contains) (Lexeme.name cs), String.ofList (Lexeme.name cs)⟩
  else if allowed.contains .int && !(Lexeme.int cs).isEmpty then some ⟨.int, String.ofList (Lexeme.int cs)⟩
  else if allowed.contains .path && !(Lexeme.path cs).isEmpty then some ⟨.path, String.ofList (Lexeme.path cs)⟩
  else
    (Terminal.fixed.find? (fun t => allowed.contains t && Lexeme.startsWith t cs)).map (fun t => ⟨t, t.fixedText⟩)

/-- The terminal of a text that was read as a path where none was expected: a fixed text with at most a line end behind it is its
own terminal. -/
def Lexeme.fixedOrPath (text : List Char) : Terminal :=
  ((Terminal.fixed.erase .semicolon).find?
    (fun t => t.fixedText.toList == text || t.fixedText.toList ++ ['\n'] == text)).getD .path

/-- The token that a message names where no allowed terminal fits, read without regard to what is allowed. -/
def Token.unexpected? (cs : List Char) : Option Token :=
  if !(Lexeme.name cs).isEmpty then
    some ⟨Lexeme.wordOrName Terminal.softWords (Lexeme.name cs), String.ofList (Lexeme.name cs)⟩
  else if !(Lexeme.int cs).isEmpty then some ⟨.int, String.ofList (Lexeme.int cs)⟩
  else if !(Lexeme.path cs).isEmpty then some ⟨Lexeme.fixedOrPath (Lexeme.path cs), String.ofList (Lexeme.path cs)⟩
  else if Lexeme.startsWith .semicolon cs then some ⟨.semicolon, ";"⟩
  else none

end TuneLang
