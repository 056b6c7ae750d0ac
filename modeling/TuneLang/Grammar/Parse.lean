import TuneLang.Grammar.Frame
import TuneLang.Grammar.Lexeme
import TuneLang.Text.Blank

/-!
# Reading a source

A source is read token by token: after each token, the reading says which terminals are looked for, and the next token is the one
among them that stands behind the layout. The first token that cannot stand at its place ends the reading, and the message names
it with its place. Where none of the terminals looked for stands, the message names the token that would be read there otherwise,
and only a character that begins no token at all is named by itself, with the line around it.
-/

namespace TuneLang

/-- A place in a source, counted from one. -/
structure Position where
  line : Nat := 1
  column : Nat := 1
  deriving DecidableEq, Repr

/-- The place after a character. -/
def Position.next (p : Position) (c : Char) : Position :=
  if c == '\n' then ⟨p.line + 1, 1⟩ else ⟨p.line, p.column + 1⟩

/-- The place after a text. -/
def Position.after (p : Position) (cs : List Char) : Position := cs.foldl Position.next p

/-- Why a source has no tree. -/
inductive ParseError where
  | unexpectedToken (label text : String) (place : Position)
  | unexpectedCharacter (c : Char) (place : Position) (context : String)
  deriving DecidableEq, Repr

/-- The text of a parse error: what was found, and where. What could have stood there instead is left out. -/
def ParseError.message : ParseError → String
  | .unexpectedToken label text place =>
    let token := Tree.inspectLeaf label text
    let line := place.line
    let column := place.column
    s!"Unexpected token {token} at line {line}, column {column}."
  | .unexpectedCharacter c place context =>
    let line := place.line
    let column := place.column
    s!"No terminal matches '{c}' in the current parser context, at line {line} col {column}\n\n{context}"

/-- How many characters a message shows on each side of an unexpected character. -/
def ParseError.reach : Nat := 40

/-- The width of a text that begins at a column of its line. A tab goes on to the next multiple of eight, and a return starts the
columns again. -/
def ParseError.width (column : Nat) : List Char → Nat
  | [] => 0
  | c :: cs =>
    if c == '\t' then (8 - column % 8) + ParseError.width (column + (8 - column % 8)) cs
    else if c == '\r' then 1 + ParseError.width 0 cs
    else 1 + ParseError.width (column + 1) cs

/-- The line around a place, and a mark under the place. -/
def ParseError.context (before behind : List Char) : String :=
  let near := before.drop (before.length - ParseError.reach)
  let left := (near.reverse.takeWhile (fun c => c != '\n')).reverse
  let right := (behind.take ParseError.reach).takeWhile (fun c => c != '\n')
  String.ofList (left ++ right ++ ['\n'] ++ List.replicate (ParseError.width 0 left) ' ' ++ ['^'])

/-- The error of a source that ends too early: it is placed at the last token. -/
def ParseError.atEnd (last : Position) : ParseError := .unexpectedToken "$END" "" last

/-- The error at a place where nothing that is looked for stands. -/
def ParseError.atPlace (source rest : List Char) (c : Char) (place : Position) : ParseError :=
  match Token.unexpected? rest with
  | some token => .unexpectedToken token.terminal.label token.text place
  | none => .unexpectedCharacter c place (ParseError.context (source.take (source.length - rest.length)) rest)

/-- Whether comments are layout where these terminals are looked for: everywhere but before a path. -/
def Layout.hasComments (allowed : List Terminal) : Bool := !allowed.contains .path

/-- Read the rest `cs` of a source. `here` is the place of the rest and `last` that of the last token. -/
def Reading.run (source : List Char) (r : Reading) (here last : Position) (cs : List Char) : Except ParseError Tree :=
  match h : Layout.rest (Layout.hasComments r.allowed) false cs with
  | [] =>
    match r.end? with
    | some t => .ok t
    | none => .error (ParseError.atEnd last)
  | c :: rest =>
    let place := here.after (cs.take (cs.length - (c :: rest).length))
    match Token.first? r.allowed (c :: rest) with
    | none => .error (ParseError.atPlace source (c :: rest) c place)
    | some token =>
      match r.feed? token with
      | none => .error (.unexpectedToken token.terminal.label token.text place)
      | some r' =>
        have : rest.length < cs.length := by
          have shorter := Layout.length_rest_le (Layout.hasComments r.allowed) false cs
          rwa [h] at shorter
        Reading.run source r' (place.after token.text.toList) place (rest.drop (token.text.length - 1))
termination_by cs.length
decreasing_by
  rw [List.length_drop]
  omega

/-- The tree of a source. -/
def Tree.parse (source : String) : Except ParseError Tree :=
  Reading.run source.toList .start {} {} source.toList

end TuneLang
