import TuneLang.Program

/-!
# Sessions

In a session the user types commands and sees what each gives. A command is a line, or several when all but the last end in a
backslash. It is a program to be run, or the word `dofile` and the path of a file that holds one. A command that cannot be read,
a name that is not in scope and a failed exchange are reported and the session goes on; the end of the input ends it.

A session keeps nothing from one command to the next but the world.
-/

namespace TuneLang

/-- Why a session was cut short. -/
inductive SessionFailure where
  | emptyCommand
  | blankCommand
  | file (e : FileError)
  | notText
  | build (e : BuildError)
  | run (f : RunFailure)
  deriving DecidableEq, Repr

/-- The text about a command without any character. -/
def SessionFailure.emptyMessage : String := "string index out of range"

/-- The text about a command of blanks alone. -/
def SessionFailure.blankMessage : String := "list index out of range"

/-- How a command ends: the session goes on, has ended, or is cut short. -/
inductive Turn where
  | next
  | finished
  | stopped (e : SessionFailure)
  deriving DecidableEq, Repr

/-- What the user entered at the prompts of one command. -/
inductive Entry where
  | command (s : String)
  | interrupted
  | finished
  deriving DecidableEq, Repr

/-- The prompt of a command. -/
def Session.prompt : String := "> "

/-- The prompt of a further line of a command. -/
def Session.morePrompt : String := ">> "

/-- The line about an interruption. -/
def Session.interruptLine : String := "ctrl-d to exit"

/-- A line was consumed when one was given. -/
theorem World.ask_input_length {w w' : World} {prompt : String} {line : InputLine} (h : w.ask prompt = (some line, w')) :
    w'.input.length < w.input.length := by
  unfold World.ask at h
  split at h
  · cases h
  · rename_i typed rest heq
    cases h
    rw [heq]
    exact Nat.lt_succ_self rest.length

/-- The rest of a command of which `s` was typed: a backslash at its end is replaced by a line end and the next line. -/
def Session.gather (w : World) (s : String) : Entry × World :=
  if s.toList.getLast? = some '\\' then
    match h : w.ask Session.morePrompt with
    | (none, w') => (.finished, w')
    | (some .interrupt, w') => (.interrupted, w')
    | (some (.typed line), w') =>
      have : w'.input.length < w.input.length := World.ask_input_length h
      Session.gather w' (String.ofList s.toList.dropLast ++ "\n" ++ line)
  else (.command s, w)
termination_by w.input.length

/-- Text with every line end written as a single newline. -/
def Session.plainLines : List Char → List Char
  | [] => []
  | '\r' :: '\n' :: cs => '\n' :: Session.plainLines cs
  | c :: cs => (if c == '\r' then '\n' else c) :: Session.plainLines cs

/-- The text that bytes hold. -/
def Session.decode? (bytes : List UInt8) : Option String :=
  (String.fromUTF8? ⟨bytes.toArray⟩).map (fun s => String.ofList (Session.plainLines s.toList))

/-- The source of a command: its own text, or that of the file it names. A file that is not found is reported, and the command
itself taken as the source. -/
def Session.source (s : String) (words : List String) (w : World) : Except SessionFailure String × World :=
  match words with
  | "dofile" :: path :: _ =>
    match w.files.read path with
    | .ok bytes =>
      match Session.decode? bytes with
      | some text => (.ok text, w)
      | none => (.error .notText, w)
    | .error e =>
      if e.cause = .notFound then (.ok s, w.printLine ("file not found: " ++ e.message)) else (.error (.file e), w)
  | ["dofile"] => (.ok s, w.printLine "dofile expected a path")
  | _ => (.ok s, w)

/-- Report how a run was cut short, or cut the session short with it. -/
def Session.report (f : RunFailure) (w : World) : Turn × World :=
  match f with
  | .fault (.unbound x) => (.next, w.printLine ("EnvError: " ++ Fault.unboundMessage x))
  | .fault (.exchange e) => (.next, w.printLine ("RuntimeError: " ++ e.message))
  | .fault .interrupted => (.next, w.printLine Session.interruptLine)
  | f => (.stopped (.run f), w)

/-- Run the source of a command. -/
def Session.execute (depth : Nat) (source : String) (w : World) : Turn × World :=
  match Tree.parse source with
  | .error e => (.next, w.printLine (Program.parseErrorLine e))
  | .ok t =>
    match Program.convert t w with
    | (.error .ambiguous, w) => (.next, w.printLine Program.ambiguousLine)
    | (.error e, w) => (.stopped (.build e), w)
    | (.ok e, w) =>
      match Program.run depth e true false w with
      | (none, w) => (.next, w.printLine "")
      | (some f, w) => Session.report f w

/-- Run a command. -/
def Session.command (depth : Nat) (s : String) (w : World) : Turn × World :=
  if (Text.words s).isEmpty then (.stopped .blankCommand, w)
  else match Session.source s (Text.words s) w with
    | (.error e, w) => (.stopped e, w)
    | (.ok source, w) => Session.execute depth source w

/-- Ask for a command. -/
def Session.enter (w : World) : Except SessionFailure Entry × World :=
  match w.ask Session.prompt with
  | (none, w) => (.ok .finished, w)
  | (some .interrupt, w) => (.ok .interrupted, w)
  | (some (.typed line), w) =>
    if line = "" then (.error .emptyCommand, w)
    else match Session.gather w line with
      | (entry, w) => (.ok entry, w)

/-- Ask for a command and run it. -/
def Session.turn (depth : Nat) (w : World) : Turn × World :=
  match Session.enter w with
  | (.error e, w) => (.stopped e, w)
  | (.ok .finished, w) => (.finished, w)
  | (.ok .interrupted, w) => (.next, w.printLine Session.interruptLine)
  | (.ok (.command s), w) => Session.command depth s w

/-- At most `n` turns of a session. -/
def Session.turns (depth : Nat) : Nat → World → Option SessionFailure × World
  | 0, w => (none, w)
  | n + 1, w =>
    match Session.turn depth w with
    | (.next, w) => Session.turns depth n w
    | (.finished, w) => (none, w)
    | (.stopped e, w) => (some e, w)

/-- A session: turns until the input ends or a turn cuts it short. Each turn but the last uses up a line of the input, so there
is at most one turn more than there are lines. -/
def Session.run (depth : Nat) (w : World) : Option SessionFailure × World := Session.turns depth (w.input.length + 1) w

end TuneLang
