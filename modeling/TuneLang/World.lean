import TuneLang.World.Files

/-!
# The world around the interpreter

What a program can read and leave behind: the lines typed at it, the text it printed, the files, the commands it gave to the
system with the codes they returned, and the temporary files it used. The codes that commands will return are part of the world,
so that a run is a function of the world it starts in.
-/

namespace TuneLang

/-- What the user does when asked for a line: type one, or interrupt. -/
inductive InputLine where
  | typed (s : String)
  | interrupt
  deriving DecidableEq, Repr

/-- A command that was given to the system, and the code it returned. -/
structure Command where
  text : String
  code : Int
  deriving DecidableEq, Repr

/-- Everything outside the store. -/
structure World where
  input : List InputLine := []
  codes : List Int := []
  platform : String := "posix"
  files : Files := {}
  out : String := ""
  commands : List Command := []
  temporaries : List (List UInt8) := []
  deriving DecidableEq, Repr

/-- The code of a command when the world names no more of them: failure. -/
def World.defaultCode : Int := 1

/-- Print text as it is. -/
def World.print (w : World) (s : String) : World := { w with out := w.out ++ s }

/-- Print text and end the line. -/
def World.printLine (w : World) (s : String) : World := w.print (s ++ "\n")

/-- Give a command to the system. -/
def World.issue (w : World) (command : String) : Int × World :=
  match w.codes with
  | [] => (World.defaultCode, { w with commands := w.commands ++ [⟨command, World.defaultCode⟩] })
  | code :: codes => (code, { w with codes := codes, commands := w.commands ++ [⟨command, code⟩] })

/-- A command changes nothing but what the system was told and what it will return. -/
theorem World.issue_eq (w : World) (command : String) :
    ∃ codes commands, (w.issue command).2 = { w with codes := codes, commands := commands } := by
  unfold World.issue
  split <;> exact ⟨_, _, rfl⟩

/-- Ask for a line with a prompt: what the user does, none at the end of the input, and the world after that. -/
def World.ask (w : World) (prompt : String) : Option InputLine × World :=
  match w.input with
  | [] => (none, w.print prompt)
  | line :: rest => (some line, { w.print prompt with input := rest })

end TuneLang
