import TuneLang.Demo

/-!
# The command line

Without an argument, a session on the lines of the standard input; with `expressions` or `sources`, one of the two demonstrations.
The whole input is read first. A file that a command names is loaded before the session starts, and the files that the session
wrote are stored when it has ended. No command is given to the system: each counts as failed.
-/

namespace TuneLang

/-- The lines of the standard input up to its end. -/
partial def Main.readLines (input : IO.FS.Stream) (lines : Array String) : IO (Array String) := do
  let line ← input.getLine
  if line.isEmpty then return lines
  let text := line.toList
  let kept := if text.getLast? == some '\n' then text.dropLast else text
  Main.readLines input (lines.push (String.ofList kept))

/-- The paths of the files that commands name. -/
def Main.namedFiles (lines : List String) : List String :=
  lines.filterMap fun line =>
    match Text.words line with
    | "dofile" :: path :: _ => some path
    | _ => none

/-- The named files that exist, with their bytes, and the working directory. -/
def Main.loadFiles (paths : List String) : IO Files := do
  let here ← IO.currentDir
  let mut files : Files := { home := Path.parts here.toString }
  for path in paths do
    try
      let bytes ← IO.FS.readBinFile path
      files := files.add path bytes.toList
    catch _ => pure ()
  return files

/-- Print what a run printed and store the files that it wrote. -/
def Main.conclude (before : Files) (w : World) : IO Unit := do
  IO.print w.out
  for (place, bytes) in Files.changed before w.files do
    IO.FS.writeBinFile ("/" ++ String.intercalate "/" place) ⟨bytes.toArray⟩

/-- Run a demonstration. -/
def Main.demonstrate (demonstration : Nat → World → Demo.Outcome) : IO UInt32 := do
  let files ← Main.loadFiles []
  let outcome := demonstration Expr.depthLimit { files := files }
  Main.conclude files outcome.world
  IO.eprint outcome.report
  return if outcome.failure.isNone then 0 else 1

/-- Run a session on the standard input. -/
def Main.session : IO UInt32 := do
  let input ← IO.getStdin
  let lines ← Main.readLines input #[]
  let files ← Main.loadFiles (Main.namedFiles lines.toList)
  let (failure, w) := Session.run Expr.depthLimit { input := lines.toList.map .typed, files := files }
  Main.conclude files w
  return if failure.isNone then 0 else 1

end TuneLang

/-- The command line. -/
def main (args : List String) : IO UInt32 :=
  match args with
  | ["expressions"] => TuneLang.Main.demonstrate TuneLang.Demo.showExpressions
  | ["sources"] => TuneLang.Main.demonstrate TuneLang.Demo.showSources
  | _ => TuneLang.Main.session
