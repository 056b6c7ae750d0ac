import TuneLang.Text.Blank

/-!
# Paths

A path is text in which slashes divide the parts. It leads from the root when it starts with a slash and from a given place
otherwise. A place is the list of the names that lead to it from the root.
-/

namespace TuneLang

/-- The parts of a path between its slashes. -/
def Path.parts (path : String) : List String := (Text.runs (fun c => c == '/') path.toList).map String.ofList

/-- Whether a path starts at the root of the file system. -/
def Path.isAbsolute (path : String) : Bool := path.toList.head? == some '/'

/-- Whether a path ends in a slash, and so can only name a directory. -/
def Path.endsInSlash (path : String) : Bool := path.toList.getLast? == some '/'

/-- What a path keeps of the slashes in front of it: none, one, or two when there are exactly two. -/
def Path.root (path : String) : String :=
  match (path.toList.takeWhile (fun c => c == '/')).length with
  | 0 => ""
  | 2 => "//"
  | _ => "/"

/-- A path without the slashes and the parts that lead nowhere. -/
def Path.simplified (path : String) : String :=
  let kept := Path.root path ++ String.intercalate "/" ((Path.parts path).filter (fun p => p != "."))
  if kept = "" then "." else kept

/-- Whether a part of a path leads from a directory to itself or to the one above, and so to a directory. -/
def Path.isDots (part : String) : Bool := part == "." || part == ".."

/-- The place that one part leads to. Above the root is the root. -/
def Path.step (here : List String) (part : String) : List String :=
  if part = "." then here else if part = ".." then here.dropLast else here ++ [part]

/-- The place at which a path starts. -/
def Path.start (here : List String) (path : String) : List String := if Path.isAbsolute path then [] else here

/-- The place that a path names when every directory on its way exists. -/
def Path.resolve (here : List String) (path : String) : List String :=
  (Path.parts path).foldl Path.step (Path.start here path)

/-- The most bytes that a name may have. -/
def Path.maxNameBytes : Nat := 255

/-- The most bytes that a path may have. -/
def Path.maxBytes : Nat := 4095

end TuneLang
