import TuneLang.Text.Quoted
import TuneLang.World.Path

/-!
# Files

The files by their places, and the place of the working directory, from which a path leads that does not start at the root. A
directory exists where a file or a device lies below it, where it has the working directory below it, and where every system has
one; none is ever made or removed. A device can be written to and keeps nothing.

A path is followed part by part. Each part but the last has to lead to a directory, and whether it does is decided before the next
part is looked at.

Where a path leads does not settle whether bytes can be written there. The system may not open the file, and what it opened may
refuse the bytes, at once or when it has taken some of them; by then a file has lost what it held. How the system will answer is
part of the files, so that a run is a function of the world it starts in.
-/

namespace TuneLang

/-- An error of the system: its number and its text. -/
structure SystemError where
  number : Nat
  text : String
  deriving DecidableEq, Repr

/-- Something has no room for bytes. -/
def SystemError.noSpace : SystemError := ⟨28, "No space left on device"⟩

/-- Something takes other bytes than those. -/
def SystemError.invalid : SystemError := ⟨22, "Invalid argument"⟩

/-- The text by which an error is reported. -/
def SystemError.message (e : SystemError) : String := "[Errno " ++ toString e.number ++ "] " ++ e.text

/-- Why a file cannot be read or written. Its path leads nowhere; or the system does not open it, for want of permission say
(`denied`); or it was opened and refused the bytes (`refused`). -/
inductive FileError.Cause where
  | notFound | notDirectory | isDirectory | nameTooLong | nullCharacter
  | denied (e : SystemError)
  | refused (e : SystemError)
  deriving DecidableEq, Repr

/-- A path that cannot be read or written, and why. -/
structure FileError where
  cause : FileError.Cause
  path : String
  deriving DecidableEq, Repr

/-- The text of a file error. The path is named when it could not be opened. -/
def FileError.message (e : FileError) : String :=
  match e.cause with
  | .notFound => "[Errno 2] No such file or directory: " ++ Text.quoted e.path
  | .notDirectory => "[Errno 20] Not a directory: " ++ Text.quoted e.path
  | .isDirectory => "[Errno 21] Is a directory: " ++ Text.quoted e.path
  | .nameTooLong => "[Errno 36] File name too long: " ++ Text.quoted e.path
  | .nullCharacter => "embedded null byte"
  | .denied cause => cause.message ++ ": " ++ Text.quoted e.path
  | .refused cause => cause.message

/-- A refusal of bytes: how many of them were taken before, and the error. -/
structure Refusal where
  taken : Nat
  error : SystemError
  deriving DecidableEq, Repr

/-- The bytes that are taken: all of them, unless there is a refusal. -/
def Refusal.front (refusal : Option Refusal) (bytes : List UInt8) : List UInt8 :=
  match refusal with
  | none => bytes
  | some r => bytes.take r.taken

/-- A device keeps nothing of what is written to it, and may refuse it. -/
structure Device where
  refusal : Option Refusal
  deriving DecidableEq, Repr

/-- The devices of every system, by their places: one that takes everything, one without room for anything, and a setting of the
system, which takes the text of a number only. -/
def Device.standard : List (List String × Device) :=
  [(["dev", "null"], ⟨none⟩), (["dev", "full"], ⟨some ⟨0, .noSpace⟩⟩), (["proc", "self", "oom_score_adj"], ⟨some ⟨0, .invalid⟩⟩)]

/-- What the system does when a file is to be opened and written: it does not open it, or it opens it, and the bytes are
refused or not. -/
inductive Opening where
  | denied (e : SystemError)
  | granted (refusal : Option Refusal)
  deriving DecidableEq, Repr

/-- The refusal that the system has for a file that it opens. -/
def Opening.refusal? : Opening → Option Refusal
  | .denied _ => none
  | .granted refusal => refusal

/-- Files with their bytes, each by its place, the place of the working directory, the devices, and what the system will do the
next times that something is written. -/
structure Files where
  home : List String := ["tmp", "work"]
  entries : List (List String × List UInt8) := []
  devices : List (List String × Device) := Device.standard
  openings : List Opening := []
  deriving DecidableEq, Repr

/-- The directories that the root of every system has. -/
def Files.systemDirectories : List String :=
  ["bin", "boot", "dev", "etc", "home", "lib", "media", "mnt", "opt", "proc", "root", "run", "sbin", "srv", "sys", "tmp", "usr",
    "var"]

/-- The bytes of a file. -/
def Files.get? (fs : Files) (place : List String) : Option (List UInt8) := fs.entries.lookup place

/-- The device at a place. -/
def Files.device? (fs : Files) (place : List String) : Option Device := fs.devices.lookup place

/-- What the system does with the next file that is to be written. It opens the file when nothing else is said. -/
def Files.opening (fs : Files) : Opening := fs.openings.headD (.granted none)

/-- Whether a place is the root or a directory that the root of every system has. -/
def Files.isSystemDirectory : List String → Bool
  | [] => true
  | [name] => Files.systemDirectories.contains name
  | _ => false

/-- Whether a place is a directory. -/
def Files.isDirectory (fs : Files) (place : List String) : Bool :=
  Files.isSystemDirectory place || place.isPrefixOf fs.home ||
    (fs.entries.map Prod.fst ++ fs.devices.map Prod.fst).any (fun below => place.isPrefixOf below && below != place)

/-- Whether a file or a device is at a place. -/
def Files.isFile (fs : Files) (place : List String) : Bool := (fs.get? place).isSome || (fs.device? place).isSome

/-- Put bytes at a place among files: in place of those that are there, or at the end. -/
def Files.insert (place : List String) (bytes : List UInt8) :
    List (List String × List UInt8) → List (List String × List UInt8)
  | [] => [(place, bytes)]
  | f :: fs => if f.1 = place then (place, bytes) :: fs else f :: Files.insert place bytes fs

/-- The files with other bytes at a place. -/
def Files.put (fs : Files) (place : List String) (bytes : List UInt8) : Files :=
  { fs with entries := Files.insert place bytes fs.entries }

/-- The files with one more at a path, and the directories on its way. -/
def Files.add (fs : Files) (path : String) (bytes : List UInt8) : Files := fs.put (Path.resolve fs.home path) bytes

/-- The place that a part leads to from a directory. -/
def Files.look (here : List String) (part : String) : Except FileError.Cause (List String) :=
  if Path.maxNameBytes < part.utf8ByteSize then .error .nameTooLong else .ok (Path.step here part)

/-- The directory that parts lead to from a directory. -/
def Files.descend (fs : Files) (here : List String) : List String → Except FileError.Cause (List String)
  | [] => .ok here
  | part :: rest => do
    let next ← Files.look here part
    if fs.isDirectory next then fs.descend next rest
    else if fs.isFile next then .error .notDirectory
    else .error .notFound

/-- Whether a path can be followed at all, whatever files there are. -/
def Files.admit (path : String) : Except FileError.Cause Unit :=
  if path.toList.contains (Char.ofNat 0) then .error .nullCharacter
  else if path = "" then .error .notFound
  else if Path.maxBytes < path.utf8ByteSize then .error .nameTooLong
  else .ok ()

/-- The directory that all parts of a path but the last lead to. -/
def Files.parent (fs : Files) (path : String) : Except FileError.Cause (List String) := do
  Files.admit path
  fs.descend (Path.start fs.home path) (Path.parts path).dropLast

/-- The place to which a path leads that is to be written. A path that can only name a directory is refused without looking at
what its last part leads to. -/
def Files.target (fs : Files) (path : String) : Except FileError.Cause (List String) := do
  let here ← fs.parent path
  match (Path.parts path).getLast? with
  | none => .error .isDirectory
  | some part =>
    if Path.isDots part || Path.endsInSlash path then .error .isDirectory
    else
      let place ← Files.look here part
      if fs.isDirectory place then .error .isDirectory else .ok place

/-- The bytes of the file to which a path leads that does not end in a slash. A device is taken to give no bytes, as the null device
does; one that gives bytes without end, as the full device does, would never be read through, and that is not modelled. -/
def Files.content (fs : Files) (path : String) : Except FileError.Cause (List UInt8) := do
  let here ← fs.parent path
  let place ← Files.look here ((Path.parts path).getLastD ".")
  if fs.isDirectory place then .error .isDirectory
  else match fs.get? place with
    | some bytes => .ok bytes
    | none => if fs.isFile place then .ok [] else .error .notFound

/-- The place at which a path is opened to be written. -/
def Files.opened (fs : Files) (path : String) : Except FileError.Cause (List String) := do
  let place ← fs.target path
  match fs.opening with
  | .denied e => .error (.denied e)
  | .granted _ => .ok place

/-- How bytes are refused by what is opened at a place: as the device there does, or else as the system does. -/
def Files.refusal? (fs : Files) (place : List String) : Option Refusal :=
  ((fs.device? place).bind Device.refusal).or fs.opening.refusal?

/-- The files when the system has answered once more. -/
def Files.answered (fs : Files) : Files := { fs with openings := fs.openings.tail }

/-- The files when bytes went to a place that was opened. What a file there held is gone, and it holds the bytes that were taken. -/
def Files.filled (fs : Files) (place : List String) (bytes : List UInt8) : Files :=
  if (fs.device? place).isSome then fs.answered else fs.answered.put place (Refusal.front (fs.refusal? place) bytes)

/-- Write bytes to a path: the error, if there is one, and the files after that. -/
def Files.write (fs : Files) (path : String) (bytes : List UInt8) : Option FileError × Files :=
  match fs.opened path with
  | .error cause => (some ⟨cause, path⟩, fs.answered)
  | .ok place => ((fs.refusal? place).map (fun r => ⟨.refused r.error, path⟩), fs.filled place bytes)

/-- The bytes of the file that a path names once it is simplified. -/
def Files.read (fs : Files) (path : String) : Except FileError (List UInt8) :=
  match fs.content (Path.simplified path) with
  | .ok bytes => .ok bytes
  | .error cause => .error ⟨cause, Path.simplified path⟩

/-- The files that are new or have other bytes than before. -/
def Files.changed (before after : Files) : List (List String × List UInt8) :=
  after.entries.filter (fun f => before.get? f.1 != some f.2)

/-- The path of a place that lies below the working directory. -/
def Files.relative? (fs : Files) (place : List String) : Option String :=
  if fs.home.isPrefixOf place then some (String.intercalate "/" (place.drop fs.home.length)) else none

/-- The files below the working directory that are new or have other bytes than before, by path. -/
def Files.changes (before after : Files) : List (String × List UInt8) :=
  (Files.changed before after).filterMap (fun f => (after.relative? f.1).map (fun path => (path, f.2)))

end TuneLang
