import Rebuild.Error
import Rebuild.Path
import Rebuild.Time
/-!
# File trees

A file tree maps absolute paths, as lists of names, to files and directories; the root is
always a directory. Looking up a path walks its components one by one: what stands before a
component must be a directory, even if the component is empty. A change of the tree takes one
tick of the clock, which becomes the time of what was created and of the directory it is in.
-/

namespace Rebuild

/-- A file or a directory. -/
inductive Node where
  | file (mtime : Time) (text : Text) (locked : Bool)
  | dir (mtime : Time)
deriving DecidableEq, Repr

namespace Node

/-- The time of a change. -/
def mtime : Node → Time
  | .file t _ _ => t
  | .dir t => t

/-- Set the time. -/
def setTime (t : Time) : Node → Node
  | .file _ s l => .file t s l
  | .dir _ => .dir t

/-- Is this a directory? -/
def isDir : Node → Bool
  | .dir _ => true
  | .file .. => false

end Node

/-- The files, by their places, and the clock. -/
structure Files where
  nodes : List (List Text × Node)
  rootTime : Time
  clock : Time
deriving DecidableEq, Repr

/-- What a use of files results in. -/
abbrev FileResult := Except FileFault

namespace Files

/-- No files at all. -/
def empty (clock : Time) : Files := ⟨[], .ofInt 1, clock⟩

/-- What is at a place. -/
def node? (fs : Files) (place : List Text) : Option Node :=
  if place.isEmpty then some (.dir fs.rootTime) else fs.nodes.lookup place

/-- Put a file or a directory at a place. -/
def put (fs : Files) (place : List Text) (n : Node) : Files :=
  if place.isEmpty then { fs with rootTime := n.mtime }
  else if (fs.nodes.lookup place).isSome then
    { fs with nodes := fs.nodes.map fun p => if p.1 == place then (place, n) else p }
  else { fs with nodes := fs.nodes ++ [(place, n)] }

/-- Follow one part of a path. -/
def enter (fs : Files) (place : List Text) (part : Text) : FileResult (List Text) :=
  match fs.node? place with
  | some (.dir _) =>
    if part.isEmpty || part == ['.'] then .ok place
    else if part == ['.', '.'] then .ok place.dropLast
    else
      let next := place ++ [part]
      if (fs.node? next).isSome then .ok next else .error .missing
  | some (.file ..) => .error .notDirectory
  | none => .error .missing

/-- The place where a path begins. -/
def startOf (cwd p : Text) : List Text := if Path.isAbsolute p then [] else Path.parts cwd

/-- The place of a path. -/
def find (fs : Files) (cwd p : Text) : FileResult (List Text) :=
  if p.isEmpty then .error .missing
  else (p.splitOn '/').foldlM (enter fs) (startOf cwd p)

/-- What is at a path. -/
def stat (fs : Files) (cwd p : Text) : FileResult Node := do
  let place ← fs.find cwd p
  match fs.node? place with
  | some n => return n
  | none => throw .missing

/-- The time of what is at a path. -/
def mtime? (fs : Files) (cwd p : Text) : Option Time :=
  match fs.stat cwd p with
  | .ok n => some n.mtime
  | .error _ => none

/-- Is there something at a path? -/
def has (fs : Files) (cwd p : Text) : Bool := (fs.mtime? cwd p).isSome

/-- Is there a directory at a path? -/
def isDir (fs : Files) (cwd p : Text) : Bool :=
  match fs.stat cwd p with
  | .ok n => n.isDir
  | .error _ => false

/-- The names in a directory, in code-point order. -/
def list (fs : Files) (cwd p : Text) : FileResult (List Text) := do
  let place ← fs.find cwd p
  match fs.node? place with
  | some (.dir _) =>
    return Text.sort (fs.nodes.filterMap fun (q, _) =>
      if q.dropLast == place then q.getLast? else none)
  | _ => throw .notDirectory

/-- Line ends of other systems turned into newlines. -/
def unixLines : Text → Text
  | [] => []
  | '\r' :: '\n' :: rest => '\n' :: unixLines rest
  | '\r' :: rest => '\n' :: unixLines rest
  | c :: rest => c :: unixLines rest

/-- The text of a file. -/
def read (fs : Files) (cwd p : Text) : FileResult Text := do
  match ← fs.stat cwd p with
  | .file _ s _ => return unixLines s
  | .dir _ => throw .isDirectory

/-- The next time of the clock. -/
def tick (fs : Files) : Files × Time :=
  let t := fs.clock.next
  ({ fs with clock := t }, t)

/-- Set the time of what is at a place. -/
def setTime (fs : Files) (place : List Text) (t : Time) : Files :=
  match fs.node? place with
  | some n => fs.put place (n.setTime t)
  | none => fs

/-- The directory and the name that a path would create something under. -/
def parentOf (fs : Files) (cwd p : Text) : FileResult (List Text × Text) := do
  if p.isEmpty then throw .missing
  let parts := p.splitOn '/'
  let place ← parts.dropLast.foldlM (enter fs) (startOf cwd p)
  match fs.node? place with
  | some (.dir _) => return (place, parts.getLast?.getD [])
  | some _ => throw .notDirectory
  | none => throw .missing

/-- Can a file have this name? -/
def isName (s : Text) : Bool := !(s.isEmpty || s == ['.'] || s == ['.', '.'])

/-- Add a file or a directory, and change the time of its directory. -/
def create (fs : Files) (place : List Text) (name : Text) (node : Time → Node) : Files :=
  let (fs, t) := fs.tick
  (fs.setTime place t).put (place ++ [name]) (node t)

/-- Set the time of what is at a path to now. -/
def stamp (fs : Files) (cwd p : Text) : FileResult Files := do
  let place ← fs.find cwd p
  let (fs, t) := fs.tick
  return fs.setTime place t

/-- Create an empty file unless there is one. -/
def ensure (fs : Files) (cwd p : Text) : FileResult Files :=
  match fs.stat cwd p with
  | .ok (.dir _) => .error .isDirectory
  | .ok _ => .ok fs
  | .error .missing => do
    let (place, name) ← fs.parentOf cwd p
    if isName name then return fs.create place name (fun t => .file t [] false)
    else throw .missing
  | .error e => .error e

/-- Create a file, or set its time to a tick. -/
def touch (fs : Files) (cwd p : Text) : FileResult Files :=
  if fs.has cwd p then fs.stamp cwd p else fs.ensure cwd p

/-- Write a file. -/
def write (fs : Files) (cwd p text : Text) : FileResult Files :=
  match fs.stat cwd p with
  | .ok (.dir _) => .error .isDirectory
  | .ok (.file _ _ locked) => do
    let place ← fs.find cwd p
    let (fs, t) := fs.tick
    return fs.put place (.file t text locked)
  | .error .missing => do
    let (place, name) ← fs.parentOf cwd p
    if isName name then return fs.create place name (fun t => .file t text false)
    else throw .missing
  | .error e => .error e

/-- Remove a place with all below it. -/
def remove (fs : Files) (place : List Text) : Files :=
  let (fs, t) := fs.tick
  { fs with nodes := fs.nodes.filter fun p => !place.isPrefixOf p.1 }.setTime place.dropLast t

/-- Remove a file. -/
def unlink (fs : Files) (cwd p : Text) : FileResult Files := do
  let place ← fs.find cwd p
  match fs.node? place with
  | some (.file _ _ locked) => if locked then throw .denied else return fs.remove place
  | some (.dir _) => throw .isDirectory
  | none => throw .missing

/-- Remove a directory with all in it. -/
def removeTree (fs : Files) (cwd p : Text) : FileResult Files := do
  let place ← fs.find cwd p
  return fs.remove place

/-- Create a directory; slashes after its name do not count. -/
def makeDir (fs : Files) (cwd p : Text) : FileResult Files := do
  let bare := p.dropRight (· == '/')
  let (place, name) ← fs.parentOf cwd (if bare.isEmpty then p else bare)
  if !isName name || (fs.node? (place ++ [name])).isSome then throw .exists
  return fs.create place name .dir

/-- Create a directory and those above it that are missing; `fuel` bounds their number. A
directory above that comes to exist meanwhile is no error. A refusal names the directory that
could not be created. -/
def makeDirsTo (fuel : Nat) (fs : Files) (cwd p : Text) :
    Files × Except (FileFault × Text) Unit :=
  match fuel with
  | 0 => (fs, .error (.missing, p))
  | fuel + 1 =>
    let (head, tail) := Path.split p
    let (head, tail) := if tail.isEmpty then Path.split head else (head, tail)
    let last (fs : Files) : Files × Except (FileFault × Text) Unit :=
      match fs.makeDir cwd p with
      | .ok fs => (fs, .ok ())
      | .error e => (fs, .error (e, p))
    if !head.isEmpty && !tail.isEmpty && !fs.has cwd head then
      match makeDirsTo fuel fs cwd head with
      | (fs, .ok ()) | (fs, .error (.exists, _)) => if tail == ['.'] then (fs, .ok ()) else last fs
      | (fs, .error e) => (fs, .error e)
    else last fs

/-- Create a directory and those above it that are missing. -/
def makeDirs (fs : Files) (cwd p : Text) : Files × Except (FileFault × Text) Unit :=
  makeDirsTo (p.length + 1) fs cwd p

/-- Put the directories above a place there, with time one, where they are missing. -/
def seedAbove (fs : Files) (place : List Text) : Files :=
  (List.range place.length).foldl (fun fs i =>
    let above := place.take i
    if (fs.node? above).isSome then fs else fs.put above (.dir (.ofInt 1))) fs

/-- Add a file with the directories above it. -/
def seed (fs : Files) (p : Text) (n : Node) : Files :=
  let place := Path.parts p
  (fs.seedAbove place).put place n

/-- Everything there is except the root and a directory, with its time. Paths below the directory
are seen from there, and those of directories end in a slash. -/
def listing (fs : Files) (dir : List Text) : List (Text × Time) :=
  fs.nodes.filterMap fun (place, n) =>
    let path : Text :=
      if dir.isPrefixOf place then Text.join ['/'] (place.drop dir.length)
      else '/' :: Text.join ['/'] place
    if place.isEmpty || place == dir then none
    else some (if n.isDir then path ++ ['/'] else path, n.mtime)

end Files

end Rebuild
