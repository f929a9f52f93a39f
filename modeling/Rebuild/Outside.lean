import Rebuild.Files
/-!
# What is outside of the program

A make starts programs, and native commands of libraries that are not its own. What these do is
not part of it: it is given by a value of `Outside` and may depend on the files and on
everything that was done before.
-/

namespace Rebuild

/-- The variables of an environment with their values. -/
abbrev Env := List (Text × Text)

namespace Env

/-- The value of a variable, if there is one. -/
def get? (e : Env) (name : Text) : Option Text := e.lookup name

/-- Is there such a variable? -/
def has (e : Env) (name : Text) : Bool := (e.get? name).isSome

/-- Give a variable a value; a new one comes last. -/
def set (e : Env) (name value : Text) : Env :=
  if e.has name then e.map fun p => if p.1 == name then (name, value) else p
  else e ++ [(name, value)]

/-- The environment without a variable. -/
def erase (e : Env) (name : Text) : Env := e.filter fun p => p.1 != name

/-- What a second environment changes in a first: new values, and none for variables that it has
not. -/
def changes (e new : Env) : List (Text × Option Text) :=
  (new.filter fun p => e.get? p.1 != some p.2).map (fun p => (p.1, some p.2))
    ++ (e.filter fun p => !new.has p.1).map fun p => (p.1, none)

end Env

/-- Something that was done and can be seen from outside. -/
inductive Event where
  | out (line : Text)
  | err (line : Text)
  | log (line file : Text)
  /-- A process; `pipe` tells that its output was read. -/
  | run (argv : List Text) (cwd : Text) (env : Env) (executable : Option Text) (pipe : Bool)
  | native (words : List Text) (cwd : Text) (env : Env)
  /-- A directory added to the search path of native commands. -/
  | siteDir (path : Text)
  | sleep (seconds : Text)
  /-- A mark that a user of the event loop sets. -/
  | mark (label : Text)
deriving Repr

/-- What is started: its words, its environment and its directory. -/
structure Outside.Call where
  words : List Text
  env : Env
  cwd : Text

/-- How a program ended: its exit code, its output and the files then. -/
structure Ending where
  exit : Int
  out : Text
  files : Files

namespace Native

/-- What a native command gives back. -/
inductive Value where
  | nothing
  | int (n : Int)
  | text (s : Text)
deriving DecidableEq, Repr

/-- How a native command failed: its words and the exit code of the job. -/
structure Failure where
  message : Text
  code : Int
deriving DecidableEq, Repr

/-- Failing with the usual code of a broken command. -/
def Failure.broken (message : Text) : Failure := ⟨message, -127⟩

/-- How a native command of another library ended: what it printed, the files then, and what it
gave back. -/
structure Ending where
  printed : List Text
  files : Files
  result : Except Failure Value

end Native

/-- What is done outside of the program when something is started, given all that was done
before, the latest first, and the files. -/
structure Outside where
  /-- A program ends, or cannot be started for a fault, or for want of words. -/
  program : List Event → Outside.Call → Files → Except (Option FileFault) Ending
  /-- A native command ends; or there is no such library, or no such command in it. -/
  native : List Event → Outside.Call → Files → Option (Option Native.Ending)

end Rebuild
