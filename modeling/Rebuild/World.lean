import Rebuild.Cache
import Rebuild.Outside.Usual
import Rebuild.Statement.Basic
/-!
# The world around a make

A make reads and changes files, prints, logs and starts processes. The world holds what these
show: a tree of files, the environment of the program, what is outside of it, and the trace of
everything that was done. Makefiles that were read are remembered with the time of their file.
-/

namespace Rebuild

/-- How much a remark matters. -/
inductive Level where
  | debug
  | info
  | warning
deriving DecidableEq, Repr

namespace Level

/-- The number of a level. -/
def rank : Level → Nat
  | .debug => 0
  | .info => 1
  | .warning => 2

/-- The name of a level. -/
def name : Level → Text
  | .debug => "DEBUG"
  | .info => "INFO"
  | .warning => "WARNING"

end Level

/-- Where the log goes. -/
inductive Logging where
  /-- Warnings only, as they are, to standard error. -/
  | bare
  /-- From a level on, with level and subject, to standard error or to a file. -/
  | configured (level : Level) (file : Option Text)
deriving DecidableEq, Repr

/-- What a line of the log is about. -/
inductive Subject where
  | data
  | parser
  | process
  | execution
deriving DecidableEq, Repr

/-- The name of a subject. -/
def Subject.name : Subject → Text
  | .data => "pymake.data"
  | .parser => "pymake.parser"
  | .process => "pymake.process"
  | .execution => "pymake.execution"

/-- A makefile that was read, with the time of its file. -/
structure ReadFile where
  statements : List Statement
  mtime : Time

/-- Everything outside of the makes themselves. -/
structure World where
  files : Files
  cwd : Text
  environ : Env
  outside : Outside
  logging : Logging
  /-- What was done, the latest first. -/
  trace : List Event
  parsed : Cache ReadFile

/-- Computations that act on the world; what was done before a failure stays. -/
abbrev WorldM := ExceptT Error (StateM World)

namespace World

/-- A world in which nothing was done yet, with the usual programs. -/
def fresh (files : Files) (cwd : Text) (environ : Env) (effects : List (Text × Effect)) : World :=
  ⟨files, cwd, environ, .usual effects, .bare, [], .empty 50⟩

/-- Note an event. -/
def note (w : World) (e : Event) : World := { w with trace := e :: w.trace }

/-- Note an event for each line. -/
def noteLines (w : World) (f : Text → Event) (s : Text) : World :=
  (s.splitOn '\n').foldl (fun w l => w.note (f l)) w

/-- Print to standard output. -/
def print (w : World) (s : Text) : World := w.noteLines .out s

/-- Print to standard error. -/
def printErr (w : World) (s : Text) : World := w.noteLines .err s

/-- Write to the log. -/
def log (w : World) (level : Level) (subject : Subject) (message : Text) : World :=
  match w.logging with
  | .bare => if level.rank < Level.warning.rank then w else w.printErr message
  | .configured least file =>
    if level.rank < least.rank then w
    else
      let line := level.name ++ [':'] ++ subject.name ++ [':'] ++ message
      match file with
      | none => w.printErr line
      | some f => w.noteLines (fun l => .log l f) line

/-- Start a process and let it end: its exit code and output. -/
def spawn (w : World) (argv : List Text) (executable : Option Text) (env : Env) (cwd : Text)
    (pipe : Bool) : World × Except Error (Int × Text) :=
  let w := w.note (.run argv cwd env executable pipe)
  match w.outside.program w.trace ⟨argv, env, cwd⟩ w.files with
  | .error (some f) => (w, .error (.file f (argv.headD [])))
  | .error none => (w, .error (.breach .index))
  | .ok e => ({ w with files := e.files }, .ok (e.exit, e.out))

end World

end Rebuild
