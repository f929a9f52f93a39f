import Rebuild.Path
import Rebuild.Statement.Basic
/-!
# Command-line arguments

An argument with an equals sign is an assignment, which is exported and passed on to makes that
this make starts; any other argument is a goal.
-/

namespace Rebuild

/-- What the words of a command line ask for. -/
structure Arguments where
  statements : List Statement
  goals : List Text
  /-- The assignments, escaped so that they can be passed on in one text. -/
  overrides : Text

namespace Arguments

/-- An argument with a backslash before every blank and backslash. -/
def escape (s : Text) : Text :=
  s.flatMap fun c => if Text.isBlank c || c == '\\' then ['\\', c] else [c]

/-- The name, mark and value of an argument that is an assignment. -/
def assignment? (a : Text) : Option (Text × AssignMark × Text) :=
  match a.cutFirst? [':', '='] with
  | some (name, value) => some (name, .simple, value)
  | none =>
    match a.cutFirst? ['='] with
    | some (name, value) => some (name, .recursive, value)
    | none => none

/-- The statements of the `i`-th argument, if it is an assignment. -/
def assign (i : Nat) (name : Text) (mark : AssignMark) (value : Text) : List Statement :=
  let name := Text.trim name
  let e := Expansion.ofWord name "Command-line argument"
  [.exports e true,
   .assign ⟨e, mark, value, ⟨"<command-line>", i, name.length + mark.text.length⟩, none,
     .commandLine⟩]

/-- The statements, goals and escaped assignments of arguments from the `i`-th on. -/
def collect (i : Nat) : List Text → List Statement × List Text × List Text
  | [] => ([], [], [])
  | a :: rest =>
    let (ss, goals, overrides) := collect (i + 1) rest
    match assignment? a with
    | some (name, mark, value) => (assign i name mark value ++ ss, goals, escape a :: overrides)
    | none => (ss, Path.stripDotSlash a :: goals, overrides)

/-- Read the words after the options. -/
def parse (args : List Text) : Arguments :=
  let (ss, goals, overrides) := collect 0 args
  ⟨ss, goals, Text.unwords overrides⟩

end Arguments

end Rebuild
