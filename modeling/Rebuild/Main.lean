import Rebuild.Build.Run
/-!
# The command line

`main` takes the files below the current directory as they are, makes in that copy, and tells
what was done: what was printed, and the commands in the order in which they were started. No
command is run and no file is changed: a command does in the copy what `Effect.usual` tells of
it. The exit code is that of the make.
-/

namespace Rebuild

namespace Plan

/-- How deep directories are read. -/
def depth : Nat := 64

/-- The variables of the environment that a make is given. -/
def inherited : List String :=
  ["HOME", "MAKEFILES", "MAKEFLAGS", "MAKELEVEL", "MAKEOVERRIDES", "PATH", "SHELL", "USER"]

/-- The time of a file. -/
def timeOf (m : IO.FS.Metadata) : Time :=
  ⟨m.modified.sec * 1000 + m.modified.nsec.toNat / 1000000, 3⟩

/-- The later of two times. -/
def latest (s t : Time) : Time := if s.millis < t.millis then t else s

/-- The tree with its clock at the time of its latest file. -/
def settle (fs : Files) : Files :=
  { fs with clock := fs.nodes.foldl (fun t n => latest t n.2.mtime) fs.clock }

/-- The file of an entry; one that is not text counts as empty. -/
def readFile (e : IO.FS.DirEntry) : IO Text := do
  try return (← IO.FS.readFile e.path).toList
  catch _ => return []

/-- Add the entries of a directory, and what is below them, to a tree. -/
def readTree (fuel : Nat) (fs : Files) (entries : Array IO.FS.DirEntry) : IO Files :=
  match fuel with
  | 0 => return fs
  | fuel + 1 =>
    entries.foldlM (fun fs e => do
      let path := e.path.toString.toList
      let time := timeOf (← e.path.metadata)
      if ← e.path.isDir then readTree fuel (fs.seed path (.dir time)) (← e.path.readDir)
      else return fs.seed path (.file time (← readFile e) false)) fs

/-- The environment that is passed on. -/
def environment : IO Env :=
  inherited.filterMapM fun name => do
    return (← IO.getEnv name).map fun value => (name.toList, value.toList)

/-- Print what happens. -/
def tell : Event → IO Unit
  | .out line => IO.println (String.ofList line)
  | .err line => IO.eprintln (String.ofList line)
  | .run argv .. => IO.println (String.ofList (Text.unwords argv))
  | .native words .. => IO.println (String.ofList (Text.unwords words))
  | _ => return

/-- The exit code of a run; a failure outside of the makefiles is told. -/
def exitCode : Option Outcome → IO UInt32
  | some (.exit code) => return (code % 256).toNat.toUInt32
  | some (.error e) => do
    IO.eprintln (String.ofList e.message)
    return 1
  | none => return 1

/-- Make in a copy of the current directory and tell what was done. -/
def run (args : List String) : IO UInt32 := do
  let here ← IO.currentDir
  let cwd := here.toString.toList
  let env ← environment
  let start := (Files.empty (.ofInt 1)).seed cwd (.dir (.ofInt 1))
  let files := settle (← readTree depth start (← here.readDir))
  let done := Run.make (World.fresh files cwd env []) (args.map (·.toList)) env cwd
  done.world.trace.reverse.forM tell
  exitCode done.outcome

end Plan

end Rebuild

/-- Print what a make would do in the current directory. -/
def main (args : List String) : IO UInt32 := Rebuild.Plan.run args
