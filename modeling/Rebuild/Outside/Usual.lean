import Rebuild.Outside
/-!
# Usual programs

An outside to try makes in: a table says what command lines do, a few programs do what their
names say, and every other program does nothing. Its one library of native commands shows what a
command is given and tries every way in which one can end.
-/

namespace Rebuild

/-- What a command does: it cannot be found; or its exit code and output, and the files that it
touches, writes and removes, each in order. -/
structure Effect where
  missing : Bool
  exit : Int
  out : Text
  touch : List Text
  /-- Files that are written, in path order. -/
  write : List (Text × Text)
  remove : List Text
deriving Repr

namespace Effect

/-- What a command does if nothing is said about it. -/
def usual (program : Text) (args : List Text) : Effect :=
  let base : Effect := ⟨false, 0, [], [], [], []⟩
  if program == "touch" then { base with touch := args }
  else if program == "rm" then { base with remove := args }
  else if program == "false" then { base with exit := 1 }
  else base

/-- The command line by which the effect of a command is found: what a shell was given, else
all words. -/
def key (argv : List Text) : Text :=
  match argv with
  | [_, flag, line] => if flag == "-c" then line else Text.unwords argv
  | _ => Text.unwords argv

/-- What a command line does, given a table; one without words does nothing unless something is
said about it. -/
def ofTable (effects : List (Text × Effect)) (argv : List Text) :
    Except (Option FileFault) Effect :=
  match effects.lookup (key argv), argv with
  | some e, _ :: _ => if e.missing then .error (some .missing) else .ok e
  | some e, [] => if e.missing then .error none else .ok e
  | none, program :: args => .ok (usual program args)
  | none, [] => .error none

/-- The changes of files that a command makes in a directory. -/
def fileSteps (e : Effect) (cwd : Text) : List (Files → FileResult Files) :=
  e.touch.map (fun p fs => fs.touch cwd p) ++ e.write.map (fun p fs => fs.write cwd p.1 p.2)
    ++ e.remove.map (fun p fs => fs.unlink cwd p)

/-- Do file operations until one fails; tell whether none did. -/
def doFiles (fs : Files) : List (Files → FileResult Files) → Files × Bool
  | [] => (fs, true)
  | f :: rest =>
    match f fs with
    | .ok fs => doFiles fs rest
    | .error _ => (fs, false)

/-- How a command ends that has an effect; one whose changes fail has exit code one. -/
def ending (e : Effect) (cwd : Text) (fs : Files) : Ending :=
  let (fs, done) := doFiles fs (e.fileSteps cwd)
  ⟨if done then e.exit else 1, e.out, fs⟩

end Effect

namespace Native

/-- A number in four hexadecimal digits. -/
def hex4 (n : Nat) : Text :=
  let ds := Nat.toDigits 16 n
  Text.copies (4 - ds.length) '0' ++ ds

/-- A character between double quotes, in plain characters only. -/
def escapeChar (c : Char) : Text :=
  let n := c.toNat
  if c == '\x22' then ['\\', '\x22']
  else if c == '\\' then ['\\', '\\']
  else if c == '\n' then ['\\', 'n']
  else if c == '\r' then ['\\', 'r']
  else if c == '\t' then ['\\', 't']
  else if n == 8 then ['\\', 'b']
  else if n == 12 then ['\\', 'f']
  else if 32 ≤ n && n < 127 then [c]
  else if n < 0x10000 then "\\u" ++ hex4 n
  else
    let m := n - 0x10000
    "\\u" ++ hex4 (0xD800 + m / 1024) ++ "\\u" ++ hex4 (0xDC00 + m % 1024)

/-- A list of texts between brackets, each in double quotes and in plain characters only. -/
def plainList (ss : List Text) : Text :=
  ['['] ++ Text.join ", " (ss.map fun s => ['\x22'] ++ s.flatMap escapeChar ++ ['\x22']) ++ [']']

/-- The argument at a position. -/
def argument (args : List Text) (i : Nat) : Except Failure Text :=
  match args[i]? with
  | some a => .ok a
  | none => .error (.broken "list index out of range")

/-- The argument at a position as a whole number. -/
def number (args : List Text) (i : Nat) : Except Failure Int := do
  let a ← argument args i
  match a.readInt? with
  | some n => return n
  | none => throw (.broken ("invalid literal for int() with base 10: " ++ Text.quoted a))

/-- Touch files in turn, until one cannot be touched. -/
def touchAll (cwd : Text) (fs : Files) : List Text → Files × Except Failure Value
  | [] => (fs, .ok .nothing)
  | p :: rest =>
    match fs.touch cwd p with
    | .ok fs => touchAll cwd fs rest
    | .error e => (fs, .error (.broken (e.message p)))

/-- How a command of the library for trials ends, if there is one of the name. -/
def probe? (name : Text) (args : List Text) (env : Env) (cwd : Text) (fs : Files) :
    Option Ending :=
  let prints (lines : List Text) : Option Ending := some ⟨lines, fs, .ok .nothing⟩
  let gives (r : Except Failure Value) : Option Ending := some ⟨[], fs, r⟩
  if name == "ok" || name == "exitnone" then prints []
  else if name == "ret" then gives ((number args 0).map .int)
  else if name == "rets" then gives ((argument args 0).map .text)
  else if name == "exit" then gives do
    let n ← number args 0
    if n == 0 then return .nothing else throw (.broken (Text.ofInt n))
  else if name == "env" then prints (args.map fun n => n ++ ['='] ++ (env.get? n).getD "None")
  else if name == "cwd" then prints [cwd]
  else if name == "args" then prints [plainList args]
  else if name == "touch" then
    let (fs, r) := touchAll cwd fs args
    some ⟨[], fs, r⟩
  else if name == "raise_" then gives (.error (.broken (Text.unwords args)))
  else if name == "pyerr" then gives do
    let m ← argument args 0
    throw ⟨m, ← number args 1⟩
  else none

end Native

/-- Programs do what a table says, and the library for trials is the only one. -/
def Outside.usual (effects : List (Text × Effect)) : Outside where
  program _ call fs := (Effect.ofTable effects call.words).map (·.ending call.cwd fs)
  native _ call fs :=
    match call.words with
    | library :: name :: args =>
      if library == "vcmd" then some (Native.probe? name args call.env call.cwd fs) else none
    | _ => none

end Rebuild
