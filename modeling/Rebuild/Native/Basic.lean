import Rebuild.Native.Flags
import Rebuild.World
/-!
# Native commands

A few commands that recipes use often are carried out in the program itself: making and removing
directories and files, touching files, and waiting. They print nothing; a refusal is an error
with exit code one.
-/

namespace Rebuild

namespace Native

/-- A native command fails. -/
def refuse {α : Type} (message : Text) : WorldM α := throw (.native message 1)

/-- Read the flags of a native command. -/
def flags (name : Text) (f : Flags) (args : List Text) :
    WorldM (List Flags.Given × List Text) :=
  match f.read args with
  | .ok r => pure r
  | .error e => refuse (name ++ ": " ++ e.message)

/-- Change the files; a refusal is an error about the path. -/
def onFiles (path : Text) (f : Files → FileResult Files) : WorldM Unit := do
  let w ← getThe World
  match f w.files with
  | .ok fs => set { w with files := fs }
  | .error e => throw (.file e path)

/-- Is one of these flags given? -/
def isGiven (given : List Flags.Given) (names : List Text) : Bool :=
  given.any fun g => names.contains g.1

/-- Create directories; with `-p` also those above, and existing ones are no error. -/
def mkdir (cwd : Text) (args : List Text) : WorldM Unit := do
  let (given, paths) ← flags "mkdir" ⟨[('p', false)], ["parents"]⟩ args
  let parents := isGiven given ["p", "parents"]
  paths.forM fun p => do
    let w ← getThe World
    let (fs, outcome) := if parents then w.files.makeDirs cwd p else
      match w.files.makeDir cwd p with
      | .ok fs => (fs, .ok ())
      | .error e => (w.files, .error (e, p))
    set { w with files := fs }
    match outcome with
    | .ok () => pure ()
    | .error (e, failed) =>
      if parents && e == .exists then pure () else refuse ("mkdir: " ++ e.message failed)

/-- Remove files; with `-r` also directories, and with `-f` missing files and files that cannot
be removed are no error. -/
def rm (cwd : Text) (args : List Text) : WorldM Unit := do
  let known := ⟨[('r', false), ('R', false), ('f', false)], ["force", "recursive"]⟩
  let (given, paths) ← flags "rm" known args
  let force := isGiven given ["f", "force"]
  let recursive := isGiven given ["r", "R", "recursive"]
  paths.forM fun p => do
    let w ← getThe World
    if w.files.isDir cwd p then
      if recursive then onFiles p (·.removeTree cwd p)
      else refuse ("rm: cannot remove '" ++ p ++ "': Is a directory")
    else if w.files.has cwd p then
      match w.files.unlink cwd p with
      | .ok fs => set { w with files := fs }
      | .error _ =>
        if force then pure ()
        else refuse ("rm: failed to remove '" ++ p ++ "': <class 'PermissionError'>")
    else if force then pure ()
    else refuse ("rm: cannot remove '" ++ p ++ "': No such file or directory")

/-- Is the text a date: month, day, hour and minute, after a year of two or four digits or none,
and before seconds or none? A newline may follow. -/
def isDate (s : Text) : Bool :=
  let s := if s.getLast? == some '\n' then s.dropLast else s
  let isDigit (c : Char) : Bool := (Text.digitValue? c).isSome
  let digits := s.takeWhile isDigit
  let rest := s.dropWhile isDigit
  [8, 10, 12].contains digits.length &&
    match rest with
    | [] => true
    | ['.', a, b] => isDigit a && isDigit b
    | _ => false

/-- Touch files. A date can be given and is never accepted: its fields do not make a time. -/
def touch (cwd : Text) (args : List Text) : WorldM Unit := do
  let (given, paths) ← flags "touch" ⟨[('t', true)], []⟩ args
  match (given.filter (·.1 == ['t'])).getLast? with
  | some (_, date) =>
    if isDate date then throw (.breach .shape)
    else refuse ("touch: invalid date format '" ++ date ++ "'")
  | none => pure ()
  paths.forM fun p => do
    if !(← getThe World).files.has cwd p then onFiles p (·.ensure cwd p)
    onFiles p (·.stamp cwd p)

/-- The seconds of a unit of time. -/
def unitSeconds : Char → Option Nat
  | 's' => some 1
  | 'm' => some 60
  | 'h' => some 3600
  | 'd' => some 86400
  | _ => none

/-- Wait as long as the arguments say. -/
def sleep (args : List Text) : WorldM Unit := do
  let total ← args.foldlM (fun total a => do
    let (number, unit) : Text × Nat := match a.getLast?.bind unitSeconds with
      | some n => (a.dropLast, n)
      | none => (a, 1)
    match Binary.read? number with
    | some f => return Binary.add total (f.mulNat unit)
    | none => refuse ("sleep: invalid time interval '" ++ number ++ "'"))
    (Binary.ofDecimal false 0 0)
  modify fun w => w.note (.sleep total.text)

end Native

end Rebuild
