import Rebuild.Text.Basic
/-!
# Flavours, origins and assignment marks

A variable has a flavour, which says when its value is expanded, and an origin, which says who
set it. Origins are ranked: an assignment of a higher rank number does not replace one of a
lower.
-/

namespace Rebuild

/-- When the value of a variable is expanded. -/
inductive Flavor where
  | recursive
  | simple
  /-- Each time it is used, after the value of the outer scope. -/
  | append
deriving DecidableEq, Repr

/-- The number of a flavour. -/
def Flavor.rank : Flavor → Nat
  | .recursive => 0
  | .simple => 1
  | .append => 2

/-- The flavour of a number. -/
def Flavor.ofRank? (n : Int) : Option Flavor :=
  [Flavor.recursive, .simple, .append].find? fun f => (f.rank : Int) == n

/-- Where a variable comes from. -/
inductive Origin where
  | override
  | commandLine
  | makefile
  | environment
  | automatic
  | implicit
deriving DecidableEq, Repr

namespace Origin

/-- The number of an origin; a lower one prevails. -/
def rank : Origin → Nat
  | .override => 0
  | .commandLine => 1
  | .makefile => 2
  | .environment => 3
  | .automatic => 4
  | .implicit => 5

/-- The origin of a number. -/
def ofRank? (n : Int) : Option Origin :=
  [Origin.override, .commandLine, .makefile, .environment, .automatic, .implicit].find? fun o =>
    (o.rank : Int) == n

/-- The name that the `origin` function gives. -/
def name : Origin → Text
  | .override => "override"
  | .commandLine => "command line"
  | .makefile => "file"
  | .environment => "environment"
  | .automatic => "automatic"
  | .implicit => "default"

end Origin

/-- The signs of assignments. -/
inductive AssignMark where
  /-- `=` -/
  | recursive
  /-- `:=` -/
  | simple
  /-- `+=` -/
  | append
  /-- `?=` -/
  | unlessSet
deriving DecidableEq, Repr

namespace AssignMark

/-- A sign as it is written. -/
def text : AssignMark → Text
  | .recursive => ['=']
  | .simple => [':', '=']
  | .append => ['+', '=']
  | .unlessSet => ['?', '=']

/-- All signs, longer ones first. -/
def all : List AssignMark := [.simple, .append, .unlessSet, .recursive]

/-- The sign that is written so. -/
def ofText? (s : Text) : Option AssignMark := all.find? fun m => m.text == s

/-- All signs as they are written. -/
def texts : List Text := all.map text

end AssignMark

end Rebuild
