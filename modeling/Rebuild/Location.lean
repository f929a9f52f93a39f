import Rebuild.Text.Basic
/-!
# Locations

A location names a place in a source by path, line and column. Lines count from one, columns
from zero, and a tab reaches to the next multiple of four columns.
-/

namespace Rebuild

/-- A place in a file. -/
structure Location where
  /-- The file, or what else the text came from. -/
  path : Text
  line : Nat
  /-- The column, counted from zero, with tabs expanded. -/
  column : Nat
deriving DecidableEq, Repr

namespace Location

/-- The distance of tab stops. -/
def tabWidth : Nat := 4

/-- The tab stop after a column. -/
def nextStop (column : Nat) : Nat := column + tabWidth - column % tabWidth

/-- The column reached from `column` by pieces of text with a tab between each two. -/
def columnAfter (column : Nat) : List Text → Nat
  | [] => column
  | [piece] => column + piece.length
  | piece :: rest => columnAfter (nextStop (column + piece.length)) rest

/-- What stands after the last newline. -/
def lastRow (s : Text) : Text := (s.reverse.takeWhile (· != '\n')).reverse

/-- The location after a text. -/
def advance (loc : Location) (s : Text) : Location :=
  if s.contains '\n' then
    { loc with line := loc.line + s.count '\n', column := columnAfter 0 ((lastRow s).splitOn '\t') }
  else
    { loc with column := columnAfter loc.column (s.splitOn '\t') }

/-- The location as it is told. -/
def text (loc : Location) : Text :=
  loc.path ++ [':'] ++ Text.ofNat loc.line ++ [':'] ++ Text.ofNat loc.column

/-- The start of a text that itself stands at `loc`. -/
def inner (loc : Location) : Location := ⟨loc.text, 1, 0⟩

/-- A location that may be missing, as messages show it. -/
def optionText : Option Location → Text
  | some loc => loc.text
  | none => "None"

end Location

end Rebuild
