import Rebuild.Error
import Rebuild.Text.Blank
/-!
# Logical lines

A logical line is a stretch of a source that continuations hold together: a newline ends it
exactly when an even number of backslashes stands before the newline. A line knows its offset
in the source and the location of its first character, so that every offset in it has a
location.
-/

namespace Rebuild

/-- A logical line of a source. -/
structure Line where
  text : Text
  start : Nat
  loc : Location
deriving DecidableEq, Repr

namespace Line

/-- A text as a single line. -/
def ofText (s path : Text) : Line := ⟨s, 0, ⟨path, 1, 0⟩⟩

/-- The offset after the line. -/
def stop (d : Line) : Nat := d.start + d.text.length

/-- What follows an offset. -/
def rest (d : Line) (offset : Nat) : Text := d.text.drop (offset - d.start)

/-- The character at an offset. -/
def char? (d : Line) (offset : Nat) : Option Char := (d.rest offset).head?

/-- Does the offset lie in the line or at its end? -/
def covers (d : Line) (offset : Nat) : Bool := d.start ≤ offset && offset ≤ d.stop

/-- The location of an offset. -/
def locAt (d : Line) (offset : Nat) : Location := d.loc.advance (d.text.take (offset - d.start))

/-- The location of an offset, which must lie in the line. -/
def locAt? (d : Line) (offset : Nat) : Except Error Location :=
  if d.covers offset then .ok (d.locAt offset) else .error (.breach .assertion)

/-- The offset of the first character from `offset` on that is not blank, or the end. -/
def skipBlanks (d : Line) (offset : Nat) : Nat :=
  min d.stop (offset + ((d.rest offset).takeWhile Text.isBlank).length)

/-- The pieces of a text between the newlines that end a logical line; `odd` tells whether an
odd number of backslashes stands directly before the text. -/
def pieces (odd : Bool) : Text → List Text
  | [] => [[]]
  | c :: s =>
    if c == '\n' && !odd then [] :: pieces false s
    else match pieces (c == '\\' && !odd) s with
      | [] => [[c]]
      | p :: ps => (c :: p) :: ps

/-- Pieces as lines, the first of which starts at the given offset and line number. -/
def place (path : Text) (start line : Nat) : List Text → List Line
  | [] => []
  | p :: ps =>
    ⟨p, start, ⟨path, line, 0⟩⟩ :: place path (start + p.length + 1) (line + p.count '\n' + 1) ps

/-- The lines of a file. -/
def lines (s path : Text) : List Line := place path 0 1 (pieces false s)

end Line

end Rebuild
