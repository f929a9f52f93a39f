import Rebuild.Text.Basic
/-!
# Blank characters

The characters that separate words: the white space of Unicode together with the four
information separators U+001C to U+001F. Every rule of the language that speaks of blanks
(word splitting, trimming, the space after a directive) reads this one table.
-/

namespace Rebuild

namespace Text

/-- The blanks, by their code points. -/
def blankRanges : List (Nat × Nat) :=
  [(0x9, 0xD), (0x1C, 0x20), (0x85, 0x85), (0xA0, 0xA0), (0x1680, 0x1680), (0x2000, 0x200A),
   (0x2028, 0x2029), (0x202F, 0x202F), (0x205F, 0x205F), (0x3000, 0x3000)]

/-- Is a character a blank? -/
def isBlank (c : Char) : Bool := inRanges blankRanges c

/-- The text without blanks at its start. -/
def trimLeft (s : Text) : Text := s.dropWhile isBlank

/-- The text without blanks at its end. -/
def trimRight (s : Text) : Text := s.dropRight isBlank

/-- The text without blanks at its ends. -/
def trim (s : Text) : Text := trimRight (trimLeft s)

/-- Is there a character that is no blank? -/
def hasInk (s : Text) : Bool := s.any (fun c => !isBlank c)

/-- The words of a text: its maximal runs of characters that are not blank. -/
def words : Text → List Text
  | [] => []
  | c :: rest =>
    if isBlank c then words rest
    else match rest with
      | [] => [[c]]
      | d :: _ =>
        if isBlank d then [c] :: words rest
        else match words rest with
          | [] => [[c]]
          | w :: ws => (c :: w) :: ws

end Text

end Rebuild
