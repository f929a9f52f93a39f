/-!
# Text

Makefile text, names, paths and messages are lists of characters. This module holds the
operations on them that know nothing of any character class: searching, splitting, joining,
replacing, and writing numbers.
-/

namespace Rebuild

/-- Texts are lists of characters. -/
abbrev Text := List Char

/-- A string literal may stand where a text is wanted. -/
instance : Coe String Text := ⟨String.toList⟩

namespace Text

/-- Does a code point lie in one of the closed ranges? -/
def inRanges (ranges : List (Nat × Nat)) (c : Char) : Bool :=
  ranges.any fun r => r.1 ≤ c.toNat && c.toNat ≤ r.2

/-- Is the character in a run? The runs are given by their lengths: one outside, one inside, and so
on. -/
def inRuns (runs : List Nat) (c : Char) : Bool := go runs c.toNat
where
  /-- Is the code point, counted from the first run, in a run? -/
  go : List Nat → Nat → Bool
    | outside :: inside :: rest, n =>
      if n < outside + inside then decide (outside ≤ n) else go rest (n - (outside + inside))
    | _, _ => false

/-- Texts with a separator between them. -/
def join (sep : Text) : List Text → Text
  | [] => []
  | [s] => s
  | s :: rest => s ++ sep ++ join sep rest

/-- Words with a space between them. -/
def unwords (ws : List Text) : Text := join [' '] ws

/-- The pieces of a text between the characters that satisfy `p`, empty pieces included. -/
def splitBy (p : Char → Bool) : Text → List Text
  | [] => [[]]
  | c :: rest =>
    if p c then [] :: splitBy p rest
    else match splitBy p rest with
      | [] => [[c]]
      | s :: ss => (c :: s) :: ss

/-- The parts between separators. -/
def splitOn (s : Text) (sep : Char) : List Text := splitBy (· == sep) s

/-- The pieces between maximal runs of characters that satisfy `p`; a run at an end of the text
leaves an empty piece there. -/
def splitRuns (p : Char → Bool) : Text → List Text
  | [] => [[]]
  | c :: rest =>
    if p c then
      match rest with
      | [] => [[], []]
      | d :: _ => if p d then splitRuns p rest else [] :: splitRuns p rest
    else match splitRuns p rest with
      | [] => [[c]]
      | s :: ss => (c :: s) :: ss

/-- What stands before and after the first occurrence of a separator. -/
def cutFirst? (s sep : Text) : Option (Text × Text) :=
  match s with
  | [] => if sep.isEmpty then some ([], []) else none
  | c :: rest =>
    if sep.isPrefixOf (c :: rest) then some ([], (c :: rest).drop sep.length)
    else (cutFirst? rest sep).map fun p => (c :: p.1, p.2)

/-- What stands before and after the last occurrence of a separator. -/
def cutLast? (s sep : Text) : Option (Text × Text) :=
  match s with
  | [] => if sep.isEmpty then some ([], []) else none
  | c :: rest =>
    match cutLast? rest sep with
    | some p => some (c :: p.1, p.2)
    | none =>
      if sep.isPrefixOf (c :: rest) then some ([], (c :: rest).drop sep.length) else none

/-- The text before the first separator, the separator if it is there, and the rest. -/
def partition (s sep : Text) : Text × Text × Text :=
  match cutFirst? s sep with
  | some (a, b) => (a, sep, b)
  | none => (s, [], [])

/-- The text before the last separator, the separator if it is there, and the rest; a text
without the separator is all rest. -/
def partitionLast (s sep : Text) : Text × Text × Text :=
  match cutLast? s sep with
  | some (a, b) => (a, sep, b)
  | none => ([], [], s)

/-- Does a text begin with another? -/
def startsWith (s start : Text) : Bool := start.isPrefixOf s

/-- Does a text end with another? -/
def endsWith (s stop : Text) : Bool := stop.isSuffixOf s

/-- Does a text stand in another? -/
def hasPart (s part : Text) : Bool := (cutFirst? s part).isSome

/-- The text with every occurrence of the non-empty `old`, from the left, replaced. -/
def replaceParts (s old new : Text) : Text :=
  match s with
  | [] => []
  | c :: rest =>
    if old.isPrefixOf (c :: rest) then new ++ replaceParts (rest.drop (old.length - 1)) old new
    else c :: replaceParts rest old new
termination_by s.length
decreasing_by all_goals simp only [List.length_drop, List.length_cons]; omega

/-- The text with every occurrence of `old`, from the left, replaced by `new`; the empty text
occurs before every character and at the end. -/
def replace (s old new : Text) : Text :=
  if old.isEmpty then new ++ s.flatMap fun c => c :: new else replaceParts s old new

/-- Replace a character wherever it stands. -/
def replaceChar (s : Text) (old new : Char) : Text := s.map fun c => if c == old then new else c

/-- The text without the characters at its end that satisfy `p`. -/
def dropRight (s : Text) (p : Char → Bool) : Text := (s.reverse.dropWhile p).reverse

/-- A number in decimal digits. -/
def ofNat (n : Nat) : Text := Nat.toDigits 10 n

/-- An integer in decimal digits. -/
def ofInt : Int → Text
  | .ofNat n => ofNat n
  | .negSucc n => '-' :: ofNat (n + 1)

/-- A character some times. -/
def copies (n : Nat) (c : Char) : Text := List.replicate n c

/-- The code-point order on texts. -/
def le : Text → Text → Bool
  | [], _ => true
  | _ :: _, [] => false
  | a :: as, b :: bs => if a == b then le as bs else a.toNat < b.toNat

/-- Texts in order. -/
def sort (ws : List Text) : List Text := ws.mergeSort le

/-- A list without the repetitions of earlier members. -/
def nub {α : Type} [BEq α] (xs : List α) : List α :=
  (xs.foldl (fun acc x => if acc.contains x then acc else x :: acc) []).reverse

end Text

end Rebuild
