import Rebuild.Line.Basic
/-!
# Flattening

Makefile text is flattened in two ways. A continuation, that is a backslash and a newline with
the blanks around them, becomes one space; an even number of further backslashes before it is
halved and kept. A hash sign that an even number of backslashes precedes begins a comment; an
odd number quotes it. Both rules halve the backslashes they look at.
-/

namespace Rebuild

namespace Line

/-- The continuation at the start of a text: how many backslashes it keeps, and what follows. -/
def continuation? (s : Text) : Option (Nat × Text) :=
  match s.dropWhile Text.isBlank with
  | '\\' :: '\n' :: after => some (0, Text.trimLeft after)
  | _ =>
    let slashes := (s.takeWhile (· == '\\')).length
    match s.drop slashes with
    | '\n' :: after =>
      if slashes % 2 = 1 then some (slashes / 2, Text.trimLeft after) else none
    | _ => none

theorem length_dropWhile_le {α : Type} (p : α → Bool) (l : List α) :
    (l.dropWhile p).length ≤ l.length := (List.dropWhile_suffix p).length_le

/-- What follows a continuation is shorter than the text. -/
theorem length_lt_of_continuation? {s after : Text} {n : Nat}
    (h : continuation? s = some (n, after)) : after.length < s.length := by
  unfold continuation? at h
  split at h
  · rename_i rest heq
    cases h
    have h1 := length_dropWhile_le Text.isBlank s
    have h2 := length_dropWhile_le Text.isBlank rest
    rw [heq] at h1
    simp only [List.length_cons] at h1
    simp only [Text.trimLeft]
    omega
  · dsimp only at h
    split at h
    · rename_i rest heq
      split at h
      · cases h
        have h1 : (s.drop (s.takeWhile (· == '\\')).length).length ≤ s.length := by simp
        have h2 := length_dropWhile_le Text.isBlank rest
        rw [heq] at h1
        simp only [List.length_cons] at h1
        simp only [Text.trimLeft]
        omega
      · exact absurd h (by simp)
    · exact absurd h (by simp)

/-- The text with every continuation, from the left, replaced by one space. -/
def condense (s : Text) : Text :=
  match s with
  | [] => []
  | c :: rest =>
    match _h : continuation? (c :: rest) with
    | some (n, after) => Text.copies n '\\' ++ ' ' :: condense after
    | none => c :: condense rest
termination_by s.length
decreasing_by
  · exact length_lt_of_continuation? _h
  · simp

/-- The text up to its comment, with quoted hash signs unquoted. -/
def uncomment (s : Text) : Text :=
  match s with
  | [] => []
  | '#' :: _ => []
  | '\\' :: rest =>
    let slashes := 1 + (rest.takeWhile (· == '\\')).length
    match _h : rest.dropWhile (· == '\\') with
    | '#' :: after =>
      if slashes % 2 = 0 then Text.copies (slashes / 2) '\\'
      else Text.copies (slashes / 2) '\\' ++ '#' :: uncomment after
    | after => Text.copies slashes '\\' ++ uncomment after
  | c :: rest => c :: uncomment rest
termination_by s.length
decreasing_by
  · have := length_dropWhile_le (· == '\\') rest
    rw [_h, List.length_cons] at this
    rw [List.length_cons]
    omega
  · have := length_dropWhile_le (· == '\\') rest
    rw [_h] at this
    rw [List.length_cons]
    omega
  · simp

/-- The text of a line from an offset on, with continuations condensed and without comment. -/
def flatten (d : Line) (offset : Nat) : Text := uncomment (condense (d.rest offset))

/-- The rest of a line as data, which must be in the line. -/
def flatten? (d : Line) (offset : Nat) : Except Error Text :=
  if d.covers offset then .ok (d.flatten offset) else .error (.breach .assertion)

/-- The text of a recipe stretch: a tab after a newline is dropped. -/
def untab : Text → Text
  | [] => []
  | '\n' :: '\t' :: rest => '\n' :: untab rest
  | c :: rest => c :: untab rest

end Line

end Rebuild
