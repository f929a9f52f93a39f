import Rebuild.Statement.Basic
import Rebuild.Text.WordChar
/-!
# Dependency files

A file that lists only dependencies is read line by line. A line that ends in backslashes goes
on with the next line that is not blank. Each line is a rule, split at its first colon that no
slash or backslash follows; the only references are to variables named by word characters.
-/

namespace Rebuild

namespace DepFile

/-- The lines of a file as its reader sees them, with continued lines put together. `current`
holds the beginning of a continued line. -/
def joinLines (current : Option Text) : List Text → List Text
  | [] => current.toList
  | line :: rest =>
    let line := Text.trimRight line
    if line.endsWith ['\\'] then
      joinLines (some (current.getD [] ++ line.dropRight (· == '\\'))) rest
    else if line.isEmpty then joinLines current rest
    else (current.getD [] ++ line) :: joinLines none rest

/-- What stands before and after the first colon that divides a rule. -/
def cutColon? : Text → Option (Text × Text)
  | [] => none
  | c :: rest =>
    let divides := match rest with
      | '\\' :: _ => false
      | '/' :: _ => false
      | _ => true
    if c == ':' && divides then some ([], rest)
    else (cutColon? rest).map fun p => (c :: p.1, p.2)

/-- The simple reference at the start of a text: the name, and what follows. -/
def reference? : Text → Option (Text × Text)
  | '$' :: '(' :: rest =>
    let name := rest.takeWhile Text.isWordChar
    match rest.drop name.length with
    | ')' :: after => if name.isEmpty then none else some (name, after)
    | _ => none
  | _ => none

theorem length_lt_of_reference? {s name after : Text} (h : reference? s = some (name, after)) :
    after.length < s.length := by
  unfold reference? at h
  split at h
  · rename_i rest
    dsimp only at h
    split at h
    · rename_i heq
      split at h
      · cases h
      · cases h
        have h1 : (rest.drop (rest.takeWhile Text.isWordChar).length).length ≤ rest.length := by
          simp
        rw [heq] at h1
        simp only [List.length_cons] at h1 ⊢
        omega
    · cases h
  · cases h

/-- The items of a text. -/
def items (s : Text) : List Item :=
  match s with
  | [] => []
  | c :: rest =>
    match _h : reference? (c :: rest) with
    | some (name, after) => .ref (.variable none (.literal name none)) :: items after
    | none =>
      match items rest with
      | .text t :: more => .text (c :: t) :: more
      | more => .text [c] :: more
termination_by s.length
decreasing_by
  · exact length_lt_of_reference? _h
  · simp

/-- One side of a rule. -/
def side (s : Text) : Expansion :=
  if s.contains '$' then .sequence (items s) none else .literal s none

/-- Read a rule. -/
def rule (line : Text) : Except Error Statement :=
  match cutColon? line with
  | some (targets, deps) => .ok (.rule (side targets) (side deps) false)
  | none => .error (.breach .value)

/-- The lines of a file. -/
def fileLines (s : Text) : List Text := s.splitOn '\n'

/-- Read a file of dependencies, whose line ends were made newlines (`Files.read`). -/
def parse (s : Text) : Except Error (List Statement) := (joinLines none (fileLines s)).mapM rule

end DepFile

end Rebuild
