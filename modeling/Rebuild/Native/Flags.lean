import Rebuild.Text.Basic
/-!
# Flags of native commands

A native command takes short flags, which may be written together, and long flags, which may be
shortened as long as only one fits. Flags end at the first word that is none, or at `--`.
-/

namespace Rebuild

/-- The flags that a native command takes. -/
structure Flags where
  /-- Short flags, with whether they take a value. -/
  shorts : List (Char × Bool)
  /-- Long flags, none of which takes a value. -/
  longs : List Text

/-- What is wrong with a flag. -/
inductive FlagFault where
  | unknownShort (c : Char)
  | unknownLong (name : Text)
  | ambiguous (name : Text)
  | noValue (c : Char)
  | extraValue (name : Text)
deriving DecidableEq, Repr

/-- What is wrong, as it is told. -/
def FlagFault.message : FlagFault → Text
  | .unknownShort c => "option -" ++ [c] ++ " not recognized"
  | .unknownLong n => "option --" ++ n ++ " not recognized"
  | .ambiguous n => "option --" ++ n ++ " not a unique prefix"
  | .noValue c => "option -" ++ [c] ++ " requires argument"
  | .extraValue n => "option --" ++ n ++ " must not have an argument"

namespace Flags

/-- A flag that was given, without dashes, with its value. -/
abbrev Given := Text × Text

/-- The long flag meant by a text that may be shortened. -/
def long? (f : Flags) (name : Text) : Except FlagFault Text :=
  match f.longs.filter (·.startsWith name) with
  | [] => .error (.unknownLong name)
  | [one] => .ok one
  | fits => if fits.contains name then .ok name else .error (.ambiguous name)

/-- Read a long flag. -/
def readLong (f : Flags) (word : Text) : Except FlagFault Given := do
  let (name, sign, _) := word.partition ['=']
  let name ← f.long? name
  if sign.isEmpty then return (name, []) else throw (.extraValue name)

/-- The short flags of a word, and the words after it and after the value of the last flag. -/
def readShorts (f : Flags) : Text → List Text → Except FlagFault (List Given × List Text)
  | [], rest => .ok ([], rest)
  | c :: more, rest =>
    match f.shorts.lookup c with
    | none => .error (.unknownShort c)
    | some false => do
      let (given, rest) ← readShorts f more rest
      return (([c], []) :: given, rest)
    | some true =>
      match more, rest with
      | [], [] => .error (.noValue c)
      | [], value :: rest => .ok ([([c], value)], rest)
      | value, rest => .ok ([([c], value)], rest)

/-- The flags at the front of a list of words and the words left; `fuel` bounds the words. -/
def readTo (fuel : Nat) (f : Flags) : List Text → Except FlagFault (List Given × List Text)
  | [] => .ok ([], [])
  | word :: rest =>
    match fuel, word with
    | _ + 1, '-' :: '-' :: [] => .ok ([], rest)
    | fuel + 1, '-' :: '-' :: name => do
      let one ← f.readLong name
      let (given, rest) ← readTo fuel f rest
      return (one :: given, rest)
    | fuel + 1, '-' :: c :: more => do
      let (short, rest) ← f.readShorts (c :: more) rest
      let (given, rest) ← readTo fuel f rest
      return (short ++ given, rest)
    | _, _ => .ok ([], word :: rest)

/-- Read the flags before the other arguments. -/
def read (f : Flags) (words : List Text) : Except FlagFault (List Given × List Text) :=
  readTo (words.length + 1) f words

end Flags

end Rebuild
