import Rebuild.Builtin
import Rebuild.Path
import Rebuild.Pattern
import Rebuild.Text.Digit
/-!
# Functions of texts

The built-in functions that compute a text from the texts of their arguments alone. Most work on
the words of the last argument. A pattern or number among the other arguments is read before the
last argument is looked at, so that its errors come first.
-/

namespace Rebuild

namespace Function

/-- The words that match one of the patterns with something in place of the stem. -/
def filter (ps : List Pattern) (ws : List Text) : List Text :=
  ws.filter fun w => ps.any (·.matchesInk w)

/-- The words that fit none of the patterns. -/
def filterOut (ps : List Pattern) (ws : List Text) : List Text :=
  ws.filter fun w => !ps.any (·.matchesInk w)

/-- The words in order, each once. -/
def sort (ws : List Text) : List Text := Text.sort (Text.nub ws)

/-- The word of a number, counted from one; empty if there is none. -/
def word (n : Int) (ws : List Text) : Text :=
  if n < 1 then [] else ws.getD (n.toNat - 1) []

/-- The words from one number to another; numbers below one count as one. -/
def wordlist (first last : Int) (ws : List Text) : List Text :=
  (ws.take (max last 1).toNat).drop ((max first 1).toNat - 1)

/-- Two lists joined word by word; the longer one goes on alone. -/
def join : List Text → List Text → List Text
  | a :: as, b :: bs => (a ++ b) :: join as bs
  | [], bs => bs
  | as, [] => as

/-- Replace words that fit a pattern. -/
def patsubst (p : Pattern) (replacement : Text) (ws : List Text) : Except Error (List Text) :=
  ws.mapM (p.subst replacement)

/-- The pattern of a substitution reference and its replacement: without a percent sign they are
ends of words. -/
def suffixPattern (old new : Text) : Except Error (Pattern × Text) := do
  let p ← Pattern.parse old
  if p.isPattern then return (p, new) else return (← Pattern.parse ('%' :: old), '%' :: new)

/-- Read a number. -/
def number (s : Text) : Except Error Int :=
  match s.readInt? with
  | some n => .ok n
  | none => .error (.breach .value)

end Function

namespace Builtin

/-- Change each word. -/
def wordwise (f : Text → Text) : Text → Except Error Text :=
  fun s => .ok (Text.unwords (s.words.map f))

/-- Change the list of words. -/
def ofWords (f : List Text → List Text) : Text → Except Error Text :=
  fun s => .ok (Text.unwords (f s.words))

/-- What a function of texts computes: first from all arguments but the last, then from the
last. The other functions have no such meaning. -/
def textual? : Builtin → Option (List Text → Except Error (Text → Except Error Text))
  | .subst => some fun
    | [old, new] => .ok fun s => .ok (s.replace old new)
    | _ => .error (.breach .index)
  | .patsubst => some fun
    | [old, new] => do
      let p ← Pattern.parse old
      return fun s => do return Text.unwords (← Function.patsubst p new s.words)
    | _ => .error (.breach .index)
  | .strip => some fun _ => .ok (ofWords id)
  | .findstring => some fun
    | [part] => .ok fun s => .ok (if s.hasPart part then part else [])
    | _ => .error (.breach .index)
  | .filter => some fun
    | [ps] => do
      let ps ← ps.words.mapM Pattern.parse
      return ofWords (Function.filter ps)
    | _ => .error (.breach .index)
  | .filterOut => some fun
    | [ps] => do
      let ps ← ps.words.mapM Pattern.parse
      return ofWords (Function.filterOut ps)
    | _ => .error (.breach .index)
  | .sort => some fun _ => .ok (ofWords Function.sort)
  | .word => some fun
    | [n] => do
      let n ← Function.number n
      return fun s => .ok (Function.word n s.words)
    | _ => .error (.breach .index)
  | .wordlist => some fun
    | [first, last] => do
      let first ← Function.number first
      let last ← Function.number last
      return ofWords (Function.wordlist first last)
    | _ => .error (.breach .index)
  | .words => some fun _ => .ok fun s => .ok (Text.ofNat s.words.length)
  | .firstword => some fun _ => .ok fun s => .ok (s.words.headD [])
  | .lastword => some fun _ => .ok fun s => .ok (s.words.getLastD [])
  | .dir => some fun _ => .ok (wordwise fun w => (Path.dirAndFile w "./").1)
  | .notdir => some fun _ => .ok (wordwise fun w => (Path.dirAndFile w "./").2)
  | .suffix => some fun _ => .ok (ofWords Path.suffixes)
  | .basename => some fun _ => .ok (ofWords Path.baseNames)
  | .addEnd => some fun
    | [part] => .ok (wordwise (· ++ part))
    | _ => .error (.breach .index)
  | .addStart => some fun
    | [part] => .ok (wordwise (part ++ ·))
    | _ => .error (.breach .index)
  | .join => some fun
    | [first] => .ok (ofWords (Function.join first.words))
    | _ => .error (.breach .index)
  | _ => none

end Builtin

end Rebuild
