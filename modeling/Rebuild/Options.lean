import Rebuild.Error
import Rebuild.Text.Digit
/-!
# Options of a make

A make takes options from its command line and, before them, from the flags that a make above it
passes on. Short options may be written together, long ones may be shortened. Words that are no
options are arguments, wherever they stand; after `--` all words are.
-/

namespace Rebuild

/-- The options of a make. -/
structure Options where
  makefiles : List Text
  verbose : Bool
  keepGoing : Bool
  debugLog : Option Text
  directory : Option Text
  version : Bool
  jobs : Int
  printDir : Bool
  silent : Bool
  justPrint : Bool
  help : Bool
deriving DecidableEq, Repr

/-- The options if none is given. -/
def Options.default : Options :=
  ⟨[], false, false, none, none, false, 1, true, false, false, false⟩

/-- The options by what they do. -/
inductive Switch where
  | file | verbose | keepGoing | debugLog | directory | version | jobs | printDir | noPrintDir
  | silent | justPrint | help
deriving DecidableEq, Repr

/-- What is wrong with an option. -/
inductive OptionFault where
  | unknown (option : Text)
  | ambiguous (option : Text) (fits : List Text)
  | noValue (option : Text)
  | extraValue (option : Text)
  | notInteger (option value : Text)
deriving DecidableEq, Repr

/-- What is wrong, as it is told. -/
def OptionFault.message : OptionFault → Text
  | .unknown o => "no such option: " ++ o
  | .ambiguous o fits => "ambiguous option: " ++ o ++ " (" ++ Text.join ", " fits ++ "?)"
  | .noValue o => o ++ " option requires 1 argument"
  | .extraValue o => o ++ " option does not take a value"
  | .notInteger o v => "option " ++ o ++ ": invalid integer value: " ++ Text.quoted v

namespace Switch

/-- Does an option take a value? -/
def takesValue : Switch → Bool
  | .file | .debugLog | .directory | .jobs => true
  | _ => false

/-- The options of one letter. -/
def shorts : List (Char × Switch) :=
  [('f', .file), ('d', .verbose), ('k', .keepGoing), ('C', .directory), ('v', .version),
    ('j', .jobs), ('w', .printDir), ('s', .silent), ('n', .justPrint), ('h', .help)]

/-- The options of a word. -/
def longs : List (Text × Switch) :=
  [("--help", .help), ("--file", .file), ("--makefile", .file), ("--keep-going", .keepGoing),
    ("--debug-log", .debugLog), ("--directory", .directory), ("--version", .version),
    ("--jobs", .jobs), ("--print-directory", .printDir), ("--no-print-directory", .noPrintDir),
    ("--silent", .silent), ("--just-print", .justPrint), ("--dry-run", .justPrint),
    ("--recon", .justPrint)]

/-- The long option meant by a text that may be shortened. -/
def long? (s : Text) : Except OptionFault (Text × Switch) :=
  match longs.find? (·.1 == s), longs.filter (·.1.startsWith s) with
  | some found, _ => .ok found
  | none, [found] => .ok found
  | none, [] => .error (.unknown s)
  | none, fits => .error (.ambiguous s (Text.sort (fits.map (·.1))))

end Switch

namespace Options

/-- The digits of a number after the mark of its base, which may be repeated. -/
def dropMark (base : Nat) (s : Text) : Text :=
  match s with
  | '0' :: c :: rest =>
    let mark := (base == 16 && (c == 'x' || c == 'X')) || (base == 8 && (c == 'o' || c == 'O'))
      || (base == 2 && (c == 'b' || c == 'B'))
    if mark then
      match rest with
      | '_' :: more => more
      | _ => rest
    else s
  | _ => s

/-- Read an integer to a base. -/
def integerIn? (base : Nat) (s : Text) : Option Int := do
  let (negative, digits) := Text.takeSign s.trim
  let ds ← Text.digitRun? (Text.digitIn? base) (dropMark base digits)
  return Text.applySign negative (Text.ofDigitValues base ds)

/-- A whole number, whose first characters tell its base. -/
def integer? (s : Text) : Option Int :=
  match s with
  | '0' :: 'x' :: _ | '0' :: 'X' :: _ => integerIn? 16 s
  | '0' :: 'b' :: rest | '0' :: 'B' :: rest =>
    integerIn? 2 (if rest.isEmpty then ['0'] else rest)
  | '0' :: _ => integerIn? 8 s
  | _ => integerIn? 10 s

/-- Ask for something; `name` is how it was asked for. -/
def set (o : Options) (s : Switch) (name value : Text) : Except OptionFault Options :=
  match s with
  | .file => .ok { o with makefiles := o.makefiles ++ [value] }
  | .verbose => .ok { o with verbose := true }
  | .keepGoing => .ok { o with keepGoing := true }
  | .debugLog => .ok { o with debugLog := some value }
  | .directory => .ok { o with directory := some value }
  | .version => .ok { o with version := true }
  | .jobs =>
    match integer? value with
    | some n => .ok { o with jobs := n }
    | none => .error (.notInteger name value)
  | .printDir => .ok { o with printDir := true }
  | .noPrintDir => .ok { o with printDir := false }
  | .silent => .ok { o with silent := true }
  | .justPrint => .ok { o with justPrint := true }
  | .help => .ok { o with help := true }

/-- A long option with the words after it: the words left. -/
def readLong (o : Options) (word : Text) (rest : List Text) :
    Except OptionFault (Options × List Text) := do
  let (name, sign, inline) := word.partition ['=']
  let (name, s) ← Switch.long? name
  if s.takesValue then
    if !sign.isEmpty then return (← o.set s name inline, rest)
    match rest with
    | value :: rest => return (← o.set s name value, rest)
    | [] => throw (.noValue name)
  else if !sign.isEmpty then throw (.extraValue name)
  else return (← o.set s name [], rest)

/-- Short options written together, with the words after them: the words left. -/
def readShorts (o : Options) : Text → List Text → Except OptionFault (Options × List Text)
  | [], rest => .ok (o, rest)
  | c :: more, rest =>
    match Switch.shorts.lookup c with
    | none => .error (.unknown ['-', c])
    | some s =>
      if s.takesValue then
        match more, rest with
        | [], [] => .error (.noValue ['-', c])
        | [], value :: rest => do return (← o.set s ['-', c] value, rest)
        | value, rest => do return (← o.set s ['-', c] value, rest)
      else do
        let o ← o.set s ['-', c] []
        readShorts o more rest

/-- The options and arguments of some words; `fuel` bounds their number. -/
def readTo (fuel : Nat) (o : Options) (words : List Text) :
    Except OptionFault (Options × List Text) :=
  match fuel, words with
  | _, [] => .ok (o, [])
  | 0, words => .ok (o, words)
  | fuel + 1, word :: rest =>
    match word with
    | ['-', '-'] => .ok (o, rest)
    | '-' :: '-' :: _ => do
      let (o, rest) ← o.readLong word rest
      readTo fuel o rest
    | '-' :: c :: more => do
      let (o, rest) ← o.readShorts (c :: more) rest
      readTo fuel o rest
    | _ => do
      let (o, args) ← readTo fuel o rest
      return (o, word :: args)

/-- Read the options among words. -/
def read (o : Options) (words : List Text) : Except OptionFault (Options × List Text) :=
  readTo (words.length + 1) o words

/-- Does a text start with a word of letters only? -/
def startsWithFlags (s : Text) : Bool :=
  let isLetter (c : Char) : Bool := ('a' ≤ c && c ≤ 'z') || ('A' ≤ c && c ≤ 'Z')
  let rest := s.dropWhile isLetter
  !(s.takeWhile isLetter).isEmpty && (rest.head?.map Text.isBlank).getD true

/-- The words of passed-on flags; `word` holds the word begun, the latest character first, and
`gap` tells that blanks were just read. A backslash quotes the character after it. -/
def flagWords (word : Text) (gap : Bool) : Text → Except Error (List Text)
  | [] => .ok (if word.isEmpty then [] else [word.reverse])
  | '\\' :: [] => .error (.refused .flagsBackslash none)
  | '\\' :: c :: rest => flagWords (c :: word) false rest
  | c :: rest =>
    if Text.isBlank c then
      if gap then flagWords word true rest
      else do return word.reverse :: (← flagWords [] true rest)
    else flagWords (c :: word) false rest

/-- The words of the flags that a make above passes on. Letters in front are short options. -/
def ofFlags (flags : Text) : Except Error (List Text) :=
  let flags := flags.trim
  flagWords [] false (if startsWithFlags flags then '-' :: flags else flags)

/-- The letters and long options that are passed on to makes below. -/
def flags (o : Options) : Text :=
  let short (yes : Bool) (c : Char) : Text := if yes then [c] else []
  let letters := short o.keepGoing 'k' ++ short o.printDir 'w' ++ short o.silent 's'
    ++ short o.justPrint 'n' ++ short o.verbose 'd'
  let log : List Text := match o.debugLog with
    | some f => if f.isEmpty then [] else ["--debug-log=" ++ f]
    | none => []
  let jobs : List Text := if o.jobs == 1 then [] else ["-j" ++ Text.ofInt o.jobs]
  (log ++ jobs).foldl (fun s w => s ++ [' '] ++ w) letters

end Options

end Rebuild
