import Rebuild.Glob
import Rebuild.World
/-!
# Command lines

A recipe line is split into words the way a shell would, so that simple commands need no shell.
Quotes, backslashes, comments and wildcards are understood; any other character with a meaning
for the shell sends the whole line there, as do an assignment in front and the words that only a
shell knows.
-/

namespace Rebuild

namespace CommandLine

/-- A word of a command line; `magic` tells that it had a wildcard outside of quotes. -/
structure Word where
  text : Text
  magic : Bool
deriving DecidableEq, Repr

/-- Why a line is not split into words. -/
inductive Halt where
  | special (c : Char)
  | openQuote
deriving DecidableEq, Repr

/-- The characters that divide words. -/
def isGap (c : Char) : Bool := c == ' ' || c == '\t' || c == '\n' || c == '\r'

/-- The characters that only a shell can deal with. -/
def isSpecial (c : Char) : Bool := "<>&|\x60~()\x7b\x7d$;".toList.contains c

/-- Add a character to a word, or begins one. -/
def Word.push (w : Option Word) (c : Char) : Option Word :=
  match w with
  | some w => some { w with text := w.text ++ [c] }
  | none => some ⟨[c], false⟩

/-- The word that quotes open, if none is open. -/
def Word.begin (w : Option Word) : Option Word := some (w.getD ⟨[], false⟩)

/-- Where in a line a character stands. -/
inductive Place where
  | plain
  | single
  /-- In double quotes; `open?` is false right after an escape, where the line may end. -/
  | double (open? : Bool)
deriving DecidableEq, Repr

/-- The words of a command line from a place on; `begun` is the word begun. A word at the end
counts only if it has a character; a line may end in double quotes right after an escape. -/
def scan (place : Place) (begun : Option Word) : Text → Except Halt (List Word)
  | [] =>
    match place, begun with
    | .single, _ => .error .openQuote
    | .double true, _ => .error .openQuote
    | _, some w => .ok (if w.text.isEmpty then [] else [w])
    | _, none => .ok []
  | c :: rest =>
    match place with
    | .plain =>
      if isGap c then
        match begun with
        | some w => do return w :: (← scan .plain none rest)
        | none => scan .plain none rest
      else if c == '\x27' then scan .single (Word.begin begun) rest
      else if c == '\x22' then scan (.double true) (Word.begin begun) rest
      else if c == '#' then
        match begun with
        | some w => .ok (if w.text.isEmpty then [] else [w])
        | none => .ok []
      else if isSpecial c then .error (.special c)
      else if c == '\\' then
        match rest with
        | d :: rest => scan .plain (Word.push begun d) rest
        | [] => scan .plain (Word.push begun c) []
      else if c == '*' || c == '?' then
        scan .plain ((Word.push begun c).map fun w => { w with magic := true }) rest
      else scan .plain (Word.push begun c) rest
    | .single =>
      if c == '\x27' then scan .plain begun rest
      else scan .single (Word.push begun c) rest
    | .double _ =>
      if c == '\x22' then scan .plain begun rest
      else if c == '$' then .error (.special c)
      else if c == '\\' then
        match rest with
        | d :: rest =>
          if d == '\x22' || d == '\\' then scan (.double false) (Word.push begun d) rest
          else scan (.double false) (Word.push (Word.push begun c) d) rest
        | [] => .error .openQuote
      else scan (.double true) (Word.push begun c) rest

/-- The line without its escaped newlines. -/
def joinLines : Text → Text
  | '\\' :: '\n' :: rest => joinLines rest
  | c :: rest => c :: joinLines rest
  | [] => []

/-- The words of a line. -/
def words (line : Text) : Except Halt (List Word) := scan .plain none (joinLines line)

/-- The files that a word names: those that match its wildcards, or the word itself. -/
def Word.expand (w : Word) (fs : Files) (here cwd : Text) : List Text :=
  if w.magic then
    let path := if Path.isAbsolute w.text then w.text else Path.join cwd w.text
    match Glob.shellPaths fs here path with
    | [] => [w.text]
    | found => found.map fun f => f.drop (path.length - w.text.length)
  else [w.text]

/-- A line as words, or for a shell. -/
inductive Split where
  | argv (words : List Text)
  /-- A shell is needed because of this character. -/
  | shell (c : Char)
deriving DecidableEq, Repr

/-- The arguments of a command line, if no shell is needed. An assignment in front needs one. -/
def split (fs : Files) (here line cwd : Text) : Except Error Split :=
  match words line with
  | .error (.special c) => .ok (.shell c)
  | .error .openQuote => .error .openQuote
  | .ok ws =>
    let argv := ws.flatMap fun w => w.expand fs here cwd
    if (argv.headD []).contains '=' then .ok (.shell '=') else .ok (.argv argv)

/-- The commands that are part of a shell. -/
def shellWords : List Text :=
  ([":", ".", "break", "cd", "continue", "exec", "exit", "export", "getopts", "hash", "pwd",
    "readonly", "return", "shift", "test", "times", "trap", "umask", "unset", "alias", "set",
    "bind", "builtin", "caller", "command", "declare", "echo", "enable", "help", "let", "local",
    "logout", "printf", "read", "shopt", "source", "type", "typeset", "ulimit", "unalias", "find"]
    : List String).map String.toList

/-- The shell of an environment, and whether commands that start with a slash need it. -/
def shellOf (env : Env) : Except Error (Text × Bool) := do
  let shell ← match env.get? "SHELL", env.get? "MOZILLABUILD", env.get? "COMSPEC" with
    | some s, _, _ => pure s
    | none, some s, _ => pure (s ++ "/msys/bin/sh.exe")
    | none, none, some s => pure s
    | none, none, none => throw (.breach .undefinedName)
  if env.get? "MSYSTEM" == some "MINGW32" then
    let named := Text.endsWith (shell.map Char.toLower) ".exe"
    return (if named then shell else shell ++ ".exe", true)
  else return (shell, false)

/-- What is started for a line. -/
structure Launch where
  /-- The file to run, if it is not to be searched. -/
  executable : Option Text
  argv : List Text
deriving DecidableEq, Repr

/-- Why a shell is taken. -/
inductive Reason where
  | slash
  | special (c : Char)
  | primitive (word : Text)
deriving DecidableEq, Repr

/-- The reason as it is told. -/
def Reason.message : Reason → Text
  | .slash => "command starts with /"
  | .special c => "command contains shell-special character '" ++ [c] ++ "'"
  | .primitive w => "command starts with shell primitive '" ++ w ++ "'"

/-- A line with a drive letter in front turned into a path. -/
def driveAsPath (line : Text) : Text :=
  match line with
  | d :: ':' :: '/' :: c :: rest => '/' :: d :: '/' :: c :: rest
  | _ => line

/-- The words to start without a shell, or why one is needed. -/
def direct (w : World) (line cwd : Text) (slash : Bool) :
    Except Error (Except Reason (List Text)) :=
  if slash && line.head? == some '/' then .ok (.error .slash)
  else do
    match ← split w.files w.cwd line cwd with
    | .shell c => return .error (.special c)
    | .argv argv =>
      match argv with
      | first :: _ =>
        return if shellWords.contains first then .error (.primitive first) else .ok argv
      | [] => return .ok []

/-- How to start a command line in a directory: directly, or through a shell. -/
def prepare (line cwd : Text) (loc : Option Location) : WorldM Launch := do
  let w ← getThe World
  let (shell, slash) ← shellOf w.environ
  match ← direct w line cwd slash with
  | .ok argv =>
    let first := argv.headD []
    return ⟨if first.contains '/' then some (Path.joinShort cwd first) else none, argv⟩
  | .error reason =>
    modify fun w => w.log .debug .process
      (Location.optionText loc ++ ": using shell: " ++ reason.message ++ ": '" ++ line ++ "'")
    return ⟨none, [shell, "-c", if slash then driveAsPath line else line]⟩

end CommandLine

end Rebuild
