import Rebuild.Text.Basic
/-!
# Paths

Paths are texts with slashes. Joining puts an absolute second path in place of the first; a
join that grows longer than 255 characters is normalised.
-/

namespace Rebuild

namespace Path

/-- Does a path begin at the root? -/
def isAbsolute (p : Text) : Bool := p.head? == some '/'

/-- A path inside a directory. -/
def join (a b : Text) : Text :=
  if isAbsolute b then b
  else if a.isEmpty || a.endsWith ['/'] then a ++ b
  else a ++ '/' :: b

/-- One component pushed on the components before it, the latest first: empty ones and single
dots vanish, and two dots take a component back where there is one to take. -/
def push (absolute : Bool) (parts : List Text) (part : Text) : List Text :=
  if part.isEmpty || part == ['.'] then parts
  else if part == ['.', '.'] then
    match parts with
    | [] => if absolute then [] else [part]
    | p :: rest => if p == ['.', '.'] then part :: parts else rest
  else part :: parts

/-- The parts of a path, with dots resolved. -/
def parts (p : Text) : List Text :=
  ((p.splitOn '/').foldl (push (isAbsolute p)) []).reverse

/-- The slashes at the start that a normalised path keeps: none, one, or exactly two. -/
def rootMark (p : Text) : Text :=
  match p with
  | '/' :: '/' :: '/' :: _ => ['/']
  | '/' :: '/' :: _ => ['/', '/']
  | '/' :: _ => ['/']
  | _ => []

/-- The path in its shortest form. -/
def normalize (p : Text) : Text :=
  match rootMark p ++ Text.join ['/'] (parts p) with
  | [] => ['.']
  | q => q

/-- The second path seen from the first, normalised if it is long. -/
def joinShort (a b : Text) : Text :=
  let p := join a b
  if 255 < p.length then normalize p else p

/-- The absolute path that a path denotes from a directory, without superfluous components. -/
def real (cwd p : Text) : Text := '/' :: Text.join ['/'] (parts (join cwd p))

/-- The directory of a path and its last component. Slashes between them are dropped, unless
there is nothing before them. -/
def split (p : Text) : Text × Text :=
  let last := (p.reverse.takeWhile (· != '/')).reverse
  let head := p.take (p.length - last.length)
  if head.all (· == '/') then (head, last) else (Text.dropRight head (· == '/'), last)

/-- The directory with its slash, and the file; the directory is `default` if it is empty. -/
def dirAndFile (p default : Text) : Text × Text :=
  let (dir, slash, file) := p.partitionLast ['/']
  if dir.isEmpty then (default, file) else (dir ++ slash, file)

/-- A goal without a leading `./`; that alone is the current directory. -/
def stripDotSlash (s : Text) : Text :=
  match s with
  | '.' :: '/' :: rest => if rest.isEmpty then ['.'] else rest
  | _ => s

/-- The directory of a path. -/
def dirPart (p : Text) : Text :=
  let (dir, _, _) := p.partitionLast ['/']
  if dir.isEmpty then ['.'] else dir

/-- The last part of a path. -/
def filePart (p : Text) : Text := (p.partitionLast ['/']).2.2

/-- The suffixes of those words that have one. -/
def suffixes (ws : List Text) : List Text :=
  ws.filterMap fun w =>
    let (base, dot, suffix) := (dirAndFile w ['.', '/']).2.partitionLast ['.']
    if base.isEmpty then none else some (dot ++ suffix)

/-- The words without their suffixes. -/
def baseNames (ws : List Text) : List Text :=
  ws.map fun w =>
    let (dir, file) := dirAndFile w []
    let (base, dot, suffix) := file.partitionLast ['.']
    dir ++ (if dot.isEmpty then suffix else base)

end Path

end Rebuild
