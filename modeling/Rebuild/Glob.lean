import Rebuild.Files
/-!
# Wildcards

A wildcard pattern matches names: a star any text, a question mark any character, and square
brackets one character of a set. Two searches use it. `Glob.expand` looks for paths below a
directory, component by component, and can find the two dot entries; `Glob.shellWords` finds
paths as a shell does.
-/

namespace Rebuild

namespace Glob

/-- Does a text have signs that stand for others? -/
def hasMagic (s : Text) : Bool := s.any fun c => c == '[' || c == '*' || c == '?'

/-- A part of a pattern for file names. -/
inductive Piece where
  | char (c : Char)
  | any
  | star
  /-- One character of some closed ranges, or of none of them. -/
  | set (negated : Bool) (ranges : List (Char × Char))
deriving DecidableEq, Repr

/-- The chunks of a set between the hyphens that make ranges; each chunk after the first begins
with the end of a range, and each before the last ends with the start of one. `head` holds the
latest chunk's characters that are settled, the latest first. -/
def chunks (head : Text) (wait : Nat) : Text → List Text
  | [] => [head.reverse]
  | c :: rest =>
    if c == '-' && wait = 0 then head.reverse :: chunks [] 2 rest
    else chunks (c :: head) (wait - 1) rest

/-- A hyphen at the end of a set is a member of it. -/
def joinTrailing : List Text → List Text
  | [a, []] => [a ++ ['-']]
  | a :: rest => a :: joinTrailing rest
  | [] => []

/-- Leave out the ranges that are empty, from the last to the first. -/
def dropEmptyRanges : List Text → List Text
  | [] => []
  | a :: rest =>
    match a.getLast?, dropEmptyRanges rest with
    | some lo, (hi :: b) :: more =>
      if hi.toNat < lo.toNat then (a.dropLast ++ b) :: more else a :: (hi :: b) :: more
    | _, more => a :: more

/-- The ranges of single characters. -/
def singles (s : Text) : List (Char × Char) := s.map fun c => (c, c)

/-- The closed ranges of a chunk and the chunks after it; a hyphen with nothing before it is a
member. -/
def rangesFrom (a : Text) : List Text → List (Char × Char)
  | [] => singles a
  | b :: rest =>
    match a.getLast?, b.head? with
    | some lo, some hi => singles a.dropLast ++ (lo, hi) :: rangesFrom (b.drop 1) rest
    | _, _ => singles a ++ ('-', '-') :: rangesFrom b rest

/-- The ranges of a set, by the texts between its dashes. -/
def rangesOf : List Text → List (Char × Char)
  | [] => []
  | a :: rest => rangesFrom a rest

/-- The set between brackets. It is negated if it begins with an exclamation mark when its empty
ranges are left out. -/
def setOf (body : Text) : Piece :=
  let wait := if body.head? == some '!' then 2 else 1
  let cs := if body.contains '-' then dropEmptyRanges (joinTrailing (chunks [] wait body))
    else [body]
  match cs with
  | ('!' :: a) :: rest => .set true (rangesOf (a :: rest))
  | _ => .set false (rangesOf cs)

/-- The text between an opening bracket and the bracket that closes it, and what follows; a
closing bracket in first place, or after an exclamation mark, is a member of the set. -/
def bracket? (s : Text) : Option (Text × Text) :=
  let (a, s') := match s with
    | '!' :: rest => (['!'], rest)
    | _ => ([], s)
  let (b, s'') := match s' with
    | ']' :: rest => ([']'], rest)
    | _ => ([], s')
  let c := s''.takeWhile (· != ']')
  match s''.drop c.length with
  | [] => none
  | _ :: after => some (a ++ b ++ c, after)

/-- The pieces of a pattern; `fuel` is at least its length. -/
def piecesTo : Nat → Text → List Piece
  | 0, _ => []
  | _ + 1, [] => []
  | n + 1, '*' :: rest => .star :: piecesTo n rest
  | n + 1, '?' :: rest => .any :: piecesTo n rest
  | n + 1, '[' :: rest =>
    match bracket? rest with
    | some (body, after) => setOf body :: piecesTo n after
    | none => .char '[' :: piecesTo n rest
  | n + 1, c :: rest => .char c :: piecesTo n rest

/-- The parts of a pattern. -/
def pieces (s : Text) : List Piece := piecesTo s.length s

/-- Does a piece other than a star match a character? -/
def Piece.accepts : Piece → Char → Bool
  | .char d, c => c == d
  | .any, _ => true
  | .star, _ => false
  | .set negated ranges, c =>
    let found := ranges.any fun r => r.1.toNat ≤ c.toNat && c.toNat ≤ r.2.toNat
    found != negated

/-- Does some end of a text satisfy this? -/
def anyEnd (p : Text → Bool) : Text → Bool
  | [] => p []
  | c :: s => p (c :: s) || anyEnd p s

/-- Do the parts of a pattern fit a text? -/
def matchPieces : List Piece → Text → Bool
  | [], s => s.isEmpty
  | .star :: ps, s => anyEnd (matchPieces ps) s
  | _ :: _, [] => false
  | p :: ps, c :: s => p.accepts c && matchPieces ps s

/-- Does a pattern fit a name? -/
def matchName (pattern s : Text) : Bool := matchPieces (pieces pattern) s

/-- Does a name begin with a dot? -/
def isHidden (s : Text) : Bool := s.head? == some '.'

/-- The names in a directory that match a pattern; names that begin with a dot only if the
pattern does. -/
def leaves (fs : Files) (cwd dir pattern : Text) : FileResult (List Text) :=
  if !hasMagic pattern then
    if pattern.isEmpty then .ok (if fs.isDir cwd dir then [[]] else [])
    else .ok (if fs.has cwd (Path.joinShort dir pattern) then [pattern] else [])
  else do
    let names := (← fs.list cwd dir) ++ [['.'], ['.', '.']]
    let names := if isHidden pattern then names else names.filter (!isHidden ·)
    let names := names.filter (matchName pattern)
    return Text.sort (names.filter fun n => fs.has cwd (Path.joinShort dir n))

/-- The paths below `base` that lead to a name in the directory `dir` there that matches. -/
def search (fs : Files) (cwd base leaf dir : Text) : FileResult (List Text) := do
  let place := Path.joinShort base dir
  if fs.isDir cwd place then return (← leaves fs cwd place leaf).map (Path.joinShort dir)
  else return []

/-- The paths below `base` that match a pattern path; `fuel` bounds the number of components. -/
def expandTo (fuel : Nat) (fs : Files) (cwd base path : Text) : FileResult (List Text) :=
  match fuel with
  | 0 => .ok []
  | fuel + 1 => do
    let (dir, leaf) := Path.split path
    if dir.isEmpty then leaves fs cwd base leaf
    else
      let dirs ← if hasMagic dir then expandTo fuel fs cwd base dir else pure [dir]
      return (← dirs.mapM (search fs cwd base leaf)).flatten

/-- The paths below `base` that match a pattern path, in order. -/
def expand (fs : Files) (cwd base path : Text) : FileResult (List Text) :=
  expandTo (path.length + 1) fs cwd base path

/-- The names in a directory that match the last component of a shell pattern. -/
def shellLeaves (fs : Files) (cwd dir pattern : Text) (dirsOnly : Bool) : List Text :=
  if hasMagic pattern then
    let names := (fs.list cwd dir).toOption.getD []
    let names := if dirsOnly then names.filter fun n => fs.isDir cwd (Path.join dir n) else names
    let names := if isHidden pattern then names else names.filter (!isHidden ·)
    names.filter (matchName pattern)
  else if pattern.isEmpty then (if fs.isDir cwd dir then [[]] else [])
  else if fs.has cwd (Path.join dir pattern) then [pattern] else []

/-- The paths that a shell finds for a pattern; `fuel` bounds the number of components. -/
def shellPathsTo (fuel : Nat) (fs : Files) (cwd path : Text) (dirsOnly : Bool) : List Text :=
  match fuel with
  | 0 => []
  | fuel + 1 =>
    let (dir, leaf) := Path.split path
    if !hasMagic path then
      if leaf.isEmpty then (if fs.isDir cwd dir then [path] else [])
      else if fs.has cwd path then [path] else []
    else if dir.isEmpty then shellLeaves fs cwd ['.'] leaf dirsOnly
    else
      let dirs := if dir != path && hasMagic dir then shellPathsTo fuel fs cwd dir true else [dir]
      dirs.flatMap fun d => (shellLeaves fs cwd d leaf dirsOnly).map (Path.join d)

/-- The paths that fit a pattern, as a shell lists them. -/
def shellPaths (fs : Files) (cwd path : Text) : List Text :=
  shellPathsTo (path.length + 1) fs cwd path false

end Glob

end Rebuild
