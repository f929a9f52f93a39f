import Rebuild.Search
/-!
# Recipes

The lines that a recipe runs for a target. In a recipe the automatic variables tell the target
and its prerequisites. The evaluated recipe is cut at newlines that no backslash quotes, and
marks in front of a line say how it is run.
-/

namespace Rebuild

/-- A line of a recipe, ready to run. -/
structure RecipeLine where
  line : Text
  /-- A failure does not matter. -/
  ignore : Bool
  loc : Option Location
  /-- What is printed before it is run. -/
  echo : Option Text
  env : Env
  /-- For a native command, the directories to search for it, if any are given. -/
  native : Option (Option (List Text))
deriving Repr

namespace Recipe

/-- The lines of a text: `start` holds the line begun, the latest character first. A backslash
keeps the character after it in the line, also a newline. -/
def splitFrom (start : Text) : Text → List Text
  | [] => if start.isEmpty then [] else [start.reverse]
  | '\\' :: c :: rest => splitFrom (c :: '\\' :: start) rest
  | '\n' :: rest => start.reverse :: splitFrom [] rest
  | c :: rest => splitFrom (c :: start) rest

/-- The lines of a command. -/
def split (s : Text) : List Text := splitFrom [] s

/-- What the marks before a line ask for. -/
structure Marks where
  hidden : Bool
  recursive : Bool
  ignore : Bool
  native : Bool
deriving DecidableEq, Repr

/-- The characters that may stand before a line. -/
def isMark (c : Char) : Bool := " \t\n@+-%".toList.contains c

/-- The line without its marks, and the marks; those of an empty line do not count. -/
def marks (s : Text) : Text × Marks :=
  let line := s.dropWhile isMark
  let front : Text := if line.isEmpty then [] else s.takeWhile isMark
  (line, ⟨front.contains '@', front.contains '+', front.contains '-', front.contains '%'⟩)

open MakeM

/-- Names of files that were all found, divided by blanks. -/
def joinFound (files : List (Option Text)) (f : Text → Text) : MakeM Text :=
  match files.mapM id with
  | some xs => return Text.unwords (xs.map f)
  | none => throw (.breach .shape)

/-- Define an automatic variable with its directory and file variants. -/
def automatic (sc : Scope) (name : Text) (files : List (Option Text)) : MakeM Scope := do
  let sc ← sc.define name (← joinFound files id)
  let sc ← sc.define (name ++ ['D']) (← joinFound files Path.dirPart)
  sc.define (name ++ ['F']) (← joinFound files Path.filePart)

/-- Is a prerequisite newer than the target, or the target missing? -/
def isNewer (target dep : Target) : MakeM Bool := do
  match ← ofExcept target.time with
  | none => return true
  | some t => return Time.later (← ofExcept dep.time) (some t)

/-- The scope with the automatic variables of a target. -/
def automatics (sc : Scope) (name : Text) (prereqs : List Text) : MakeM Scope := do
  let names ← prereqs.mapM mention
  let target ← targetAt name
  let mk ← makefile
  let all := names.map fun n => (mk.targetAt n).found
  let newer ← (Text.nub names).filterM fun n => isNewer target (mk.targetAt n)
  let sc ← automatic sc ['@'] [target.found]
  let sc ← match all with
    | first :: _ => automatic sc ['<'] [first]
    | [] => pure sc
  let sc ← automatic sc ['?'] (newer.map fun n => (mk.targetAt n).found)
  let sc ← automatic sc ['^'] (Text.nub all)
  automatic sc ['+'] all

/-- The prerequisites that the recipe of a rule sees: its own, and for a single-colon rule those
of the other rules of the target. -/
def prereqsOf (mk : Makefile) (target : Target) (r : RuleRef) : List Text :=
  match r with
  | .named id =>
    let rule := mk.ruleAt id
    if rule.doubleColon then rule.prereqs
    else rule.prereqs ++ (target.rules.filter (· != r)).flatMap mk.prereqs
  | .fitted .. => mk.prereqs r

/-- The stem of a rule. -/
def stemOf : RuleRef → Option Text
  | .named _ => none
  | .fitted _ fit => some (fit.dir ++ fit.stem)

/-- Where native commands are searched: the directories of a variable. -/
def nativePath (sc : Scope) : MakeM (Option (List Text)) := do
  match ← sc.lookup "PYCOMMANDPATH" with
  | none => return none
  | some v =>
    let s ← expand sc ["PYCOMMANDPATH"] v.value
    return if s.isEmpty then none else some (Text.splitRuns isPathGap s)

/-- A line of a recipe from its text. -/
def lineOf (sc : Scope) (env : Env) (loc : Option Location) (s : Text) : MakeM RecipeLine := do
  let mk ← makefile
  let (line, marks) := marks s
  let quiet := (marks.hidden || mk.habits.silent) && !mk.habits.justPrint
  let echo := if quiet then none else some (Location.optionText loc ++ "$ " ++ line)
  let native ← if marks.native then some <$> nativePath sc else pure none
  return ⟨line, marks.ignore, loc, echo, env, native⟩

/-- The scope that the recipe of a rule is read in. -/
def scope (name : Text) (r : RuleRef) : MakeM Scope := do
  let mk ← makefile
  let sc ← automatics (.ofTarget name) name (prereqsOf mk (mk.targetAt name) r)
  match stemOf r with
  | some stem => automatic sc ['*'] [some stem]
  | none => return sc

/-- The lines of the recipe of a rule. -/
def lines (name : Text) (r : RuleRef) : MakeM (List RecipeLine) := do
  let mk ← makefile
  let sc ← scope name r
  let env ← subEnvironment sc
  let parts ← (mk.commands r).mapM fun c => do
    let s ← expand sc [] c
    (split s).mapM (lineOf sc env c.loc)
  return parts.flatten

end Recipe

end Rebuild
