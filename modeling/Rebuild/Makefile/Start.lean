import Rebuild.Execute
/-!
# The life of a makefile

A makefile starts with the environment and the variables that the program itself sets; then
statements are carried out; then it is finished, which fixes the search path, the default target
and which targets are mentioned by name. Targets are made only after that.
-/

namespace Rebuild

/-- How a makefile is begun. -/
structure Config where
  /-- The directory to work in; the current one if none is given. -/
  workdir : Option Text
  env : Env
  restarts : Int
  make : Option Text
  flags : Text
  /-- The assignments of the command line, to be passed on. -/
  overrides : Text
  level : Int
  goals : List Text
  habits : Habits
  depth : Nat

/-- The variables that each makefile has. -/
def implicitVariables : List (Text × Text) :=
  [("MKDIR", "%pymake.builtins mkdir"), ("RM", "%pymake.builtins rm -f"),
    ("SLEEP", "%pymake.builtins sleep"), ("TOUCH", "%pymake.builtins touch"),
    (".LIBPATTERNS", "lib%.so lib%.a"), (".PYMAKE", "1")]

namespace Makefile

/-- A makefile before anything is read. -/
def blank (cwd : Text) (c : Config) : Makefile where
  workdir := Path.real cwd (c.workdir.getD cwd)
  env := c.env
  habits := c.habits
  level := c.level
  scopes := []
  exported := []
  targets := []
  rules := []
  patternRules := []
  implicit := []
  patternScopes := []
  vpaths := []
  vpath := none
  included := []
  defaultTarget := none
  finished := false
  notParallel := false
  depth := c.depth

end Makefile

namespace MakeM

/-- Set a variable outside of targets. -/
def setGlobal (name : Text) (flavor : Flavor) (origin : Origin) (value : Text) : MakeM Unit :=
  onScopes (ScopeM.set .global [] name flavor origin value false)

/-- Set the variables that each makefile has. -/
def start (c : Config) : MakeM Unit := do
  onScopes (ScopeM.setEnv .global [] c.env)
  setGlobal "CURDIR" .simple .automatic (Text.replaceChar (← makefile).workdir '\\' '/')
  setGlobal "MAKE_RESTARTS" .simple .automatic
    (if 0 < c.restarts then Text.ofInt c.restarts else [])
  setGlobal ".PYMAKE" .simple .makefile ['1']
  match c.make with
  | some m => setGlobal "MAKE" .simple .makefile m
  | none => pure ()
  if !c.overrides.isEmpty then
    setGlobal "-*-command-variables-*-" .simple .automatic c.overrides
  setGlobal "MAKEOVERRIDES" .recursive .environment "$\x7b-*-command-variables-*-\x7d"
  setGlobal "MAKEFLAGS" .recursive .makefile
    (if c.overrides.isEmpty then c.flags else c.flags ++ " -- $(MAKEOVERRIDES)")
  update fun mk => { mk with exported := [("MAKEFLAGS", true)] }
  setGlobal "MAKELEVEL" .simple .makefile (Text.ofInt c.level)
  setGlobal "MAKECMDGOALS" .simple .automatic (Text.unwords c.goals)
  implicitVariables.forM fun p => setGlobal p.1 .simple .implicit p.2

/-- The value of a variable outside of targets. -/
def globalValue (name : Text) : MakeM (Option Text) := do
  match ← onScopes (ScopeM.lookup [.global] name) with
  | none => return none
  | some v => return some (← expand .global [name] v.value)

/-- Does a character divide the directories of a search path? -/
def isPathGap (c : Char) : Bool := c == ':' || Text.isBlank c

/-- Mark the targets that are there, and their prerequisites, as mentioned by name. -/
def markExplicit : MakeM Unit := do
  (← makefile).targets.forM fun t => do
    onTarget t.name fun t => { t with explicit := true }
    t.rules.forM fun r => do
      ((← makefile).prereqs r).forM fun p => do
        let name ← mention p
        onTarget name fun t => { t with explicit := true }

/-- End the reading: all that depends on it as a whole is worked out. -/
def finish : MakeM Unit := do
  update fun mk => { mk with finished := true }
  match ← globalValue "GPATH" with
  | some s => if s.hasInk then throw (.refused .gpath none)
  | none => pure ()
  let vpath ← globalValue "VPATH"
  update fun mk =>
    { mk with vpath := some ((Text.splitRuns isPathGap (vpath.getD [])).filter (!·.isEmpty)) }
  markExplicit
  let serial ← mention ".NOTPARALLEL"
  if !(← targetAt serial).rules.isEmpty then update fun mk => { mk with notParallel := true }
  match ← globalValue ".DEFAULT_GOAL" with
  | some goal => update fun mk => { mk with defaultTarget := some goal.trim }
  | none => pure ()

/-- The environment for commands in a scope: exported names with their values, without the names
kept back, and one level further down. -/
def subEnvironment (sc : Scope) : MakeM Env := do
  let mk ← makefile
  let env ← mk.exported.foldlM (fun env (name, yes) => do
    if yes then
      match ← sc.lookup name with
      | none => return env.set name []
      | some v => return env.set name (← expand sc [name] v.value)
    else return env.erase name) mk.env
  return env.set "MAKELEVEL" (Text.ofInt (mk.level + 1))

end MakeM

end Rebuild
