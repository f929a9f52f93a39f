import Rebuild.Rule
import Rebuild.Variable.Scopes
import Rebuild.World
/-!
# Makefiles

A makefile, as far as it has been carried out: its variables, rules and targets, what it exports
and includes, and where files are searched. Rules are numbered, since several targets share one
and its recipe grows after it is made.
-/

namespace Rebuild

/-- A rule of a target. -/
inductive RuleRef where
  | named (id : Nat)
  /-- The pattern rule of a number, fitted. -/
  | fitted (id : Nat) (fit : Fit)
deriving DecidableEq, Repr

/-- What is known of a target. -/
structure Target where
  name : Text
  rules : List RuleRef
  /-- The target is mentioned by name in a makefile. -/
  explicit : Bool
  found : Option Text
  /-- The time of the file, none if there is no file; unknown before the search. -/
  mtime : Option (Option Time)
  remade : Bool
deriving Repr

/-- A target of which nothing is known. -/
def Target.new (name : Text) : Target := ⟨name, [], false, none, none, false⟩

/-- The time of the file of a target, which must have been searched. -/
def Target.time (t : Target) : Except Error (Option Time) :=
  match t.mtime with
  | some m => .ok m
  | none => .error (.breach .part)

/-- The options that change how recipes run. -/
structure Habits where
  keepGoing : Bool
  silent : Bool
  justPrint : Bool
deriving DecidableEq, Repr

/-- What was read from makefiles, and what is known of targets. -/
structure Makefile where
  workdir : Text
  env : Env
  habits : Habits
  level : Int
  scopes : Scopes
  /-- Names exported to commands, or kept from them. -/
  exported : List (Text × Bool)
  targets : List Target
  rules : List Rule
  patternRules : List PatternRule
  implicit : List Nat
  /-- Patterns with variables of their own. -/
  patternScopes : List Pattern
  vpaths : List (Pattern × List Text)
  /-- The general search path, known once all is read. -/
  vpath : Option (List Text)
  included : List (Text × Bool)
  defaultTarget : Option Text
  finished : Bool
  /-- Recipes must not run at the same time. -/
  notParallel : Bool
  depth : Nat

/-- A makefile and the world. -/
structure Session where
  world : World
  makefile : Makefile

/-- Computations on a makefile; what was done before a failure stays. -/
abbrev MakeM := ExceptT Error (StateM Session)

namespace MakeM

/-- The makefile. -/
def makefile : MakeM Makefile := return (← get).makefile

/-- The world. -/
def world : MakeM World := return (← get).world

/-- Change the makefile. -/
def update (f : Makefile → Makefile) : MakeM Unit :=
  modify fun s => { s with makefile := f s.makefile }

/-- Change the world. -/
def onWorld (f : World → World) : MakeM Unit := modify fun s => { s with world := f s.world }

/-- Run a program that works on the world. -/
def act {α : Type} (x : WorldM α) : MakeM α := do
  let s ← get
  let (r, w) := x.run s.world
  set { s with world := w }
  ofExcept r

/-- Write to the log. -/
def log (level : Level) (message : Text) : MakeM Unit := onWorld (·.log level .data message)

/-- Say a remark about variables. -/
def remark : Remark → MakeM Unit
  | .reading n => onWorld (·.log .warning .parser n.message)
  | .kept name value =>
    log .info ("not setting variable '" ++ name ++ "', set by higher-priority source to value '"
      ++ value.listing ++ "'")

/-- Run a program that works on variables. -/
def onScopes {α : Type} (x : ScopeM α) : MakeM α := do
  let mk ← makefile
  let (r, scopes, remarks) := x.run (mk.scopes, [])
  update fun mk => { mk with scopes := scopes }
  remarks.forM remark
  ofExcept r

/-- Run a reader and tell its notices. -/
def reading {α : Type} (p : ParseM α) : MakeM α := do
  let (r, notices) := p.outcome
  notices.forM fun n => remark (.reading n)
  ofExcept r

end MakeM

namespace Makefile

/-- The rule of a number. -/
def ruleAt (mk : Makefile) (id : Nat) : Rule := mk.rules.getD id ⟨[], false, none, false, []⟩

/-- The pattern rule of a number. -/
def patternRuleAt (mk : Makefile) (id : Nat) : PatternRule :=
  mk.patternRules.getD id ⟨[], [], false, none, []⟩

/-- The prerequisites of a rule. -/
def prereqs (mk : Makefile) : RuleRef → List Text
  | .named id => (mk.ruleAt id).prereqs
  | .fitted id fit => (mk.patternRuleAt id).prereqsFor fit

/-- Is a rule written with two colons? -/
def doubleColon (mk : Makefile) : RuleRef → Bool
  | .named id => (mk.ruleAt id).doubleColon
  | .fitted id _ => (mk.patternRuleAt id).doubleColon

/-- Where a rule stands. -/
def locOf (mk : Makefile) : RuleRef → Option Location
  | .named id => (mk.ruleAt id).loc
  | .fitted id _ => (mk.patternRuleAt id).loc

/-- The recipe of a rule. -/
def commands (mk : Makefile) : RuleRef → List Expansion
  | .named id => (mk.ruleAt id).commands
  | .fitted id _ => (mk.patternRuleAt id).commands

/-- May the prerequisites of a rule be missing? -/
def isWeak (mk : Makefile) : RuleRef → Bool
  | .named id => (mk.ruleAt id).weak
  | .fitted _ _ => false

/-- Does a rule have a recipe? -/
def hasCommands (mk : Makefile) (r : RuleRef) : Bool := !(mk.commands r).isEmpty

/-- A target, if it was mentioned. -/
def target? (mk : Makefile) (name : Text) : Option Target := mk.targets.find? (·.name == name)

/-- What is known of a target. -/
def targetAt (mk : Makefile) (name : Text) : Target := (mk.target? name).getD (.new name)

/-- Change a target. -/
def mapTarget (mk : Makefile) (name : Text) (f : Target → Target) : Makefile :=
  { mk with targets := mk.targets.map fun t => if t.name == name then f t else t }

/-- How many rules of a target have a recipe. -/
def recipeCount (mk : Makefile) (t : Target) : Nat := t.rules.countP mk.hasCommands

/-- Is this a prerequisite of a target? -/
def dependsOn (mk : Makefile) (t : Target) (name : Text) : Bool :=
  t.rules.any fun r => (mk.prereqs r).contains name

/-- Has the target double-colon rules? It must have rules. -/
def isDoubleColon (mk : Makefile) (t : Target) : Except Error Bool :=
  match t.rules with
  | r :: _ => .ok (mk.doubleColon r)
  | [] => .error (.breach .index)

/-- The patterns whose variables a target takes. -/
def patternsFor (mk : Makefile) (target : Text) : List Pattern :=
  mk.patternScopes.filter (·.matchesInk target)

/-- The directories in which a target is sought. -/
def searchPath (mk : Makefile) (target : Text) : Except Error (List Text) :=
  match mk.vpath with
  | none => .error (.breach .part)
  | some dirs =>
    .ok (Text.nub (dirs ++ (mk.vpaths.filter fun p => p.1.matchesInk target).flatMap (·.2)))

/-- Add a line to the recipe of a rule. -/
def addCommand (mk : Makefile) (id : Nat) (c : Expansion) : Makefile :=
  { mk with rules := mk.rules.modify id fun r => { r with commands := r.commands ++ [c] } }

/-- Add a line to the recipe of a pattern rule. -/
def addPatternCommand (mk : Makefile) (id : Nat) (c : Expansion) : Makefile :=
  { mk with
    patternRules := mk.patternRules.modify id fun r => { r with commands := r.commands ++ [c] } }

end Makefile

namespace MakeM

/-- The target of a name, which is new if it was not mentioned before: its proper name. Slashes
at the end do not count; a name must not be empty or start like a wildcard. -/
def mention (name : Text) : MakeM Text := do
  let name := name.dropRight (· == '/')
  match name with
  | [] => throw (.breach .assertion)
  | c :: _ =>
    if c == '[' || c == '*' || c == '?' then throw (.breach .assertion)
    if ((← makefile).target? name).isNone then
      update fun mk => { mk with targets := mk.targets ++ [.new name] }
    return name

/-- What is known of a target. -/
def targetAt (name : Text) : MakeM Target := return (← makefile).targetAt name

/-- Change a target. -/
def onTarget (name : Text) (f : Target → Target) : MakeM Unit := update (·.mapTarget name f)

/-- Add a rule and give its number. -/
def newRule (r : Rule) : MakeM Nat := do
  let mk ← makefile
  update fun mk => { mk with rules := mk.rules ++ [r] }
  return mk.rules.length

/-- Add a pattern rule and give its number. -/
def newPatternRule (r : PatternRule) : MakeM Nat := do
  let mk ← makefile
  update fun mk => { mk with patternRules := mk.patternRules ++ [r] }
  return mk.patternRules.length

/-- Give a target a rule. All its rules have a single colon, or all a double one; a pattern rule
has one pattern, which matches the target. -/
def addRule (name : Text) (r : RuleRef) : MakeM Unit := do
  let mk ← makefile
  let t := mk.targetAt name
  match t.rules with
  | first :: _ =>
    if mk.doubleColon r != mk.doubleColon first then
      throw (.refused (.mixedColons (mk.locOf first)) (mk.locOf r))
  | [] => pure ()
  match r with
  | .fitted id _ =>
    match (mk.patternRuleAt id).targets with
    | [p] =>
      if (p.match? name).isNone then throw (.refused (.staticMismatch name) (mk.locOf r))
    | _ => throw (.refused .staticTargetCount (mk.locOf r))
  | .named _ => pure ()
  onTarget name fun t => { t with rules := t.rules ++ [r] }

/-- Is a target never looked for as a file? -/
def isPhony (name : Text) : MakeM Bool := do
  let phony ← mention ".PHONY"
  let mk ← makefile
  return mk.dependsOn (mk.targetAt phony) name

/-- A target was given a rule: the first such target is made by default. -/
def foundTarget (name : Text) : MakeM Unit := do
  let goal ← onScopes (ScopeM.lookup [.global] ".DEFAULT_GOAL")
  if (← makefile).defaultTarget.isNone && name != ".PHONY" && goal.isNone then
    update fun mk => { mk with defaultTarget := some name }
    onScopes (ScopeM.set .global [] ".DEFAULT_GOAL" .simple .automatic name false)

/-- The table of variables of a pattern. -/
def patternScope (p : Pattern) : MakeM ScopeName := do
  if !(← makefile).patternScopes.contains p then
    update fun mk => { mk with patternScopes := mk.patternScopes ++ [p] }
  return .pattern p

end MakeM

end Rebuild
