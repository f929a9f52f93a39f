import Rebuild.Arguments
import Rebuild.Evaluate
import Rebuild.Statement.DepFile
/-!
# Execution of statements

Statements change the makefile in order. Recipe lines go to the rule before them in the same
text. An included makefile and the text of an `eval` are carried out one level down, with no rule
before them.
-/

namespace Rebuild

/-- The rule to which commands belong. -/
inductive CurrentRule where
  | unset
  /-- A rule without targets, whose recipe is dropped. -/
  | dropped
  | named (id : Nat)
  | pattern (id : Nat)
deriving DecidableEq, Repr

namespace Execute

open MakeM

/-- The value of an expansion outside of rules. -/
def value (b : Below) (e : Expansion) : MakeM Text := Evaluate.expansion b .global [] e

/-- The words of a value. -/
def words (b : Below) (e : Expansion) : MakeM (List Text) := return (← value b e).words

/-- The words without a leading `./`. -/
def names (b : Below) (e : Expansion) : MakeM (List Text) :=
  return (← words b e).map Path.stripDotSlash

/-- A name, or the files that it matches if it has wildcards. -/
def wildcard (name : Text) : MakeM (List Text) := do
  if Glob.hasMagic name then
    let w ← world
    match Glob.expand w.files w.cwd (← makefile).workdir name with
    | .ok xs => return xs
    | .error e => throw (.file e name)
  else return [name]

/-- Give a rule to targets, the first of which may become the default. -/
def addToTargets (id : Nat) (targets : List Text) : MakeM Unit :=
  targets.forM fun t => do
    let name ← mention t
    addRule name (.named id)

/-- A rule of a file of dependencies; one without prerequisites says nothing. -/
def weakRule (b : Below) (targets deps : Expansion) (doubleColon : Bool) (current : CurrentRule) :
    MakeM CurrentRule := do
  let ds ← words b deps
  if ds.isEmpty then return current
  let ts ← names b targets
  let id ← newRule ⟨ds.map Path.stripDotSlash, doubleColon, targets.loc, true, []⟩
  ts.forM fun t => do
    let name ← mention t
    addRule name (.named id)
    foundTarget t
  return .named id

/-- Add a rule, or a pattern rule. -/
def rule (b : Below) (targets deps : Expansion) (doubleColon : Bool) : MakeM CurrentRule := do
  let ts ← names b targets
  let patterns ← ts.mapM fun t => do
    let files ← wildcard t
    files.mapM fun f => ofExcept (Pattern.parse f)
  match patterns.flatten with
  | [] => return .dropped
  | first :: rest =>
    if rest.any (·.isPattern != first.isPattern) then throw (.refused .mixedRule targets.loc)
    let ds := (← (← names b deps).mapM wildcard).flatten
    if first.isPattern then
      let prereqs ← ds.mapM fun d => ofExcept (Pattern.parse d)
      let id ← newPatternRule ⟨first :: rest, prereqs, doubleColon, targets.loc, []⟩
      update fun mk => { mk with implicit := mk.implicit ++ [id] }
      return .pattern id
    else
      let id ← newRule ⟨ds, doubleColon, targets.loc, false, []⟩
      let ts ← (first :: rest).mapM fun p => ofExcept p.target
      addToTargets id ts
      foundTarget (ts.headD [])
      return .named id

/-- Add the rules of targets that all fit one pattern. -/
def staticRule (b : Below) (targets pattern deps : Expansion) (doubleColon : Bool) :
    MakeM CurrentRule := do
  let ts := (← (← names b targets).mapM wildcard).flatten
  match ts with
  | [] => return .dropped
  | first :: _ =>
    match ← names b pattern with
    | [p] =>
      let p ← ofExcept (Pattern.parse p)
      let prereqs ← (← names b deps).mapM fun d => do
        let files ← wildcard d
        files.mapM fun f => ofExcept (Pattern.parse f)
      let id ← newPatternRule ⟨[p], prereqs.flatten, doubleColon, targets.loc, []⟩
      ts.forM fun t => do
        if (← ofExcept (Pattern.parse t)).isPattern then
          throw (.refused (.staticTargetPattern t) targets.loc)
        match p.match? t with
        | none => throw (.breach .template)
        | some stem =>
          let name ← mention t
          addRule name (.fitted id ⟨[], stem, p.matchesAny⟩)
      foundTarget first
      return .pattern id
    | _ => throw (.refused .staticPatternCount pattern.loc)

/-- Add a line to the current recipe. -/
def command (weak : Bool) (current : CurrentRule) (e : Expansion) : MakeM Unit := do
  match current with
  | .unset => throw (.breach .part)
  | current =>
    if weak then throw (.refused .recipeInDeps e.loc)
    match current with
    | .named id => update (·.addCommand id e)
    | .pattern id => update (·.addPatternCommand id e)
    | _ => return

/-- The tables behind a table. -/
def outerOf : ScopeName → List ScopeName
  | .target _ => [.global]
  | _ => []

/-- Append to a variable. -/
def append (b : Below) (k : ScopeName) (name : Text) (origin : Origin) (value : Text) :
    MakeM Unit := do
  match ← onScopes (ScopeM.append k name origin value) with
  | .done => return
  | .evaluate old e =>
    let s ← Evaluate.expansion b .global [name] e
    onScopes (ScopeM.appendValue k old s)

/-- Assign in one table. -/
def assignIn (b : Below) (a : Assignment) (name : Text) (k : ScopeName) : MakeM Unit := do
  let set (flavor : Flavor) (v : Text) : MakeM Unit :=
    onScopes (ScopeM.set k (outerOf k) name flavor a.origin v false)
  match a.mark with
  | .append => append b k name a.origin a.value
  | .unlessSet =>
    if ((← makefile).scopes.raw? (k :: outerOf k) name).isNone then set .recursive a.value
  | .recursive => set .recursive a.value
  | .simple =>
    let e ← reading (Expansion.parseText a.value a.valueLoc.text)
    set .simple (← value b e)

/-- The table of a target or pattern of an assignment. -/
def tableOf (p : Pattern) : MakeM ScopeName := do
  if p.isPattern then patternScope p
  else return .target (← mention (← ofExcept p.target))

/-- Assign in all tables that an assignment names. -/
def assign (b : Below) (a : Assignment) : MakeM Unit := do
  let name ← value b a.name
  if name.isEmpty then throw (.refused .emptyName a.name.loc)
  let tables ← match a.targets with
    | none => pure [.global]
    | some e => do
      let ps ← (← names b e).mapM fun t => ofExcept (Pattern.parse t)
      ps.mapM tableOf
  tables.forM (assignIn b a name)

/-- Does a condition hold? -/
def condition (b : Below) : Condition → MakeM Bool
  | .equal _ l r expected => do
    let x ← value b l
    let y ← value b r
    return (x == y) == expected
  | .defined _ e expected => do
    let name ← value b e
    match (← makefile).scopes.raw? [.global] name with
    | none => return !expected
    | some (_, _, v) => return (!v.isEmpty) == expected
  | .otherwise _ => return true

/-- Remove a search pattern. Patterns cannot be compared with the ones that are there. -/
def clearSearch : MakeM Unit := do
  match (← makefile).vpaths with
  | [] => return
  | (.exact _, _) :: _ => throw (.breach .assertion)
  | (.stem _ _, _) :: _ => throw (.breach .shape)

/-- Set, remove or clear search directories. -/
def vpath (b : Below) (e : Expansion) : MakeM Unit := do
  match ← names b e with
  | [] => update fun mk => { mk with vpaths := [] }
  | p :: paths =>
    let p ← ofExcept (Pattern.parse p)
    if paths.isEmpty then clearSearch
    else
      let dirs := (paths.flatMap (·.splitOn ':')).filter (!·.isEmpty)
      if !dirs.isEmpty then update fun mk => { mk with vpaths := mk.vpaths ++ [(p, dirs)] }

/-- Export variables, or no longer. -/
def setExport (names : List Text) (yes : Bool) : MakeM Unit :=
  names.forM fun n => update fun mk =>
    { mk with exported :=
        if mk.exported.any (·.1 == n) then
          mk.exported.map fun p => if p.1 == n then (n, yes) else p
        else mk.exported ++ [(n, yes)] }

/-- Read a makefile, unless it was read before and its time is the same. -/
def readFile (path : Text) : WorldM (List Statement) := fun w =>
  let path := Path.real w.cwd path
  let accept (f : ReadFile) : StateM World Bool := fun w =>
    match w.files.mtime? w.cwd path with
    | some t =>
      if t == f.mtime then (true, w)
      else (false, w.log .debug .parser ("Re-parsing makefile '" ++ path ++ "': mtimes differ"))
    | none => (false, w)
  let create : StateM World (Except Error ReadFile) := fun w =>
    match w.files.read w.cwd path, w.files.mtime? w.cwd path with
    | .ok s, some t =>
      let (r, notices) := (Statement.parse s path).outcome
      let w := notices.foldl (fun w n => w.log .warning .parser n.message) w
      (r.map fun stmts => ⟨stmts, t⟩, w)
    | .error e, _ => (.error (.file e path), w)
    | .ok _, none => (.error (.file .missing path), w)
  let ((cache, r), w) := (w.parsed.fetch path accept create).run w
  (r.map (·.statements), { w with parsed := cache })

/-- The statements of a file of dependencies. -/
def readDeps (path : Text) : WorldM (List Statement) := do
  let w ← getThe World
  match w.files.read w.cwd path with
  | .ok s => ofExcept (DepFile.parse s)
  | .error e => throw (.file e path)

/-- Put a makefile on the list of makefiles. A path that has references cannot be evaluated
there. -/
def listMakefile (path : Text) : MakeM Unit := do
  match ← onScopes (ScopeM.append .global "MAKEFILE_LIST" .automatic path) with
  | .done => return
  | .evaluate old (.literal s _) => onScopes (ScopeM.appendValue .global old s)
  | .evaluate _ _ => throw (.breach .assertion)

/-- Include a makefile. One that is not there is only remembered, and wildcards are not
understood. -/
def includeFile (b : Below) (path : Text) (required weak : Bool) : MakeM Unit := do
  if Glob.hasMagic path then throw (.breach .undefinedName)
  update fun mk => { mk with included := mk.included ++ [(path, required)] }
  let full := Path.joinShort (← makefile).workdir path
  let w ← world
  if w.files.has w.cwd full then
    let stmts ← act (if weak then readDeps full else readFile full)
    listMakefile path
    b.execute weak stmts
    let name ← mention path
    onTarget name fun t => { t with explicit := true }

mutual

/-- Carry out a statement after which recipe lines go to the given rule. -/
def statement (b : Below) (weak : Bool) (current : CurrentRule) : Statement → MakeM CurrentRule
  | .rule ts ds dc => if weak then weakRule b ts ds dc current else rule b ts ds dc
  | .staticRule ts p ds dc =>
    if weak then throw (.refused .staticInDeps ts.loc) else staticRule b ts p ds dc
  | .command e => do
    command weak current e
    return current
  | .assign a => do
    assign b a
    return current
  | .block loc gs _ => groups b weak current loc 0 gs
  | .includes e required weakly => do
    (← words b e).forM fun f => includeFile b f required weakly
    return current
  | .vpath e => do
    vpath b e
    return current
  | .exports e assigned => do
    if assigned then setExport [← value b e] true
    else
      let ns ← words b e
      if ns.isEmpty then throw (.refused .exportAll e.loc)
      setExport ns true
    return current
  | .unexports e => do
    setExport (← words b e) false
    return current
  | .empty e => do
    if (← value b e).hasInk then throw (.refused .strayText e.loc)
    return current

/-- Carry out the first group whose condition is met; `i` counts groups. -/
def groups (b : Below) (weak : Bool) (current : CurrentRule) (loc : Location) (i : Nat) :
    List Group → MakeM CurrentRule
  | [] => return current
  | .mk c body :: rest => do
    if ← condition b c then
      log .debug ("Condition at " ++ loc.text ++ " met by clause #" ++ Text.ofNat i)
      statements b weak current body
    else groups b weak current loc (i + 1) rest

/-- Execute statements in order. -/
def statements (b : Below) (weak : Bool) (current : CurrentRule) :
    List Statement → MakeM CurrentRule
  | [] => return current
  | s :: rest => do
    let current ← statement b weak current s
    statements b weak current rest

end

end Execute

namespace Below

/-- What there is at the bottom: nothing can be done. -/
def bottom : Below where
  expand _ _ _ := throw (.breach .depth)
  execute _ _ := throw (.breach .depth)

/-- Evaluation that nests no deeper than a number. -/
def levels : Nat → Below
  | 0 => bottom
  | n + 1 =>
    { expand := fun sc setting e => Evaluate.expansion (levels n) sc setting e
      execute := fun weak stmts => discard (Execute.statements (levels n) weak .unset stmts) }

end Below

namespace MakeM

/-- What evaluation may use in a makefile. -/
def below : MakeM Below := return Below.levels (← makefile).depth

/-- The value of an expansion in a makefile. -/
def expand (sc : Scope) (setting : List Text) (e : Expansion) : MakeM Text := do
  Evaluate.expansion (← below) sc setting e

/-- Execute statements in a makefile. -/
def execute (weak : Bool) (stmts : List Statement) : MakeM Unit := do
  (← below).execute weak stmts

/-- Include a file in a makefile. -/
def includeFile (path : Text) (required weak : Bool) : MakeM Unit := do
  Execute.includeFile (← below) path required weak

end MakeM

end Rebuild
