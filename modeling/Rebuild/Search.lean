import Rebuild.Makefile.Start
/-!
# Search for files and rules

A target is looked for as a file, under its own name and along the search path. A target without
a recipe is given a pattern rule: first one whose prerequisites are mentioned or exist, then one
whose prerequisites can be made by pattern rules in turn. A chain of pattern rules uses none
twice, and a chain of targets none twice.
-/

namespace Rebuild

namespace MakeM

/-- The blanks in front of remarks about a target under a stack of targets. -/
def indentOf (stack : List Text) : Text := Text.copies (stack.length - 1) ' '

/-- Note the file of a target. -/
def setFound (name file : Text) (time : Option Time) : MakeM Unit :=
  onTarget name fun t => { t with found := some file, mtime := some time }

/-- The first of some paths at which there is a file. -/
def firstFile (paths : List Text) : MakeM (Option (Text × Time)) := do
  let w ← world
  let mk ← makefile
  return paths.findSome? fun p =>
    (w.files.mtime? w.cwd ((Path.joinShort mk.workdir p).replaceChar '\\' '/')).map (p, ·)

/-- The names of a library in directories, by the patterns of library names. -/
def libraryPaths (stem : Text) (dirs : List Text) (p : Pattern) : List Text :=
  dirs.map fun d => (Path.joinShort d (p.resolve [] stem)).replaceChar '\\' '/'

/-- Look for a library; every pattern must have a stem. -/
def findLibrary (stem : Text) (dirs : List Text) : List Pattern → MakeM (Option (Text × Time))
  | [] => return none
  | p :: rest => do
    if !p.isPattern then throw (.refused .libPatterns none)
    match ← libraryFile (libraryPaths stem dirs p) with
    | some found => return some found
    | none => findLibrary stem dirs rest
where
  libraryFile (paths : List Text) : MakeM (Option (Text × Time)) := do
    let w ← world
    let mk ← makefile
    return paths.findSome? fun p =>
      (w.files.mtime? w.cwd (Path.joinShort mk.workdir p)).map (p, ·)

/-- The patterns for the names of libraries. -/
def libraryPatterns : MakeM (List Pattern) := do
  match ← onScopes (ScopeM.lookup [.global] ".LIBPATTERNS") with
  | none => return []
  | some v =>
    let s ← expand .global [] v.value
    s.words.mapM fun p => ofExcept (Pattern.parse (Path.stripDotSlash p))

/-- The paths at which a target may be. -/
def searchPaths (name : Text) : MakeM (List Text) := do
  if Path.isAbsolute name then return [name]
  let dirs ← ofExcept ((← makefile).searchPath name)
  return name :: dirs.map fun d => (Path.joinShort d name).replaceChar '\\' '/'

/-- Look for the file of a target, unless that was done. -/
def findFile (name : Text) : MakeM Unit := do
  if (← targetAt name).found.isSome then return
  if ← isPhony name then
    setFound name name none
    return
  let libs ← if name.startsWith "-l" then libraryPatterns else pure []
  let found ← if libs.isEmpty then do firstFile (← searchPaths name)
    else do
      let dirs ← ofExcept ((← makefile).searchPath name)
      findLibrary (name.drop 2) ([] :: dirs) libs
  match found with
  | some (file, time) => setFound name file (some time)
  | none => setFound name name none

/-- A pattern rule that fits a target. -/
structure Candidate where
  id : Nat
  fit : Fit

/-- The candidate as a rule. -/
def Candidate.ref (c : Candidate) : RuleRef := .fitted c.id c.fit

/-- The pattern rules that fit a target and may be used: they have a recipe and are not in the
chain that led here. -/
def candidates (name : Text) (indent : Text) (chain : List Nat) : MakeM (List Candidate) := do
  let mk ← makefile
  let (dir, slash, file) := name.partitionLast ['/']
  let specific := mk.implicit.any fun id => (mk.patternRuleAt id).isSpecific file
  let found ← mk.implicit.mapM fun id => do
    let r := mk.patternRuleAt id
    if chain.contains id then
      log .info
        (indent ++ [' '] ++ Location.optionText r.loc ++ ": Avoiding implicit rule recursion")
      return []
    else if r.commands.isEmpty then return []
    else return (r.fits (dir ++ slash) file specific).map (Candidate.mk id)
  return found.flatten

/-- The first of some prerequisites that is neither mentioned by name nor there. -/
def firstAbsent : List Text → MakeM (Option Text)
  | [] => return none
  | p :: rest => do
    let name ← mention p
    findFile name
    let t ← targetAt name
    if !t.explicit && (← ofExcept t.time).isNone then return some p
    firstAbsent rest

/-- Give a rule to a target. -/
def takeRule (name indent : Text) (c : Candidate) : MakeM Unit := do
  let mk ← makefile
  log .info (indent ++ "Found implicit rule at " ++ Location.optionText (mk.locOf c.ref)
    ++ " for target '" ++ name ++ "'")
  onTarget name fun t => { t with rules := t.rules ++ [c.ref] }

/-- Take the first candidate whose prerequisites are mentioned or there. If there is none, the
candidates that are not terminal are left. -/
def takeDirect (name indent : Text) : List Candidate → MakeM (Option (List Candidate))
  | [] => return some []
  | c :: rest => do
    let mk ← makefile
    match ← firstAbsent (mk.prereqs c.ref) with
    | none =>
      takeRule name indent c
      return none
    | some p =>
      if mk.doubleColon c.ref then
        log .info (indent ++ " Terminal rule at " ++ Location.optionText (mk.locOf c.ref)
          ++ " doesn't match: prerequisite '" ++ p ++ "' not mentioned and doesn't exist.")
        takeDirect name indent rest
      else return (← takeDirect name indent rest).map (c :: ·)

/-- How targets are resolved one level down: name, stack of targets, chain of pattern rules. -/
abbrev Resolver := Text → List Text → List Nat → MakeM Unit

/-- The first of some prerequisites that cannot be made. -/
def firstFailing (resolve : Resolver) (stack : List Text) (chain : List Nat) :
    List Text → MakeM (Option Text)
  | [] => return none
  | p :: rest => do
    let name ← mention p
    let failed ← tryCatch (do resolve name stack chain; return false) fun
      | .unresolved _ => return true
      | e => throw e
    if failed then return some p
    firstFailing resolve stack chain rest

/-- Take the first candidate whose prerequisites can be made; tell whether there was one. -/
def takeChained (resolve : Resolver) (name indent : Text) (stack : List Text) (chain : List Nat) :
    List Candidate → MakeM Bool
  | [] => return false
  | c :: rest => do
    let mk ← makefile
    match ← firstFailing resolve stack (chain ++ [c.id]) (mk.prereqs c.ref) with
    | none =>
      takeRule name indent c
      return true
    | some p =>
      log .info (indent ++ " Rule at " ++ Location.optionText (mk.locOf c.ref)
        ++ " doesn't match: prerequisite '" ++ p ++ "' could not be made.")
      takeChained resolve name indent stack chain rest

/-- Look for a pattern rule for a target. -/
def findRule (resolve : Resolver) (name : Text) (stack : List Text) (chain : List Nat) :
    MakeM Unit := do
  let indent := indentOf stack
  log .info (indent ++ "Searching for implicit rule to make '" ++ name ++ "'")
  match ← takeDirect name indent (← candidates name indent chain) with
  | none => return
  | some left =>
    if !(← takeChained resolve name indent stack chain left) then
      log .info (indent ++ "Couldn't find implicit rule to remake '" ++ name ++ "'")

/-- Resolve the prerequisites of a target that are not mentioned by name. -/
def resolvePrereqs (resolve : Resolver) (name : Text) (stack : List Text) (chain : List Nat) :
    MakeM Unit := do
  (← targetAt name).rules.forM fun r => do
    ((← makefile).prereqs r).forM fun p => do
      let dep ← mention p
      if !(← targetAt dep).explicit then resolve dep stack chain

/-- Take over the variables of the patterns that a target matches. -/
def mergePatterns (name : Text) : MakeM Unit := do
  ((← makefile).patternsFor name).forM fun p => do
    let t := (← makefile).scopes.table (.pattern p)
    onScopes (ScopeM.merge (.target name) [.global] t)

/-- Find the file of a target and, if it has no recipe, a pattern rule; with `deep` also resolve its
prerequisites. The target must not be on the stack. -/
def searchFor (resolve : Resolver) (deep : Bool) (name : Text) (stack : List Text)
    (chain : List Nat) : MakeM Unit := do
  if !(← makefile).finished then throw (.breach .assertion)
  if stack.contains name then throw (.unresolved (.cycle stack name))
  let stack := stack ++ [name]
  log .info (indentOf stack ++ "Considering target '" ++ name ++ "'")
  findFile name
  let mk ← makefile
  let t := mk.targetAt name
  let recipes := mk.recipeCount t
  match t.rules with
  | r :: _ =>
    if !mk.doubleColon r && 1 < recipes then throw (.refused (.manyRecipes name) none)
  | [] => pure ()
  if recipes == 0 then findRule resolve name stack chain
  let t ← targetAt name
  if t.rules.isEmpty && (← ofExcept t.time).isNone then throw (.unresolved (.noRule name stack))
  if deep then resolvePrereqs resolve name stack chain

/-- Resolve a target: search for it, and take over the variables of patterns. `fuel` bounds how deep
this goes. -/
def resolveTo (fuel : Nat) (deep : Bool) (name : Text) (stack : List Text) (chain : List Nat) :
    MakeM Unit :=
  match fuel with
  | 0 => throw (.breach .depth)
  | fuel + 1 => do
    searchFor (resolveTo fuel true) deep name stack chain
    mergePatterns name

/-- Look for the files and rules of a target. -/
def resolve (name : Text) (stack : List Text) (deep : Bool) : MakeM Unit := do
  resolveTo (← makefile).depth deep name stack []

end MakeM

end Rebuild
