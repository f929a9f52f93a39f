import Rebuild.Build.Target
/-!
# Makes

How a make goes: its options are read, then its makefiles, which are made anew if they have rules
and then read again; then its goals are made one after the other, and its exit code is told.
Recipe lines are started here too, since a line may start a make in the same program.
-/

namespace Rebuild

namespace RunM

/-- The program that interprets the make program. -/
def interpreter : Text := "/usr/bin/python"

/-- The file of the make program. -/
def program : Text := "/pymake/make.py"

/-- How deep evaluations may nest. -/
def depthLimit : Nat := 1000

/-- What is printed for a request of the version. -/
def versionText : Text :=
  Text.join ['\n'] (([
    "pymake: GNU-compatible make program",
    "Copyright (C) 2009 The Mozilla Foundation <http://www.mozilla.org/>",
    "This is free software; see the source for copying conditions.",
    "THE SOFTWARE IS PROVIDED \x22AS IS\x22, WITHOUT WARRANTY OF ANY KIND, EXPRESS OR",
    "IMPLIED, INCLUDING BUT NOT LIMITED TO THE WARRANTIES OF MERCHANTABILITY,",
    "FITNESS FOR A PARTICULAR PURPOSE AND NONINFRINGEMENT. IN NO EVENT SHALL THE",
    "AUTHORS OR COPYRIGHT HOLDERS BE LIABLE FOR ANY CLAIM, DAMAGES OR OTHER",
    "LIABILITY, WHETHER IN AN ACTION OF CONTRACT, TORT OR OTHERWISE, ARISING",
    "FROM, OUT OF OR IN CONNECTION WITH THE SOFTWARE OR THE USE OR OTHER",
    "DEALINGS IN THE SOFTWARE."] : List String).map String.toList)

/-- A make says which directory it enters or leaves. -/
def sayDirectory (verb : Text) (level : Int) (workdir : Text) : RunM Unit :=
  print ("make.py[" ++ Text.ofInt level ++ "]: " ++ verb ++ " directory '" ++ workdir ++ "'")

/-- Write a remark on what is run. -/
def remarkMake (message : Text) : RunM Unit := onWorld (·.log .info .execution message)

/-- Refuse options: say how they are used, and end the program. -/
def refuseOptions {α : Type} (f : OptionFault) : RunM α := do
  onWorld (·.printErr ("Usage: make.py [options]\n\nmake.py: error: " ++ f.message))
  throw (.exit 2)

/-- The options and arguments of a make, from the flags passed on and the command line. -/
def readOptions (args : List Text) (env : Env) : RunM (Options × List Text) := do
  match Options.ofFlags ((env.get? "MAKEFLAGS").getD []) with
  | .error e =>
    print e.message
    throw (.breach .unsetName)
  | .ok words =>
    match Options.default.read words with
    | .error f => refuseOptions f
    | .ok (o, first) =>
      match o.read args with
      | .error f => refuseOptions f
      | .ok (o, more) => if o.help then throw (.exit 0) else return (o, first ++ more)

/-- Direct remarks as a make asks, unless that was done before. -/
def configureLog (o : Options) : RunM Unit :=
  onWorld fun w =>
    match w.logging with
    | .bare =>
      let level : Level := if o.verbose then .debug else .warning
      { w with logging := .configured level (o.debugLog.filter (!·.isEmpty)) }
    | _ => w

/-- The shared context for a number of jobs; none can be made for less than one. -/
def sharedContext (jobs : Int) : RunM Nat := do
  let s ← get
  if jobs < 1 && s.loop.parallel.isNone then throw (.breach .value)
  else
    let (l, c) := s.loop.shared jobs
    set { s with loop := l }
    return c

/-- Begin a make with its options and its environment. -/
def startMake (args : List Text) (env : Env) (cwd : Text) (receiver : ExitTo) :
    RunM (List Frame) := do
  let level ← match ((env.get? "MAKELEVEL").getD ['0']).readInt? with
    | some n => pure n
    | none => throw (.breach .value)
  let (o, arguments) ← readOptions args env
  if o.version then
    print versionText
    return [.action (.exit receiver 0)]
  let flags := o.flags
  let o := if o.silent then { o with printDir := false } else o
  let workdir := match o.directory with
    | none => cwd
    | some d => Path.joinShort cwd d
  configureLog o
  let c ← sharedContext o.jobs
  if o.printDir then sayDirectory "Entering" level workdir
  let w := (← get).world
  let usual := w.files.has w.cwd (Path.joinShort workdir "Makefile")
  if o.makefiles.isEmpty && !usual then
    print "No makefile found"
    return [.action (.exit receiver 2)]
  let o := if o.makefiles.isEmpty then { o with makefiles := ["Makefile"] } else o
  let parsed := Arguments.parse arguments
  let m := (← get).makes.length
  let fresh : Make := ⟨o, flags, level, workdir, c, env, parsed, parsed.goals, [], receiver, 0, 0⟩
  modify fun s => { s with makes := s.makes ++ [fresh] }
  return [.action (.proceed m true none), .guard (.start level workdir o.printDir receiver)]

/-- A new build of a make, of which nothing was read. -/
def newBuild (m : Nat) : RunM Unit := do
  let x ← make m
  let s ← get
  let config : Config :=
    { workdir := some x.workdir, env := x.env, restarts := x.restarts,
      make := some (interpreter ++ [' '] ++ program), flags := x.flags,
      overrides := x.arguments.overrides, level := x.level, goals := x.goals,
      habits := ⟨x.options.keepGoing, x.options.silent, x.options.justPrint⟩,
      depth := depthLimit }
  let b := s.builds.length
  let fresh : Build := ⟨m, x.context, .blank s.world.cwd config, [], false, [], [], false⟩
  set { s with builds := s.builds ++ [fresh] }
  onMakefile b (MakeM.start config)
  onMake m fun x => { x with build := b, restarts := x.restarts + 1 }

/-- What became of the makefiles that were to be made anew. -/
def remadeOutcome (b : Nat) : List (Text × Bool) → RunM (Bool × Option Error)
  | [] => return (false, none)
  | (name, required) :: rest => do
    let t ← target b name
    if t.remade then
      remark ("Included file " ++ name ++ " was remade, restarting make")
      return (true, none)
    if required && (← ofExcept t.time).isNone then
      return (false, some (.refused (.missingInclude name) none))
    remadeOutcome b rest

/-- Make the next makefile, or go on when all are made. -/
def remakeNext (b : Nat) (error : Bool) : RunM (List Action) := do
  let x ← build b
  if error && x.required then return [.proceed x.make false (some .requiredIncludes)]
  if error then print "Error remaking makefiles (ignored)"
  match x.toRemake with
  | (name, required) :: rest =>
    onBuild b fun x => { x with toRemake := rest, required := required }
    return [.make b name [] (.makefiles b) true false]
  | [] =>
    let (remade, error) ← remadeOutcome b x.included
    return [.proceed x.make remade error]

/-- Read the makefiles of a make and look which can be made. -/
def parseMakefiles (m : Nat) : RunM (List Action) := do
  let x ← make m
  let b := x.build
  onMakefile b do
    MakeM.execute false x.arguments.statements
    x.options.makefiles.forM fun f => MakeM.includeFile f true false
  onMakefile b MakeM.finish
  if (← build b).makefile.notParallel then
    let c ← sharedContext 1
    onBuild b fun y => { y with context := c }
  let included ← onMakefile b do
    (← MakeM.makefile).included.mapM fun (f, required) => do
      let name ← MakeM.mention f
      MakeM.onTarget name fun t => { t with explicit := true }
      MakeM.findFile name
      return (name, required)
  onBuild b fun y => { y with included := included, toRemake := included }
  remakeNext b false

/-- A make ends by a task of its own. -/
def exitLater (m : Nat) (code : Int) : RunM Unit := do
  let x ← make m
  deferIn x.context (.task (.exit x.receiver code))

/-- Make the next goal, or end when all are made. -/
def nextGoal (m : Nat) : RunM (List Action) := do
  let x ← make m
  match x.goals with
  | goal :: rest =>
    onMake m fun x => { x with goals := rest }
    let name ← onMakefile x.build (MakeM.mention goal)
    return [.make x.build name x.stack (.goals m) false true]
  | [] =>
    if x.options.printDir then sayDirectory "Leaving" x.level x.workdir
    exitLater m 0
    return []

/-- Begin with the goals of a make: those of the command line, or the default one. -/
def beginGoals (m : Nat) : RunM (List Action) := do
  let x ← make m
  if x.goals.isEmpty then
    match (← build x.build).makefile.defaultTarget with
    | none =>
      print "No target specified and no default target found."
      exitLater m 2
      return []
    | some goal =>
      remarkMake ("Making default target " ++ goal)
      onMake m fun x => { x with goals := [goal], stack := ["<default-target>"] }
      nextGoal m
  else
    onMake m fun x => { x with stack := ["<command-line>"] }
    nextGoal m

/-- Go on with a make: end it after an error, read its makefiles if they are new, else make its
goals. -/
def proceed (m : Nat) (remade : Bool) (error : Option Error) : RunM (List Frame) := do
  match error with
  | some e =>
    print e.message
    exitLater m 2
    return []
  | none =>
    if remade then
      let x ← make m
      if 0 < x.restarts then
        remarkMake ("make.py[" ++ Text.ofInt x.level ++ "]: Restarting makefile parsing")
      newBuild m
      return [.action (.parse m), .guard (.parse m)]
    else return (← beginGoals m).map .action

/-- Whoever asked for a target goes on. -/
def tell (receiver : Reply) (error didAnything : Bool) : RunM (List Action) := do
  match receiver with
  | .dependent r weak => depDone r weak error didAnything
  | .makefiles b => remakeNext b error
  | .goals m =>
    if error then
      exitLater m 2
      return []
    else nextGoal m

/-- Whoever runs something is told its exit code. -/
def exit (receiver : ExitTo) (code : Int) : RunM (List Action) := do
  match receiver with
  | .outside =>
    modify fun s => { s with outcome := some (.exit code) }
    return []
  | .recipe r line =>
    if code != 0 && !line.ignore then
      print (Location.optionText line.loc ++ ": command '" ++ line.line
        ++ "' failed, return code " ++ Text.ofInt code)
      return [.nextLine r true]
    else return [.nextLine r false]

/-- Put a call of a native command into the queue. -/
def startNative (r : RuleAt) (line : RecipeLine) (path : Option (List Text)) : RunM Unit := do
  let x ← build r.build
  let cwd := x.makefile.workdir
  let w := (← get).world
  match ← ofExcept (CommandLine.split w.files w.cwd line.line cwd) with
  | .shell c => throw (.refused (.nativeSpecial line.line [c]) line.loc)
  | .argv (library :: name :: args) =>
    deferIn x.context (.launch (.native library name args line.env cwd (path.getD []))
      (.recipe r line) line.echo x.makefile.habits.justPrint)
  | .argv _ => throw (.refused (.nativeMethod line.line) line.loc)

/-- Start a recipe line: a native command, a make in this program, or a process. A line without
words is done. -/
def startLine (r : RuleAt) (line : RecipeLine) : RunM (List Action) := do
  match line.native with
  | some path =>
    startNative r line path
    return []
  | none =>
    let x ← build r.build
    let cwd := x.makefile.workdir
    let launch ← act (CommandLine.prepare line.line cwd line.loc)
    let receiver : ExitTo := .recipe r line
    let direct : RunM (List Action) := do
      deferIn x.context (.launch (.process launch line.env cwd) receiver line.echo
        x.makefile.habits.justPrint)
      return []
    match launch.argv with
    | [] => return [.exit receiver 0]
    | first :: rest =>
      if first == program then return [.start rest line.env cwd receiver]
      match rest with
      | second :: args =>
        if first == interpreter && second == program then return [.start args line.env cwd receiver]
        else direct
      | [] => direct

/-- Begin the next line of a recipe. -/
def nextLine (r : RuleAt) (error : Bool) : RunM (List Action) := do
  if error then return [.recipeDone r.build r.target true]
  match (← ruleWork r).lines with
  | [] => return [.recipeDone r.build r.target false]
  | line :: rest =>
    onRule r fun x => { x with lines := rest }
    startLine r line

end RunM

end Rebuild
