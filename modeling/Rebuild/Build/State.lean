import Rebuild.Loop
import Rebuild.Options
import Rebuild.Recipe
/-!
# The state of a run

A run consists of makes: the one that was started, and those that its recipes start in the same
program. Each make reads its makefiles into a build and reads them again, into a new build, when
one of them was made anew. Within a build every target that is asked for is worked on once.

What is to be done is data (`Action`), also what is to be done after something else has
finished, so that a state of the run can be looked at as a whole.
-/

namespace Rebuild

/-- A rule of a target in a build: the numbers of build and rule, and the target. -/
structure RuleAt where
  build : Nat
  target : Text
  rule : Nat
deriving DecidableEq, Repr

/-- Who asks for a target: a rule, the makefiles or the goals. -/
inductive Reply where
  | dependent (r : RuleAt) (weak : Bool)
  | makefiles (build : Nat)
  | goals (make : Nat)
deriving DecidableEq, Repr

/-- Who is told the exit code of a command or of a make. -/
inductive ExitTo where
  /-- The one who started the program. -/
  | outside
  | recipe (r : RuleAt) (line : RecipeLine)

/-- What a run does in one step. -/
inductive Action where
  /-- Make a target, under a stack of targets. `avoidLoop` leaves out rules that would always run,
  and `report` tells that errors are printed. -/
  | make (build : Nat) (target : Text) (stack : List Text) (reply : Reply) (avoidLoop report : Bool)
  | resolve (r : RuleAt)
  | resolved (r : RuleAt) (error didAnything : Bool)
  | startDep (r : RuleAt) (dep : Text) (weak : Bool)
  /-- Tell that a target of a build is done. -/
  | reply (build : Nat) (target : Text) (receiver : Reply) (error didAnything : Bool)
  | recipe (r : RuleAt)
  | recipeDone (build : Nat) (target : Text) (error : Bool)
  | nextLine (r : RuleAt) (error : Bool)
  | exit (receiver : ExitTo) (code : Int)
  /-- Start a make with a command line in an environment and a directory. -/
  | start (args : List Text) (env : Env) (cwd : Text) (receiver : ExitTo)
  /-- Go on with a make after its makefiles were made anew, or not. -/
  | proceed (make : Nat) (remade : Bool) (error : Option Error)
  | parse (make : Nat)

/-- A complaint about a makefile ends what is being done up to the nearest guard. -/
inductive Guard where
  | parse (make : Nat)
  /-- Starting a make at a level in a directory. -/
  | start (level : Int) (workdir : Text) (printDir : Bool) (receiver : ExitTo)

/-- A rule of a target that is being worked on. -/
structure RuleWork where
  /-- The rule; a target may have prerequisites without having one with a recipe. -/
  rule : Option RuleRef
  deps : List (Text × Bool)
  stack : List Text
  avoidLoop : Bool
  running : Bool
  error : Bool
  /-- How many prerequisites are not done, and one more before they are begun. -/
  depsLeft : Nat
  /-- A weak prerequisite could not be made. -/
  remake : Bool
  didAnything : Bool
  /-- The prerequisites still to be made one by one. -/
  queue : List (Text × Bool)
  lines : List RecipeLine

/-- Whether a target is being made or done. -/
inductive Progress where
  | working
  | finished
deriving DecidableEq, Repr

/-- The work on a target. -/
structure Work where
  progress : Progress
  replies : List Reply
  error : Bool
  didAnything : Bool
  serial : Bool
  indent : Text
  rules : List RuleWork
  /-- The numbers of the rules still to be run. -/
  order : List Nat
  /-- How many rules wait for their prerequisites. -/
  remaining : Nat
  busy : Bool

/-- Works with a new one for a target, in the place of the old one or at the end. -/
def putWork (target : Text) (w : Work) : List (Text × Work) → List (Text × Work)
  | [] => [(target, w)]
  | p :: rest => if p.1 == target then (target, w) :: rest else p :: putWork target w rest

/-- The makefiles of a make as they were read once. -/
structure Build where
  make : Nat
  /-- The context in which targets are made. -/
  context : Nat
  makefile : Makefile
  works : List (Text × Work)
  failed : Bool
  included : List (Text × Bool)
  /-- Those that are still to be made anew. -/
  toRemake : List (Text × Bool)
  required : Bool

/-- A make: how it was called and what it still has to do. -/
structure Make where
  options : Options
  flags : Text
  level : Int
  workdir : Text
  context : Nat
  env : Env
  arguments : Arguments
  goals : List Text
  stack : List Text
  receiver : ExitTo
  restarts : Nat
  build : Nat

/-- Where a run stands when nothing is being done. -/
inductive Phase where
  /-- The contexts in use are to be gathered, and a new turn begins. -/
  | gather
  /-- The contexts whose queues are still to be worked on in this turn. -/
  | turn (contexts : List Nat)
deriving DecidableEq, Repr

/-- How a run ends. -/
inductive Outcome where
  | exit (code : Int)
  | error (e : Error)

/-- What is being done: actions, and the guards around them. -/
inductive Frame where
  | action (a : Action)
  | guard (g : Guard)

/-- The state of a run. -/
structure Run where
  world : World
  loop : Loop Action ExitTo
  makes : List Make
  builds : List Build
  stack : List Frame
  phase : Phase
  outcome : Option Outcome

/-- Work on a run; what was done before a failure stays. -/
abbrev RunM := ExceptT Error (StateM Run)

namespace RunM

/-- The build of a number. -/
def build (b : Nat) : RunM Build := do
  match (← get).builds[b]? with
  | some x => return x
  | none => throw (.breach .key)

/-- Change a build. -/
def onBuild (b : Nat) (f : Build → Build) : RunM Unit :=
  modify fun s => { s with builds := s.builds.modify b f }

/-- The make of a number. -/
def make (m : Nat) : RunM Make := do
  match (← get).makes[m]? with
  | some x => return x
  | none => throw (.breach .key)

/-- Change a make. -/
def onMake (m : Nat) (f : Make → Make) : RunM Unit :=
  modify fun s => { s with makes := s.makes.modify m f }

/-- Change the world. -/
def onWorld (f : World → World) : RunM Unit := modify fun s => { s with world := f s.world }

/-- Print a line. -/
def print (s : Text) : RunM Unit := onWorld (·.print s)

/-- Run a program that works on the world. -/
def act {α : Type} (x : WorldM α) : RunM α := do
  let s ← get
  let (r, w) := x.run s.world
  set { s with world := w }
  ofExcept r

/-- Run a program that works on the makefile of a build. -/
def onMakefile {α : Type} (b : Nat) (x : MakeM α) : RunM α := do
  let mk := (← build b).makefile
  let s ← get
  let (r, session) := x.run ⟨s.world, mk⟩
  set { s with world := session.world }
  onBuild b fun x => { x with makefile := session.makefile }
  ofExcept r

/-- The work on a target, if it was begun. -/
def work? (b : Nat) (target : Text) : RunM (Option Work) := return (← build b).works.lookup target

/-- The work on a target. -/
def work (b : Nat) (target : Text) : RunM Work := do
  match ← work? b target with
  | some w => return w
  | none => throw (.breach .part)

/-- Set the work on a target. -/
def setWork (b : Nat) (target : Text) (w : Work) : RunM Unit :=
  onBuild b fun x => { x with works := putWork target w x.works }

/-- Change the work on a target. -/
def onWork (b : Nat) (target : Text) (f : Work → Work) : RunM Unit := do
  setWork b target (f (← work b target))

/-- The work on a rule. -/
def ruleWork (r : RuleAt) : RunM RuleWork := do
  match (← work r.build r.target).rules[r.rule]? with
  | some x => return x
  | none => throw (.breach .part)

/-- Change the work on a rule. -/
def onRule (r : RuleAt) (f : RuleWork → RuleWork) : RunM Unit :=
  onWork r.build r.target fun w => { w with rules := w.rules.modify r.rule f }

/-- Put something into the queue of a context. -/
def deferIn (c : Nat) (p : Pending Action ExitTo) : RunM Unit := do
  let s ← get
  set { s with loop := ← ofExcept (s.loop.defer c p) }

/-- Put an action into the queue of a build. -/
def defer (b : Nat) (a : Action) : RunM Unit := do
  deferIn (← build b).context (.task a)

/-- What is known of a target. -/
def target (b : Nat) (name : Text) : RunM Target := return (← build b).makefile.targetAt name

/-- Does a build go on after an error? -/
def keepsGoing (b : Nat) : RunM Bool := return (← build b).makefile.habits.keepGoing

end RunM

end Rebuild
