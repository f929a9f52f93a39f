import Rebuild.Build.Make
/-!
# Runs

A run goes step by step. As long as there is something to do at once, a step does the first of
it. Otherwise the event loop goes on: the contexts in use are gathered; in turn, every one of them
does what waits in it; then the jobs that are done are reported, and when they have been answered
a new turn begins. Which jobs are done when, and which context comes first, is given by a schedule.

A complaint about a makefile ends what is being done up to the guard around it; every other error,
and a complaint without a guard, ends the run.
-/

namespace Rebuild

/-- What is beyond the control of a run: which jobs are done, and the order of the contexts. -/
structure Schedule where
  done : Nat → Bool
  order : List Nat → List Nat
  perm : ∀ contexts, (order contexts).Perm contexts

/-- A loop whose contexts in use are gone through as a schedule says. -/
def Schedule.arrange (schedule : Schedule) {τ κ : Type} (l : Loop τ κ) : Loop τ κ :=
  { l with live := schedule.order l.live }

namespace Run

/-- Do an action: what is to be done at once after it. -/
def perform : Action → RunM (List Frame)
  | .make b t stack reply avoidLoop report => do
    return (← RunM.makeTarget b t stack reply avoidLoop report).map .action
  | .resolve r => do return (← RunM.resolveAction r).map .action
  | .resolved r error did => do return (← RunM.resolved r error did).map .action
  | .startDep r dep weak => do return (← RunM.startDep r dep weak).map .action
  | .reply _ _ receiver error did => do return (← RunM.tell receiver error did).map .action
  | .recipe r => do return (← RunM.runRecipe r).map .action
  | .recipeDone b t error => do return (← RunM.recipeDone b t error).map .action
  | .nextLine r error => do return (← RunM.nextLine r error).map .action
  | .exit receiver code => do return (← RunM.exit receiver code).map .action
  | .start args env cwd receiver => RunM.startMake args env cwd receiver
  | .proceed m remade error => RunM.proceed m remade error
  | .parse m => do return (← RunM.parseMakefiles m).map .action

/-- What a guard does with a complaint. -/
def answer (e : Error) : Guard → RunM (List Frame)
  | .parse m => do
    RunM.print e.message
    RunM.exitLater m 2
    return []
  | .start level workdir printDir receiver => do
    RunM.print e.message
    if printDir then RunM.sayDirectory "Leaving" level workdir
    return [.action (.exit receiver 2)]

/-- End a run with an error. -/
def abort (s : Run) (e : Error) : Run := { s with stack := [], outcome := some (.error e) }

/-- Give up what is being done after an error, up to a guard if there is one for it. -/
def unwind (e : Error) : List Frame → Run → Run
  | [], s => s.abort e
  | .action _ :: rest, s => unwind e rest s
  | .guard g :: rest, s =>
    if e.isComplaint then
      match (answer e g).run s with
      | (.ok frames, s) => { s with stack := frames ++ rest }
      | (.error e, s) => unwind e rest s
    else unwind e rest s

/-- Do something at once, and then what follows from it. -/
def doNow (x : RunM (List Frame)) (rest : List Frame) (s : Run) : Run :=
  match x.run s with
  | (.ok frames, s) => { s with stack := frames ++ rest }
  | (.error e, s) => unwind e rest s

/-- Which of the running jobs that end are done; if the schedule names none, all are. -/
def doneAmong (s : Run) (schedule : Schedule) : Nat → Bool :=
  if s.loop.runningJobs.any fun r => s.loop.endingAmong schedule.done r.id then schedule.done
  else fun _ => true

/-- Report the jobs that are done. If no job ever ends, the run stands still. -/
def report (schedule : Schedule) (s : Run) : Run :=
  match (schedule.arrange s.loop).report (s.doneAmong schedule) with
  | ([], _) => s
  | (jobs, l) =>
    { s with
      loop := l
      stack := jobs.map fun j => .action (.exit j.answer j.code)
      phase := .gather }

/-- A step of the event loop. With nothing running something must be waiting. -/
def turn (schedule : Schedule) (s : Run) : Run :=
  match s.phase with
  | .gather => { s with phase := .turn (schedule.arrange s.loop).live }
  | .turn [] =>
    if s.loop.isBusy then report schedule s
    else if s.loop.isWaiting then { s with phase := .gather }
    else s.abort (.breach .assertion)
  | .turn (c :: rest) =>
    match s.loop.advance c s.world with
    | none => { s with phase := .turn rest }
    | some (todo, w, l) => { s with world := w, loop := l, stack := todo.toList.map .action }

/-- A step of a run; one that has ended stays as it is. -/
def step (schedule : Schedule) (s : Run) : Run :=
  match s.outcome with
  | some _ => s
  | none =>
    match s.stack with
    | .action a :: rest => doNow (perform a) rest s
    | .guard _ :: rest => { s with stack := rest }
    | [] => turn schedule s

/-- Go on for some steps, or until the end; the schedule may differ from step to step. -/
def steps (schedule : Nat → Schedule) : Nat → Run → Run
  | 0, s => s
  | n + 1, s =>
    match s.outcome with
    | some _ => s
    | none => steps schedule n (s.step (schedule n))

/-- Every job is done at once, and the contexts come in the order in which they were made. -/
def allDone : Nat → Schedule := fun _ => ⟨fun _ => true, id, fun _ => .refl _⟩

/-- A run that is about to start a make. -/
def init (w : World) (args : List Text) (env : Env) (cwd : Text) : Run where
  world := w
  loop := .empty
  makes := []
  builds := []
  stack := [.action (.start args env cwd .outside)]
  phase := .gather
  outcome := none

/-- How many steps a make may take here. -/
def stepLimit : Nat := 10000000

/-- Run a make with a command line, in an environment and a directory. -/
def make (w : World) (args : List Text) (env : Env) (cwd : Text) : Run :=
  (init w args env cwd).steps allDone stepLimit

end Run

end Rebuild
