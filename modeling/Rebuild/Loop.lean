import Rebuild.Native.Job
/-!
# The event loop

Work waits in contexts. A context has a queue of what is to be done, first come first served, and
the jobs that it has started; it takes from the queue as long as fewer jobs run than it allows. A
context for one job at a time never has more than one thing waiting. Jobs that are done are
reported together, context by context.

What waits is of a type `τ`, and what a finished job is answered with of a type `κ`.
-/

namespace Rebuild

/-- Run a job: its exit code, if it ever ends. It is announced before, and nothing else happens if
it is only to be printed. -/
def Job.start (job : Job) (echo : Option Text) (justPrint : Bool) (w : World) :
    World × Option Int :=
  let w := match echo with
    | some s => w.print s
    | none => w
  if justPrint then (w, some 0) else job.run w

/-- What waits in a queue. -/
inductive Pending (τ κ : Type) where
  | task (t : τ)
  /-- A job to be started; its exit code goes to `answer`. -/
  | launch (job : Job) (answer : κ) (echo : Option Text) (justPrint : Bool)

/-- A job that was started, under its number. -/
structure Running (κ : Type) where
  id : Nat
  /-- The exit code; without one the job never ends. -/
  ending : Option Int
  answer : κ

/-- The exit code of a job that ends. -/
def Running.code {κ : Type} (r : Running κ) : Int := r.ending.getD 0

/-- A context: how many jobs may run, its queue, and the jobs that run. -/
structure Context (τ κ : Type) where
  jobs : Int
  pending : List (Pending τ κ)
  running : List (Running κ)

/-- All contexts that were ever made, which of them are in use, which are the shared ones, and
how many jobs were started. -/
structure Loop (τ κ : Type) where
  contexts : List (Context τ κ)
  live : List Nat
  serial : Option Nat
  parallel : Option Nat
  started : Nat

namespace Loop

variable {τ κ : Type}

/-- A loop without contexts. -/
def empty : Loop τ κ := ⟨[], [], none, none, 0⟩

/-- A context by its number; one that was never made has nothing to do. -/
def context (l : Loop τ κ) (c : Nat) : Context τ κ := l.contexts.getD c ⟨1, [], []⟩

/-- Change a context. -/
def modify (l : Loop τ κ) (c : Nat) (f : Context τ κ → Context τ κ) : Loop τ κ :=
  { l with contexts := l.contexts.modify c f }

/-- Make a context. -/
def new (l : Loop τ κ) (jobs : Int) : Loop τ κ × Nat :=
  let c := l.contexts.length
  ({ l with contexts := l.contexts ++ [⟨jobs, [], []⟩], live := l.live ++ [c] }, c)

/-- The shared context for a number of jobs. All contexts for several jobs are one, which has the
number that was asked for first. -/
def shared (l : Loop τ κ) (jobs : Int) : Loop τ κ × Nat :=
  if jobs == 1 then
    match l.serial with
    | some c => (l, c)
    | none => let (l, c) := l.new jobs; ({ l with serial := some c }, c)
  else
    match l.parallel with
    | some c => (l, c)
    | none => let (l, c) := l.new jobs; ({ l with parallel := some c }, c)

/-- May something more wait in a context? Where one job runs at a time, nothing else may be
waiting. -/
def hasRoom (l : Loop τ κ) (c : Nat) : Bool :=
  (l.contexts[c]?).any fun x => 1 < x.jobs || x.pending.isEmpty

/-- Put something into the queue of a context that has room. -/
def defer (l : Loop τ κ) (c : Nat) (p : Pending τ κ) : Except Error (Loop τ κ) :=
  if l.hasRoom c then .ok (l.modify c fun x => { x with pending := x.pending ++ [p] })
  else .error (.breach .assertion)

/-- Take the first thing from the queue of a context, if a job may run. -/
def next (l : Loop τ κ) (c : Nat) : Option (Pending τ κ × Loop τ κ) :=
  let x := l.context c
  match x.pending with
  | [] => none
  | p :: rest =>
    if (x.running.length : Int) < x.jobs then
      some (p, l.modify c fun x => { x with pending := rest })
    else none

/-- Start a job in a context, under the next number. -/
def launch (l : Loop τ κ) (c : Nat) (w : World) (job : Job) (answer : κ) (echo : Option Text)
    (justPrint : Bool) : World × Loop τ κ :=
  let (w, ending) := job.start echo justPrint w
  let job := ⟨l.started, ending, answer⟩
  (w, { l.modify c fun x => { x with running := x.running ++ [job] } with
    started := l.started + 1 })

/-- Do what comes first in the queue of a context, if a job may run: a job is started, a task is
given back. -/
def advance (l : Loop τ κ) (c : Nat) (w : World) : Option (Option τ × World × Loop τ κ) :=
  match l.next c with
  | none => none
  | some (.task t, l) => some (some t, w, l)
  | some (.launch job answer echo justPrint, l) =>
    some (none, l.launch c w job answer echo justPrint)

/-- Does a job run? -/
def isBusy (l : Loop τ κ) : Bool := l.live.any fun c => !(l.context c).running.isEmpty

/-- Does anything wait? -/
def isWaiting (l : Loop τ κ) : Bool := l.live.any fun c => !(l.context c).pending.isEmpty

/-- The jobs that run in the contexts in use. -/
def runningJobs (l : Loop τ κ) : List (Running κ) := l.live.flatMap fun c => (l.context c).running

/-- Those of some job numbers that no job has which never ends. -/
def endingAmong (l : Loop τ κ) (done : Nat → Bool) (i : Nat) : Bool :=
  done i && l.runningJobs.all fun r => r.id != i || r.ending.isSome

/-- Take jobs out of a context by their numbers. -/
def withdraw (jobs : List (Running κ)) (x : Context τ κ) : Context τ κ :=
  { x with running := x.running.filter fun r => !jobs.any (·.id == r.id) }

/-- The jobs of a context that are done join those that were found before; then whatever was found
leaves the context. -/
def collect (done : Nat → Bool) (found : List (Running κ) × Loop τ κ) (c : Nat) :
    List (Running κ) × Loop τ κ :=
  let jobs := found.1 ++ (found.2.context c).running.filter fun r => done r.id
  (jobs, found.2.modify c (withdraw jobs))

/-- Take the jobs that are done out of the contexts in use, one context after the other. -/
def report (l : Loop τ κ) (done : Nat → Bool) : List (Running κ) × Loop τ κ :=
  l.live.foldl (collect (l.endingAmong done)) ([], l)

/-- Give up a context, which must have nothing left to do and be in use. -/
def finish (l : Loop τ κ) (c : Nat) : Except Error (Loop τ κ) :=
  let x := l.context c
  if !x.pending.isEmpty || !x.running.isEmpty then .error (.breach .assertion)
  else if l.live.contains c then .ok { l with live := l.live.filter (· != c) }
  else .error (.breach .key)

end Loop

/-- Work on a loop in its world; what was done before a failure stays. -/
abbrev LoopM (τ κ : Type) := ExceptT Error (StateM (World × Loop τ κ))

namespace LoopM

variable {τ κ : Type}

/-- Put something into the queue of a context. -/
def defer (c : Nat) (p : Pending τ κ) : LoopM τ κ Unit := do
  let (w, l) ← get
  set (w, ← ofExcept (l.defer c p))

/-- Do what waits in a context, as long as its jobs allow; `fuel` bounds how much. -/
def drain (exec : τ → LoopM τ κ Unit) (c : Nat) : Nat → LoopM τ κ Unit
  | 0 => return
  | fuel + 1 => do
    let (w, l) ← get
    match l.advance c w with
    | none => return
    | some (todo, w, l) =>
      set (w, l)
      todo.forM exec
      drain exec c fuel

end LoopM

end Rebuild
