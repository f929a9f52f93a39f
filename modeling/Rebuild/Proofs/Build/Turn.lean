import Rebuild.Proofs.Build.Operations
/-!
# Turns of a target

The work on a target goes in turns. What keeps it going are threads: a rule to be seen to, a
prerequisite that was asked for, a recipe to be run, a command that runs. Whatever waits, runs or
is being done carries exactly one thread, of the target it belongs to or of the make that it will
answer to (`Post`). An action on a target takes up one thread of it, changes the work on that
target and no other, and leaves new threads, in what is to be done at once and in what is put into
the queue (`Turn`). Everything that the rest of the theory says about the course of a build is
derived from these turns.
-/

namespace Rebuild

variable {v v' : View} {b : Nat} {t : Text} {a : Action} {now : List Action}

/-- Something that is under way for a rule or a target. -/
inductive Thread where
  /-- The end of the run. -/
  | top
  /-- The prerequisites of a rule are to be seen to. -/
  | resolve (r : RuleAt)
  /-- A prerequisite is to be made, is being made, or its outcome is to be told. -/
  | dep (r : RuleAt) (name : Text) (weak : Bool)
  /-- The prerequisites are done. -/
  | resolved (r : RuleAt) (error : Bool)
  /-- The recipe is to be run. -/
  | recipe (r : RuleAt)
  /-- The recipe goes on after a line. -/
  | next (r : RuleAt) (error : Bool)
  /-- A line of the recipe runs. -/
  | command (r : RuleAt) (line : RecipeLine)
  /-- The recipe of one of the rules is done. -/
  | done (build : Nat) (target : Text) (error : Bool)

/-- The target to which a thread belongs. -/
def Thread.owner : Thread → Option (Nat × Text)
  | .top => none
  | .resolve r | .dep r _ _ | .resolved r _ | .recipe r | .next r _ | .command r _ =>
    some (r.build, r.target)
  | .done b t _ => some (b, t)

/-- What is under way belongs to a target, or to a make on whose answer someone waits. -/
inductive Post where
  | own (τ : Thread)
  | make (m : Nat)
  | makefiles (b : Nat)

/-- Who waits for an exit code. -/
def ExitTo.thread : ExitTo → Thread
  | .outside => .top
  | .recipe r line => .command r line

/-- Who waits for a target. -/
def Reply.post (target : Text) : Reply → Post
  | .dependent r weak => .own (.dep r target weak)
  | .makefiles b => .makefiles b
  | .goals m => .make m

/-- What an action is for. -/
def Action.post : Action → Post
  | .make _ t _ ρ _ _ => ρ.post t
  | .resolve r => .own (.resolve r)
  | .resolved r e _ => .own (.resolved r e)
  | .startDep r d weak => .own (.dep r d weak)
  | .reply _ t receiver _ _ => receiver.post t
  | .recipe r => .own (.recipe r)
  | .recipeDone b t e => .own (.done b t e)
  | .nextLine r e => .own (.next r e)
  | .exit receiver _ => .own receiver.thread
  | .start _ _ _ receiver => .own receiver.thread
  | .proceed m _ _ => .make m
  | .parse m => .make m

/-- What a duty is for. -/
def Duty.post : Duty → Post
  | .task a => a.post
  | .job e => .own e.thread

/-! ## Work -/

namespace Work

/-- The work is over. -/
def finish (w : Work) : Work := { w with progress := .finished, replies := [] }

/-- Has a rule an error? -/
def isBroken (w : Work) (i : Nat) : Bool := (w.rules[i]?.map (·.error)).getD false

/-- How many prerequisites of a rule are not done. -/
def depsLeft (w : Work) (i : Nat) : Nat := (w.rules[i]?.map (·.depsLeft)).getD 0

end Work

/-- A rule is told about a prerequisite. -/
def RuleWork.hear (x : RuleWork) (weak error didAnything : Bool) : RuleWork :=
  { x with
    remake := x.remake || (weak && error)
    error := x.error || (error && !weak)
    didAnything := x.didAnything || didAnything }

/-- A target begins with the prerequisites of a rule: one by one, or all at once. -/
inductive Sees (b : Nat) (t : Text) (i : Nat) (w : Work) :
    Work → List Action → List Duty → Prop
  | first {x : RuleWork} {d : Text} {weak : Bool} {rest : List (Text × Bool)}
      (serial : w.serial = true) (rule : w.rules[i]? = some x) (deps : x.deps = (d, weak) :: rest) :
      Sees b t i w (w.onRule i fun x => { x with didAnything := false, queue := rest }) []
        [.task (.make b d x.stack (.dependent ⟨b, t, i⟩ weak) false true)]
  | none {x : RuleWork} (serial : w.serial = true) (rule : w.rules[i]? = some x)
      (deps : x.deps = []) :
      Sees b t i w (w.onRule i fun x => { x with didAnything := false, queue := [] })
        [.resolved ⟨b, t, i⟩ x.error false] []
  | all {x : RuleWork} (parallel : w.serial = false) (rule : w.rules[i]? = some x)
      (left : x.depsLeft - 1 ≠ 0) :
      Sees b t i w
        (w.onRule i fun x => { x with didAnything := false, depsLeft := x.depsLeft - 1 }) []
        (x.deps.map fun d => .task (.startDep ⟨b, t, i⟩ d.1 d.2))
  | ready {x : RuleWork} (parallel : w.serial = false) (rule : w.rules[i]? = some x)
      (left : x.depsLeft - 1 = 0) :
      Sees b t i w
        (w.onRule i fun x => { x with didAnything := false, depsLeft := x.depsLeft - 1 })
        [.resolved ⟨b, t, i⟩ x.error false] []

/-- A target is told about a prerequisite of a rule. -/
inductive Hears (keep : Bool) (b : Nat) (t : Text) (i : Nat) (weak error did : Bool) (w : Work) :
    Work → List Action → List Duty → Prop
  | stop {x : RuleWork} (serial : w.serial = true) (rule : w.rules[i]? = some x)
      (fault : error = true) (strong : weak = false) (halt : keep = false) :
      Hears keep b t i weak error did w (w.onRule i fun x => x.hear weak error did)
        [.resolved ⟨b, t, i⟩ true (x.hear weak error did).didAnything] []
  | walk {x : RuleWork} {d : Text} {weak' : Bool} {rest : List (Text × Bool)}
      (serial : w.serial = true) (rule : w.rules[i]? = some x)
      (queue : x.queue = (d, weak') :: rest) (goes : weak = false → error = true → keep = true) :
      Hears keep b t i weak error did w
        (w.onRule i fun x => { x.hear weak error did with queue := rest }) []
        [.task (.make b d x.stack (.dependent ⟨b, t, i⟩ weak') false true)]
  | last {x : RuleWork} (serial : w.serial = true) (rule : w.rules[i]? = some x)
      (queue : x.queue = []) :
      Hears keep b t i weak error did w (w.onRule i fun x => x.hear weak error did)
        [.resolved ⟨b, t, i⟩ (x.hear weak error did).error (x.hear weak error did).didAnything] []
  | more {x : RuleWork} (parallel : w.serial = false) (rule : w.rules[i]? = some x)
      (left : x.depsLeft - 1 ≠ 0) :
      Hears keep b t i weak error did w
        (w.onRule i fun x => { x.hear weak error did with depsLeft := x.depsLeft - 1 }) [] []
  | ready {x : RuleWork} (parallel : w.serial = false) (rule : w.rules[i]? = some x)
      (left : x.depsLeft - 1 = 0) :
      Hears keep b t i weak error did w
        (w.onRule i fun x => { x.hear weak error did with depsLeft := x.depsLeft - 1 })
        [.resolved ⟨b, t, i⟩ (x.hear weak error did).error (x.hear weak error did).didAnything] []

/-- The rules still to be run, without those that are left out. -/
def Work.leftOrder (w : Work) (stop : Bool) : List Nat :=
  if stop then [] else w.order.dropWhile w.isBroken

/-- A target goes on to its next recipe; the last index tells whether it is over. -/
inductive Next (stop : Bool) (b : Nat) (t : Text) (w : Work) : Work → List Duty → Bool → Prop
  | closes (order : w.leftOrder stop = []) (remaining : w.remaining = 0)
      (working : w.progress = .working) :
      Next stop b t w { w with order := [] }.finish [] true
  | idle (order : w.leftOrder stop = []) (remaining : w.remaining ≠ 0) :
      Next stop b t w { w with order := [] } [] false
  | wait {i : Nat} {rest : List Nat} (order : w.leftOrder stop = i :: rest)
      (left : w.depsLeft i ≠ 0) :
      Next stop b t w { w with order := i :: rest } [] false
  | start {i : Nat} {rest : List Nat} (order : w.leftOrder stop = i :: rest)
      (left : w.depsLeft i = 0) :
      Next stop b t w { w with order := rest, busy := true } [.task (.recipe ⟨b, t, i⟩)] false

/-- What an action on a target does: the work after it, what is to be done at once, what is put
into the queue, whether the build has failed now, and whether the target is over. -/
inductive Turn (v : View) (b : Nat) (t : Text) :
    Work → Action → Work → List Action → List Duty → Bool → Bool → Prop
  | refuse {w : Work} {i : Nat} (failed : v.failed b = true) (halt : v.keep b = false) :
      Turn v b t w (.resolve ⟨b, t, i⟩) (w.onRule i fun x => { x with error := true })
        [.resolved ⟨b, t, i⟩ true false] [] false false
  | see {w w' : Work} {i : Nat} {now : List Action} {late : List Duty}
      (sees : Sees b t i w w' now late) :
      Turn v b t w (.resolve ⟨b, t, i⟩) w' now late false false
  | hear {w w' wd : Work} {i : Nat} {d : Text} {weak error did : Bool} {now : List Action}
      {late : List Duty} (known : v.work b d = some wd) (ended : wd.progress = .finished)
      (told : wd.error = error) (hears : Hears (v.keep b) b t i weak error did w w' now late) :
      Turn v b t w (.reply b d (.dependent ⟨b, t, i⟩ weak) error did) w' now late false false
  | shun {w w' : Work} {i : Nat} {d : Text} {weak : Bool} {now : List Action} {late : List Duty}
      (failed : v.failed b = true)
      (hears : Hears (v.keep b) b t i weak true false w w' now late) :
      Turn v b t w (.startDep ⟨b, t, i⟩ d weak) w' now late false false
  | halt {w : Work} {i : Nat} {did : Bool} (serial : w.serial = true) (halt : v.keep b = false)
      (working : w.progress = .working) :
      Turn v b t w (.resolved ⟨b, t, i⟩ true did)
        { w with didAnything := w.didAnything || did, error := true }.finish [] [] true true
  | skip {w : Work} {i : Nat} {did : Bool} (serial : w.serial = true) (keep : v.keep b = true) :
      Turn v b t w (.resolved ⟨b, t, i⟩ true did)
        { w with didAnything := w.didAnything || did, error := true, order := w.order.drop 1 }
        [.recipeDone b t false] [] true false
  | run {w : Work} {i : Nat} {did : Bool} (serial : w.serial = true) :
      Turn v b t w (.resolved ⟨b, t, i⟩ false did)
        { w with didAnything := w.didAnything || did, order := w.order.drop 1 }
        [.recipe ⟨b, t, i⟩] [] false false
  | queue {w : Work} {i : Nat} {error did : Bool} (parallel : w.serial = false)
      (busy : w.busy = true) :
      Turn v b t w (.resolved ⟨b, t, i⟩ error did)
        { w with
          didAnything := w.didAnything || did
          error := w.error || error
          remaining := w.remaining - 1 } [] [] false false
  | turn {w w' : Work} {i : Nat} {error did ends : Bool} {late : List Duty}
      (parallel : w.serial = false) (busy : w.busy = false)
      (next : Next (v.failed b && !v.keep b) b t
        { w with
          didAnything := w.didAnything || did
          error := w.error || error
          remaining := w.remaining - 1 } w' late ends) :
      Turn v b t w (.resolved ⟨b, t, i⟩ error did) w' [] late false ends
  | needless {w : Work} {i : Nat} {x : RuleWork} (rule : w.rules[i]? = some x)
      (fresh : x.running = false) :
      Turn v b t w (.recipe ⟨b, t, i⟩) (w.onRule i fun x => { x with running := true })
        [.recipeDone b t false] [] false false
  | unreadable {w : Work} {i : Nat} {x : RuleWork} (rule : w.rules[i]? = some x)
      (fresh : x.running = false) :
      Turn v b t w (.recipe ⟨b, t, i⟩)
        { w.onRule i fun x => { x with running := true } with didAnything := true }
        [.recipeDone b t true] [] false false
  | begin {w : Work} {i : Nat} {x : RuleWork} (lines : List RecipeLine)
      (rule : w.rules[i]? = some x) (fresh : x.running = false) :
      Turn v b t w (.recipe ⟨b, t, i⟩)
        { w.onRule i fun x => { x with running := true, lines := lines } with didAnything := true }
        [.nextLine ⟨b, t, i⟩ false] [] false false
  | fault {w : Work} {i : Nat} :
      Turn v b t w (.nextLine ⟨b, t, i⟩ true) w [.recipeDone b t true] [] false false
  | complete {w : Work} {i : Nat} {x : RuleWork} (rule : w.rules[i]? = some x)
      (lines : x.lines = []) :
      Turn v b t w (.nextLine ⟨b, t, i⟩ false) w [.recipeDone b t false] [] false false
  | line {w : Work} {i : Nat} {x : RuleWork} {l : RecipeLine} {rest : List RecipeLine}
      {now : List Action} {late : List Duty} (rule : w.rules[i]? = some x)
      (lines : x.lines = l :: rest)
      (starts : now.map Action.post ++ late.map Duty.post = [.own (.command ⟨b, t, i⟩ l)]) :
      Turn v b t w (.nextLine ⟨b, t, i⟩ false) (w.onRule i fun x => { x with lines := rest })
        now late false false
  | exit {w : Work} {i : Nat} {l : RecipeLine} {code : Int} :
      Turn v b t w (.exit (.recipe ⟨b, t, i⟩ l) code) w
        [.nextLine ⟨b, t, i⟩ (code != 0 && !l.ignore)] [] false false
  | last {w : Work} {error : Bool} (serial : w.serial = true)
      (ending : (w.error || error) = true ∧ v.keep b = false ∨ w.order = [])
      (working : w.progress = .working) :
      Turn v b t w (.recipeDone b t error) { w with error := w.error || error }.finish [] []
        error true
  | go {w w' : Work} {error : Bool} {i : Nat} {rest : List Nat} {now : List Action}
      {late : List Duty} (serial : w.serial = true) (order : w.order = i :: rest)
      (goes : (w.error || error) = true → v.keep b = true)
      (sees : Sees b t i { w with error := w.error || error } w' now late) :
      Turn v b t w (.recipeDone b t error) w' now late error false
  | free {w w' : Work} {error ends : Bool} {late : List Duty} (parallel : w.serial = false)
      (busy : w.busy = true)
      (next : Next ((v.failed b || error) && !v.keep b) b t
        { w with error := w.error || error, busy := false } w' late ends) :
      Turn v b t w (.recipeDone b t error) w' [] late error ends

/-- Those who asked for a target are told. -/
def Work.released (w : Work) (b : Nat) (t : Text) (error didAnything : Bool) : List Duty :=
  w.replies.map fun ρ => .task (.reply b t ρ error didAnything)

/-- The view after an action on a target, with what is to be done at once. A target that is over
tells so. -/
inductive Took (v : View) (b : Nat) (t : Text) (a : Action) : List Action → View → Prop
  | mk {w w' : Work} {now : List Action} {late : List Duty} {fails ends : Bool}
      (known : v.work b t = some w) (turn : Turn v b t w a w' now late fails ends) :
      Took v b t a now (((v.put b t w').failIf b fails).later
        (late ++ if ends then w.released b t w'.error w'.didAnything else []))

theorem Took.exists_turn
    (h : Took v b t a now v') : ∃ w w' late fails ends, v.work b t = some w ∧
      Turn v b t w a w' now late fails ends ∧ v' = ((v.put b t w').failIf b fails).later
        (late ++ if ends then w.released b t w'.error w'.didAnything else []) ∧
      v'.work = (v.put b t w').work ∧ v'.queue = v.queue + ((late ++
        if ends then w.released b t w'.error w'.didAnything else [] : List Duty) :
        Multiset Duty) := by
  obtain @⟨_, _, _, _, fails, _, known, turn⟩ := h
  refine ⟨_, _, _, _, _, known, turn, rfl, View.failIf_work .., ?_⟩
  cases fails <;> rfl

/-- A turn of known work, with what it leaves, is a turn of the target. -/
theorem Took.of_turn {w w' : Work}
    {late : List Duty} {fails ends : Bool} (known : v.work b t = some w)
    (turn : Turn v b t w a w' now late fails ends)
    (view : v' = ((v.put b t w').failIf b fails).later
      (late ++ if ends then w.released b t w'.error w'.didAnything else [])) :
    Took v b t a now v' :=
  view ▸ .mk known turn

end Rebuild
