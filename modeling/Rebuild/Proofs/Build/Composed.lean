import Rebuild.Build.Run
import Rebuild.Proofs.Makefile.Frame
import Rebuild.Proofs.Options
/-!
# What holds of the actions of a run

The actions of a run are put together from a few operations: looking, printing, noting something in
a build, changing the work on a target, and deferring a task. A property that holds of these and of
whatever is put together from parts of which it holds (`Prints`, `Operates`) holds of the actions.
Each of them is taken apart here, once for all such properties: keeping a relation between runs, and
failing only gravely.
-/

namespace Rebuild

/-- Does something that waits start neither a job nor a make? -/
def Pending.isTame : Pending Action ExitTo → Bool
  | .task (.start ..) | .launch .. => false
  | .task _ => true

/-- The same make, with other goals or another build. -/
def Make.GoesOn (x x' : Make) : Prop :=
  x' = { x with goals := x'.goals, stack := x'.stack, restarts := x'.restarts, build := x'.build }

theorem Target.isComplaint_of_time {t : Target} {e : Error} (h : t.time = .error e) :
    e.isComplaint = false := by
  unfold time at h
  split at h <;> cases h
  rfl

/-- A make was started with a command line in an environment, for someone. -/
structure Make.StartedWith (args : List Text) (env : Env) (e : ExitTo) (x : Make) : Prop where
  receiver : x.receiver = e
  options : ∃ o, Options.Reads env args o ∧ x.flags = o.flags ∧ x.options.justPrint = o.justPrint

namespace RunM

/-- Printing has the property, and noting which makefiles are made anew. -/
class Prints (P : ∀ α : Type, RunM α → Prop) : Prop extends Composable P where
  world {f : World → World} : (∀ w : World, w.SameFiles (f w)) → P _ (onWorld f)
  notes (b : Nat) {f : Build → Build} : (∀ x, f x =
    { x with included := (f x).included, toRemake := (f x).toRemake, required := (f x).required }) →
    P _ (onBuild b f)

/-- The operations of a run have the property that change no makefile, do not end a target, and
start no job. -/
class Operates (P : ∀ α : Type, RunM α → Prop) : Prop extends Prints P where
  builds (b : Nat) {f : Build → Build} :
    (∀ x, (f x).makefile = x.makefile ∧ (f x).works = x.works ∧ (f x).make = x.make) →
    P _ (onBuild b f)
  work (b : Nat) (t : Text) {f : Work → Work} : (∀ w, (f w).progress = w.progress) →
  P _ (onWork b t f)
  makes (m : Nat) {f : Make → Make} : (∀ x : Make, x.GoesOn (f x) ∧ (f x).build = x.build) →
    P _ (onMake m f)
  task (c : Nat) {a : Action} : Pending.isTame (.task a) = true → P _ (deferIn c (.task a))
  shared (jobs : Int) : P _ (sharedContext jobs)
  outcome (o : Option Outcome) : P _ (modify fun s => { s with outcome := o })
  notes b f hf := builds b fun x => by rw [hf x]; exact ⟨rfl, rfl, rfl⟩

variable {P : ∀ α : Type, RunM α → Prop} {b m : Nat} {t : Text} {r : RuleAt} (message : Text)

/-! ## Looking -/

section Looking

variable [Composable P]

theorem holds_build (b : Nat) : P _ (build b) := by
  refine holds_bind holds_get fun s => ?_
  cases s.builds[b]? with
  | none => exact holds_throw rfl
  | some x => exact holds_pure _

theorem holds_make (m : Nat) : P _ (make m) := by
  refine holds_bind holds_get fun s => ?_
  cases s.makes[m]? with
  | none => exact holds_throw rfl
  | some x => exact holds_pure _

theorem holds_work? (b : Nat) (t : Text) : P _ (work? b t) := holds_return (holds_build b)

theorem holds_work (b : Nat) (t : Text) : P _ (work b t) := by
  refine holds_bind (holds_work? b t) fun o => ?_
  cases o with
  | none => exact holds_throw rfl
  | some w => exact holds_pure _

theorem holds_ruleWork (r : RuleAt) : P _ (ruleWork r) := by
  refine holds_bind (holds_work r.build r.target) fun w => ?_
  cases w.rules[r.rule]? with
  | none => exact holds_throw rfl
  | some x => exact holds_pure _

theorem holds_target (b : Nat) (t : Text) : P _ (target b t) := holds_return (holds_build b)

theorem holds_keepsGoing (b : Nat) : P _ (keepsGoing b) := holds_return (holds_build b)

theorem holds_time (t : Target) : P _ (ofExcept t.time : RunM (Option Time)) :=
  holds_ofExcept fun _ => t.isComplaint_of_time

theorem holds_firstNewer (b : Nat) (time : Time) (deps : List (Text × Bool)) :
    P _ (firstNewer b time deps) := by
  induction deps with
  | nil => exact holds_pure _
  | cons d rest ih =>
    refine holds_bind (holds_target b d.1) fun t => holds_bind (holds_time t) fun later => ?_
    split
    · exact holds_pure _
    · exact ih

theorem holds_need (r : RuleAt) (x : RuleWork) (doubleColon : Bool) :
    P _ (need r x doubleColon) := by
  unfold need
  split
  · exact holds_pure _
  refine holds_bind (holds_target _ _) fun t => holds_bind (holds_time t) fun time => ?_
  cases time with
  | none => exact holds_pure _
  | some time =>
    dsimp only
    split
    · exact holds_pure _
    · exact holds_return (holds_firstNewer _ _ _)

end Looking

/-! ## Printing -/

section Printing

variable [Prints P]

theorem holds_print : P _ (print message) := Prints.world fun w => w.sameFiles_noteLines _ _

theorem holds_remark : P _ (remark message) := Prints.world fun w => w.sameFiles_log _ _ _

theorem holds_withoutRecipe (hremake : P _ (beingRemade r.build r.target)) (x : RuleWork)
    (indent : Text) : P _ (withoutRecipe r x indent) := by
  refine holds_bind (holds_target _ _) fun t => holds_bind (holds_time t) fun time => ?_
  cases time with
  | none => exact hremake
  | some time =>
    refine holds_bind (holds_firstNewer _ _ _) fun d => ?_
    cases d with
    | none => exact holds_pure _
    | some d =>
      refine holds_bind (holds_time d) fun time => ?_
      split
      · exact hremake
      · exact holds_remark _

theorem holds_remadeOutcome (b : Nat) (included : List (Text × Bool)) :
    P _ (remadeOutcome b included) := by
  induction included with
  | nil => exact holds_pure _
  | cons f rest ih =>
    refine holds_bind (holds_target b f.1) fun t => ?_
    split
    · exact holds_return (holds_remark _)
    · refine holds_bind (holds_time t) fun time => ?_
      split
      · exact holds_pure _
      · exact ih

theorem holds_remakeNext (b : Nat) (error : Bool) : P _ (remakeNext b error) := by
  refine holds_bind (holds_build b) fun x => ?_
  split
  · exact holds_pure _
  · refine holds_when (holds_print _) fun _ => ?_
    split
    · exact holds_return (Prints.notes b fun _ => rfl)
    · exact holds_return (holds_remadeOutcome b _)

theorem holds_configureLog (o : Options) : P _ (configureLog o) := by
  refine Prints.world fun w => ?_
  split <;> exact ⟨rfl, rfl⟩

theorem holds_readOptions (args : List Text) (env : Env) : P _ (readOptions args env) := by
  unfold readOptions
  split
  · exact holds_bind (holds_print _) fun _ => holds_throw rfl
  · split
    · exact holds_bind (Prints.world fun w => w.sameFiles_noteLines _ _) fun _ => holds_throw rfl
    · split
      · exact holds_bind (Prints.world fun w => w.sameFiles_noteLines _ _) fun _ => holds_throw rfl
      · split
        · exact holds_throw rfl
        · exact holds_pure _

end Printing

variable [Operates P] {args : List Text} {env : Env}

/-! ## Targets -/

theorem holds_onRule (r : RuleAt) (f : RuleWork → RuleWork) : P _ (onRule r f) :=
  Operates.work r.build r.target fun _ => rfl

theorem holds_defer (b : Nat) {a : Action} (ha : Pending.isTame (.task a) = true) :
    P _ (defer b a) :=
  holds_bind (holds_build b) fun _ => Operates.task _ ha

theorem holds_notifyDone
    (hfinish : P _ (onWork b t fun w => { w with progress := .finished, replies := [] }))
    (hlook : P _ (onMakefile b do
      let found ← MakeM.firstFile [t]
      MakeM.onTarget t fun x => { x with mtime := some (found.map (·.2)) })) : P _
        (notifyDone b t) := by
  refine holds_bind (holds_work b t) fun w => ?_
  refine holds_when (holds_throw rfl) fun _ => holds_bind (holds_target b t) fun x => ?_
  exact holds_when hlook fun _ => holds_bind hfinish fun _ => holds_forM fun _ => holds_defer b rfl

/-- A target is begun, with whatever holds of beginning it and then going on. -/
theorem holds_beginTarget {Q : RunM (List Action) → Prop} {stack : List Text} {ρ : Reply}
    {avoidLoop report serial : Bool}
    (hset : ∀ w : Work, w.progress = .working → ∀ f : Unit → RunM (List Action), (∀ u, P _ (f u)) →
      Q (setWork b t w >>= f))
    (hresolve : ∀ f : Error → RunM (Option Error), (∀ e, P _ (f e)) →
      P _ (tryCatch (do onMakefile b (MakeM.resolve t stack false); return none) f))
    (hrules : P _ (onMakefile b (ruleWorks t stack avoidLoop))) (hend : P _ (notifyDone b t)) :
    Q (beginTarget b t stack ρ avoidLoop report serial) := by
  refine hset _ rfl _ fun _ => holds_bind (hresolve _ fun e => ?_) fun failure => ?_
  · split
    · exact holds_pure _
    · rename_i he
      exact holds_throw (by simpa using he)
  cases failure with
  | some e =>
    exact holds_when (holds_print _) fun _ =>
      holds_bind (Operates.work b t fun _ => rfl) fun _ => holds_return hend
  | none =>
    refine holds_bind (holds_target b t) fun x => ?_
    split
    · exact holds_return hend
    · refine holds_bind hrules fun rules => ?_
      refine holds_bind (Operates.work b t fun _ => rfl) fun _ => ?_
      split
      · exact holds_pure _
      · exact holds_return (holds_forM fun _ => holds_defer b rfl)

theorem holds_nextDep (r : RuleAt) : P _ (nextDep r) := by
  refine holds_bind (holds_ruleWork r) fun x => ?_
  split
  · exact holds_bind (holds_onRule r _) fun _ => holds_return (holds_defer _ rfl)
  · exact holds_pure _

theorem holds_resolveRule (r : RuleAt) : P _ (resolveRule r) := by
  refine holds_bind (holds_onRule r _) fun _ => holds_bind (holds_work _ _) fun w => ?_
  split
  · exact holds_bind (holds_onRule r _) fun _ => holds_nextDep r
  · refine holds_bind (holds_onRule r _) fun _ => holds_bind (holds_ruleWork r) fun x => ?_
    split
    · exact holds_pure _
    · exact holds_return (holds_forM fun _ => holds_defer _ rfl)

theorem holds_resolveAction (r : RuleAt) : P _ (resolveAction r) := by
  refine holds_bind (holds_build _) fun x => holds_bind (holds_keepsGoing _) fun k => ?_
  split
  · exact holds_return (holds_onRule r _)
  · exact holds_resolveRule r

theorem holds_depDone (r : RuleAt) (weak error did : Bool) : P _ (depDone r weak error did) := by
  refine holds_when (holds_onRule r _) fun _ => holds_bind (holds_work _ _) fun w => ?_
  refine holds_when (holds_print _) fun _ => holds_bind (holds_onRule r _) fun _ => ?_
  split
  · refine holds_bind (holds_keepsGoing _) fun k => ?_
    split
    · exact holds_return (holds_ruleWork r)
    · exact holds_nextDep r
  · refine holds_bind (holds_onRule r _) fun _ => holds_bind (holds_ruleWork r) fun x => ?_
    split <;> exact holds_pure _

theorem holds_startDep (r : RuleAt) (d : Text) (weak : Bool) : P _ (startDep r d weak) := by
  refine holds_bind (holds_build _) fun x => ?_
  split
  · exact holds_depDone _ _ _ _
  · exact holds_return (holds_ruleWork r)

section Ending

variable (hend : P _ (notifyDone b t))
include hend

theorem holds_runNext : P _ (runNext b t) := by
  refine holds_bind (holds_work b t) fun w => ?_
  refine holds_when (holds_throw rfl) fun _ => ?_
  refine holds_bind (holds_build b) fun x => holds_bind (holds_keepsGoing b) fun k => ?_
  extract_lets stop isBroken order
  cases order with
  | nil =>
    refine holds_bind (Operates.work b t fun _ => rfl) fun _ => ?_
    split
    · exact hend
    · exact holds_pure _
  | cons i rest =>
    dsimp only
    split
    · exact Operates.work b t fun _ => rfl
    · exact holds_bind (Operates.work b t fun _ => rfl) fun _ => holds_defer b rfl

theorem holds_recipeDone (error : Bool) : P _ (recipeDone b t error) := by
  unfold recipeDone
  extract_lets free go
  have hgo : ∀ u, P _ (go u) := by
    intro u
    refine holds_bind (holds_work b t) fun w => ?_
    split
    · refine holds_bind (holds_keepsGoing b) fun k => ?_
      split
      · exact holds_return hend
      · split
        · exact holds_return hend
        · exact holds_resolveRule _
    · exact holds_when (holds_throw rfl) fun _ => holds_bind (Operates.work b t fun _ => rfl)
        fun _ =>
        holds_return (holds_runNext hend)
  split
  · exact holds_bind (Operates.work b t fun _ => rfl) fun _ =>
      holds_bind (Operates.builds b fun _ => ⟨rfl, rfl, rfl⟩) hgo
  · exact hgo ()

end Ending

theorem holds_resolved (hend : P _ (notifyDone r.build r.target)) (error did : Bool) :
    P _ (resolved r error did) := by
  refine holds_bind (Operates.work _ _ fun _ => rfl) fun _ =>
    holds_bind (holds_work _ _) fun w => ?_
  split
  · split
    · refine holds_bind (Operates.builds _ fun _ => ⟨rfl, rfl, rfl⟩) fun _ =>
        holds_bind (holds_keepsGoing _) fun k => ?_
      split
      · exact holds_return hend
      · exact holds_return (Operates.work _ _ fun _ => rfl)
    · exact holds_return (Operates.work _ _ fun _ => rfl)
  · refine holds_bind (Operates.work _ _ fun _ => rfl) fun _ => ?_
    split
    · exact holds_return (holds_runNext hend)
    · exact holds_pure _

/-- Running a recipe has the property, if reading its lines has it where complaints are caught. -/
theorem holds_runRecipe (hremake : P _ (beingRemade r.build r.target))
    (hlines : ∀ rule f, (∀ e, P _ (f e)) →
      P _ (tryCatch (do return some (← onMakefile r.build (Recipe.lines r.target rule))) f)) :
    P _ (runRecipe r) := by
  refine holds_bind (holds_ruleWork r) fun x => ?_
  refine holds_when (holds_throw rfl) fun _ => ?_
  refine holds_bind (holds_onRule r _) fun _ => holds_bind (holds_build _) fun y => ?_
  refine holds_bind (holds_work _ _) fun w => ?_
  split
  · exact holds_return (holds_withoutRecipe hremake _ _)
  · dsimp only
    split
    · exact holds_return (holds_remark _)
    · refine holds_bind (holds_need _ _ _) fun why => ?_
      cases why with
      | none => exact holds_pure _
      | some why =>
        refine holds_bind (holds_remark _) fun _ => holds_bind hremake fun _ => ?_
        refine holds_bind (Operates.work _ _ fun _ => rfl) fun _ =>
          holds_bind (hlines _ _ fun e => ?_) fun outcome => ?_
        · split
          · exact holds_return (holds_print _)
          · rename_i he
            exact holds_throw (by simpa using he)
        · cases outcome with
          | none => exact holds_pure _
          | some lines => exact holds_return (holds_onRule r _)

/-! ## Makes -/

theorem holds_exitLater (m : Nat) (code : Int) : P _ (exitLater m code) :=
  holds_bind (holds_make m) fun _ => Operates.task _ rfl

section Goals

variable (hgoal : ∀ b goal, P _ (onMakefile b (MakeM.mention goal)))
include hgoal

theorem holds_nextGoal (m : Nat) : P _ (nextGoal m) := by
  refine holds_bind (holds_make m) fun x => ?_
  split
  · exact holds_bind (Operates.makes _ fun _ => ⟨rfl, rfl⟩) fun _ => holds_return (hgoal _ _)
  · exact holds_when (holds_print _) fun _ => holds_return (holds_exitLater m 0)

theorem holds_tell (ρ : Reply) (error did : Bool) : P _ (tell ρ error did) := by
  cases ρ with
  | dependent r weak => exact holds_depDone _ _ _ _
  | makefiles b => exact holds_remakeNext _ _
  | goals m =>
    unfold tell
    dsimp only
    split
    · exact holds_return (holds_exitLater m 2)
    · exact holds_nextGoal hgoal m

theorem holds_beginGoals (m : Nat) : P _ (beginGoals m) := by
  refine holds_bind (holds_make m) fun x => ?_
  split
  · refine holds_bind (holds_build _) fun y => ?_
    split
    · exact holds_bind (holds_print _) fun _ => holds_return (holds_exitLater m 2)
    · exact holds_bind (Prints.world fun w => w.sameFiles_log _ _ _) fun _ =>
        holds_bind (Operates.makes m fun _ => ⟨rfl, rfl⟩) fun _ => holds_nextGoal hgoal m
  · exact holds_bind (Operates.makes m fun _ => ⟨rfl, rfl⟩) fun _ => holds_nextGoal hgoal m

theorem holds_proceed (hnew : P _ (newBuild m)) (remade : Bool) (e : Option Error) :
    P _ (proceed m remade e) := by
  unfold proceed
  split
  · exact holds_bind (holds_print _) fun _ => holds_return (holds_exitLater m 2)
  · split
    · refine holds_bind (holds_make m) fun x => ?_
      exact holds_when (Prints.world fun w => w.sameFiles_log _ _ _) fun _ => holds_return hnew
    · exact holds_return (holds_beginGoals hgoal m)

end Goals

theorem holds_exit (e : ExitTo) (code : Int) : P _ (exit e code) := by
  cases e with
  | outside => exact holds_return (Operates.outcome _)
  | recipe r line =>
    unfold exit
    dsimp only
    split
    · exact holds_return (holds_print _)
    · exact holds_pure _

theorem readOptions_gives {arguments : List Text} {o : Options} {s s' : Run}
    (h : Gives (readOptions args env) s (o, arguments) s') : Options.Reads env args o := by
  unfold readOptions at h
  split at h
  · obtain ⟨_, _, _, h⟩ := h.of_bind
    cases h
  rename_i words hwords
  split at h
  · obtain ⟨_, _, _, h⟩ := h.of_bind
    cases h
  rename_i o0 first hfirst
  split at h
  · obtain ⟨_, _, _, h⟩ := h.of_bind
    cases h
  rename_i o' more hmore
  split at h
  · cases h
  · obtain ⟨e, -⟩ := gives_pure.1 h
    cases e
    exact ⟨words, o0, first, more, hwords, hfirst, hmore⟩

/-- Starting a make has the property if a new make has it, with the options that it reads. -/
theorem holds_startMake {e : ExitTo} (hstart : ∀ x : Make, x.StartedWith args env e →
      P _ (modify fun s => { s with makes := s.makes ++ [x] })) (cwd : Text) :
    P _ (startMake args env cwd e) := by
  unfold startMake
  extract_lets go
  have hgo : ∀ level, P _ (go level) := by
    intro level
    refine holds_bind_gives (holds_readOptions args env) fun ⟨o, arguments⟩ ⟨_, _, hread⟩ => ?_
    have hreads := readOptions_gives hread
    dsimp -zeta only
    split
    · exact holds_return (holds_print _)
    extract_lets flags quiet workdir usual parsed
    have hdry : usual.justPrint = o.justPrint := by
      unfold usual quiet
      split <;> split <;> rfl
    refine holds_bind (holds_configureLog _) fun _ => holds_bind (Operates.shared _) fun c => ?_
    refine holds_when (holds_print _) fun _ => holds_bind holds_get fun s => ?_
    dsimp only
    split
    · exact holds_return (holds_print _)
    · exact holds_bind holds_get fun _ =>
        holds_return (hstart _ ⟨rfl, _, hreads, rfl, hdry⟩)
  split
  · exact holds_bind (holds_pure _) hgo
  · exact holds_bind (holds_throw rfl) hgo

theorem holds_answer (e : Error) (g : Guard) : P _ (Run.answer e g) := by
  cases g with
  | parse m =>
    exact holds_bind (holds_print _) fun _ => holds_return (holds_exitLater _ _)
  | start level workdir printDir receiver =>
    refine holds_bind (holds_print _) fun _ => ?_
    split
    · exact holds_return (holds_print _)
    · exact holds_pure _

end RunM

end Rebuild
