import Rebuild.Proofs.Build.History
/-!
# What the actions of a run leave alone

Most of what an action does is of no concern to most facts about a run. A relation between states
that allows all of this (`RunFrame`) is kept by every action, if it is kept by what the action does
to the makefile of its own target (`Handles`), by the lines of recipes that it starts, and by new
builds and new makes (`Run.frame_perform_at`), and by every step, if it is kept by what is done in
it (`Run.frame_step`). A relation that allows jobs to be asked for (`JobFrame`) is kept by the lines
of recipes as well (`Run.frame_perform`), and one that the event loop is of no concern to
(`LoopFrame`) by its turns (`Run.frame_turn`). So a fact about makefiles, files or makes is proved
for a few operations and holds of all steps.
-/

namespace Rebuild

open MakeM

variable {b : Nat} {t : Text} {R : Run → Run → Prop}

/-- How far the work on a target has come. -/
def Work.rank (w : Work) : Nat :=
  match w.progress with
  | .working => 1
  | .finished => 2

/-- How far a target has come: it is not begun, is being worked on, or is over. -/
def Run.rank (s : Run) (b : Nat) (t : Text) : Nat := (s.work b t).elim 0 Work.rank

theorem Work.rank_le_two (w : Work) : w.rank ≤ 2 := by
  unfold rank
  split <;> omega

/-- The work on a target goes as far as it did; if there was none, it is not over. -/
def Run.Continues (s : Run) (b : Nat) (t : Text) (w : Work) : Prop :=
  (s.work b t).elim (w.progress = .working) fun u => w.progress = u.progress

variable {s : Run} {w : Work} {c : Nat} {a : Action}

theorem Run.Continues.rank_le (h : s.Continues b t w) : s.rank b t ≤ w.rank := by
  unfold Continues at h
  unfold Run.rank
  cases hu : s.work b t with
  | none => exact Nat.zero_le _
  | some u =>
    rw [hu] at h
    exact le_of_eq (by unfold Option.elim Work.rank; rw [show w.progress = u.progress from h])

/-- A relation that allows every change of a run but that of its makefiles and of the files, of what
belongs to whom, of how far a target has come, and of the jobs that run and are to be started. -/
class RunFrame (R : Run → Run → Prop) : Prop extends IsPreorder Run R where
  world (s : Run) (w : World) : s.world.SameFiles w → R s { s with world := w }
  builds (s : Run) (b : Nat) (f : Build → Build) :
    (∀ x, (f x).makefile = x.makefile ∧ (f x).works = x.works ∧ (f x).make = x.make) →
    R s { s with builds := s.builds.modify b f }
  work (s : Run) (b : Nat) (t : Text) (w : Work) : s.Continues b t w →
    R s { s with builds := s.builds.modify b fun x => { x with works := putWork t w x.works } }
  makes (s : Run) (m : Nat) (f : Make → Make) :
    (∀ x : Make, x.GoesOn (f x) ∧ (f x).build = x.build) →
    R s { s with makes := s.makes.modify m f }
  shared (s : Run) (jobs : Int) : 1 ≤ jobs ∨ s.loop.parallel.isSome →
    R s { s with loop := (s.loop.shared jobs).1 }
  task (s : Run) (c : Nat) (a : Action) (l : Loop Action ExitTo) :
    Pending.isTame (.task a) = true → s.loop.defer c (.task a) = .ok l → R s { s with loop := l }
  stack (s : Run) (frames : List Frame) (phase : Phase) :
    R s { s with stack := frames, phase := phase }
  outcome (s : Run) (o : Option Outcome) : R s { s with outcome := o }

/-- A relation that allows anything to be put into the queues, jobs too. -/
class JobFrame (R : Run → Run → Prop) : Prop extends RunFrame R where
  defer (s : Run) (c : Nat) (p : Pending Action ExitTo) (l : Loop Action ExitTo) :
    s.loop.defer c p = .ok l → R s { s with loop := l }
  task s c a l _ h := defer s c (.task a) l h

/-- A relation that the event loop is of no concern to. -/
class LoopFrame (R : Run → Run → Prop) : Prop extends JobFrame R where
  loop (s : Run) (l : Loop Action ExitTo) : R s { s with loop := l }
  shared s _ _ := loop s _
  defer s _ _ l _ := loop s l

namespace RunM

variable [RunFrame R] {m : Nat} {r : RuleAt} {α : Type}

/-! ## Operations -/

theorem frame_onWorld {f : World → World} (hf : ∀ w : World, w.SameFiles (f w)) :
    Keeps R (onWorld f) :=
  keeps_modify fun s => RunFrame.world s _ (hf s.world)

theorem frame_act {x : WorldM α} (hx : Keeps World.SameFiles x) : Keeps R (act x) := by
  intro s
  refine keeps_bind_get ?_
  exact keeps_bind_at (RunFrame.world s _ (hx s.world)) fun _ => keeps_ofExcept _

theorem frame_onBuild (b : Nat) {f : Build → Build}
    (hf : ∀ x, (f x).makefile = x.makefile ∧ (f x).works = x.works ∧ (f x).make = x.make) :
    Keeps R (onBuild b f) :=
  keeps_modify fun s => RunFrame.builds s b f hf

theorem frame_setWork (hw : s.Continues b t w) :
    R s ((setWork b t w).run s).2 := RunFrame.work s b t w hw

theorem frame_onWork (b : Nat) (t : Text) {f : Work → Work}
    (hf : ∀ w, (f w).progress = w.progress) : Keeps R (onWork b t f) := by
  intro s
  refine keeps_bind_gives (keeps_work b t s) fun w _ hof => ?_
  obtain ⟨hw, rfl⟩ := gives_work.1 hof
  refine frame_setWork ?_
  unfold Run.Continues
  rw [show s.work b t = some w from hw]
  exact hf w

theorem frame_onRule (r : RuleAt) (f : RuleWork → RuleWork) : Keeps R (onRule r f) :=
  frame_onWork r.build r.target fun _ => rfl

theorem frame_onMake (m : Nat) {f : Make → Make}
    (hf : ∀ x : Make, x.GoesOn (f x) ∧ (f x).build = x.build) : Keeps R (onMake m f) :=
  keeps_modify fun s => RunFrame.makes s m f hf

/-- What is put into a queue is allowed if it may wait there. -/
theorem frame_deferIn {p : Pending Action ExitTo}
    (hp : ∀ (s : Run) (l : Loop Action ExitTo), s.loop.defer c p = .ok l →
      R s { s with loop := l }) :
    Keeps R (deferIn c p) := by
  intro s
  refine keeps_bind_get ?_
  refine keeps_bind_gives (keeps_ofExcept _ s) fun l _ hof => ?_
  obtain ⟨hl, rfl⟩ := gives_ofExcept.1 hof
  exact hp s l hl

theorem frame_deferTask (c : Nat) (ha : Pending.isTame (.task a) = true) :
    Keeps R (deferIn c (.task a)) :=
  frame_deferIn fun s l hl => RunFrame.task s c a l ha hl

theorem frame_sharedContext (jobs : Int) : Keeps R (sharedContext jobs) := by
  intro s
  rcases run_sharedContext jobs s with h | ⟨hjobs, h⟩ <;>
    rw [show (sharedContext jobs).run s = _ from h]
  · exact refl_of R s
  · exact RunFrame.shared s jobs hjobs

instance : Operates fun _ => Keeps R where
  world := frame_onWorld
  builds b _ hf := frame_onBuild b hf
  work b t _ hf := frame_onWork b t hf
  makes m _ hf := frame_onMake m hf
  task c _ ha := frame_deferTask c ha
  shared := frame_sharedContext
  outcome o := keeps_modify fun s => RunFrame.outcome s o

theorem frame_remark (message : Text) : Keeps R (remark message) :=
  holds_remark (P := fun _ => Keeps R) message

/-- What is done to a target when it is looked for, when its rules are read and when it is over is
allowed. -/
structure Tends (R : Run → Run → Prop) (b : Nat) (t : Text) : Prop where
  finish : Keeps R (notifyDone b t)
  resolve (stack : List Text) : Keeps R (onMakefile b (resolve t stack false))
  rules (stack : List Text) (avoidLoop : Bool) :
    Keeps R (onMakefile b (ruleWorks t stack avoidLoop))

/-- What is done to a target is allowed, also when its recipe is run. -/
structure Handles (R : Run → Run → Prop) (b : Nat) (t : Text) : Prop extends Tends R b t where
  remake : Keeps R (beingRemade b t)
  lines (rule : RuleRef) : Keeps R (onMakefile b (Recipe.lines t rule))

/-! ## Targets -/

/-- The end of a target is allowed if it may be over, and its file may be looked at again. -/
theorem frame_notifyDone (hover : ∀ (s : Run) (w : Work), s.rank b t ≤ w.rank →
      R s { s with builds := s.builds.modify b fun x => { x with works := putWork t w x.works } })
    (hlook : Keeps R (onMakefile b do
      let found ← firstFile [t]
      onTarget t fun x => { x with mtime := some (found.map (·.2)) })) :
    Keeps R (notifyDone b t) := by
  refine holds_notifyDone (P := fun _ => Keeps R) (fun s => ?_) hlook
  refine keeps_bind_gives (keeps_work b t s) fun w _ hof => ?_
  obtain ⟨hw, rfl⟩ := gives_work.1 hof
  refine hover s _ ?_
  rw [Run.rank, show s.work b t = some w from hw]
  exact w.rank_le_two

/-- A target may be worked on if anything may be done to its makefile. -/
theorem handles_of_onMakefile (hon : ∀ {α : Type} (x : MakeM α), Keeps R (onMakefile b x))
    (hover : ∀ (s : Run) (w : Work), s.rank b t ≤ w.rank →
      R s { s with builds := s.builds.modify b fun x => { x with works := putWork t w x.works } }) :
    Handles R b t :=
  ⟨⟨frame_notifyDone hover (hon _), fun _ => hon _, fun _ _ => hon _⟩, hon _, fun _ => hon _⟩

theorem frame_newBuild (hon : ∀ (b : Nat) (x : MakeM Unit), Keeps R (onMakefile b x))
    (hadd : ∀ (s : Run) (y : Build), R s { s with builds := s.builds ++ [y] })
    (hset : ∀ (s : Run) (f : Make → Make), (∀ x : Make, x.GoesOn (f x)) →
      R s { s with makes := s.makes.modify m f }) : Keeps R (newBuild m) := by
  refine keeps_bind (keeps_make m) fun x s => keeps_bind_get ?_
  refine keeps_bind_at (hadd s _) fun _ => keeps_bind (hon _ _) fun _ => ?_
  exact keeps_modify fun s => hset s _ fun _ => rfl

theorem frame_beginTarget (hH : Tends R b t) (stack : List Text) (ρ : Reply)
    (avoidLoop report serial : Bool) (hs : s.work b t = none) :
    R s ((beginTarget b t stack ρ avoidLoop report serial).run s).2 := by
  refine holds_beginTarget (P := fun _ => Keeps R) (Q := fun x => R s (x.run s).2)
    (fun w hw f hf => ?_)
    (fun f hf => keeps_tryCatch (keeps_return (hH.resolve stack)) hf)
    (hH.rules stack avoidLoop) hH.finish
  refine keeps_bind_at (frame_setWork ?_) hf
  unfold Run.Continues
  rw [hs]
  exact hw

theorem frame_makeTarget (hH : Tends R b t) (stack : List Text) (ρ : Reply)
    (avoidLoop report : Bool) : Keeps R (makeTarget b t stack ρ avoidLoop report) := by
  refine keeps_bind (keeps_bind keeps_get fun _ => keeps_return (keeps_build b))
    fun serial s => keeps_bind_gives (keeps_work? b t s) fun o _ ho => ?_
  obtain ⟨-, hw, rfl⟩ := gives_work?.1 ho
  have hjoin : Keeps R (do
      onWork b t fun w => { w with replies := w.replies ++ [ρ] }
      return [] : RunM (List Action)) :=
    keeps_return (frame_onWork b t fun _ => rfl)
  cases o with
  | none =>
    exact frame_beginTarget hH _ _ _ _ _ hw
  | some w =>
    dsimp only
    split
    · exact keeps_pure _ s
    · split
      · exact keeps_bind (keeps_throw _) (fun _ => hjoin) s
      · exact hjoin s

theorem frame_runRecipe (hH : Handles R r.build r.target) : Keeps R (runRecipe r) :=
  holds_runRecipe (P := fun _ => Keeps R) hH.remake fun rule _ hf =>
    keeps_tryCatch (keeps_return (hH.lines rule)) hf

/-! ## Lines of recipes -/

omit [RunFrame R] in
theorem frame_startNative [JobFrame R] (r : RuleAt) (line : RecipeLine)
    (path : Option (List Text)) :
    Keeps R (startNative r line path) := by
  refine keeps_bind (keeps_build _) fun x => keeps_bind keeps_get fun s => ?_
  refine keeps_bind (keeps_ofExcept _) fun c => ?_
  split
  · exact keeps_throw _
  · exact frame_deferIn fun s l => JobFrame.defer s _ _ l
  · exact keeps_throw _

theorem keeps_lift (x : Except Error α) : Keeps World.SameFiles (liftM x : WorldM α) := by
  intro w
  cases x <;> exact refl_of World.SameFiles w

theorem keeps_prepare (line cwd : Text) (loc : Option Location) :
    Keeps World.SameFiles (CommandLine.prepare line cwd loc) := by
  refine keeps_bind keeps_get fun w => keeps_bind (keeps_lift _) fun sh => ?_
  refine keeps_bind (keeps_lift _) fun how => ?_
  cases how with
  | ok argv => exact keeps_pure _
  | error reason =>
    exact keeps_return (keeps_modify fun w => w.sameFiles_log _ _ _)

omit [RunFrame R] in
theorem frame_startLine [JobFrame R] (r : RuleAt) (line : RecipeLine) :
    Keeps R (startLine r line) := by
  unfold startLine
  split
  · exact keeps_return (frame_startNative r line _)
  · refine keeps_bind (keeps_build _) fun x => ?_
    refine keeps_bind (frame_act (keeps_prepare _ _ _)) fun launch => ?_
    extract_lets receiver direct
    have hdirect : Keeps R direct := keeps_return (frame_deferIn fun s l => JobFrame.defer s _ _ l)
    split
    · exact keeps_pure _
    · split
      · exact keeps_pure _
      · split
        · split
          · exact keeps_pure _
          · exact hdirect
        · exact hdirect

omit [RunFrame R] in
theorem frame_nextLine [JobFrame R] (r : RuleAt) (error : Bool) : Keeps R (nextLine r error) := by
  unfold nextLine
  split
  · exact keeps_pure _
  · refine keeps_bind (keeps_ruleWork r) fun x => ?_
    split
    · exact keeps_pure _
    · exact keeps_bind (frame_onRule r _) fun _ => frame_startLine r _

/-- What is done to the makefile of a make when its makefiles are read is allowed. -/
structure Opens (R : Run → Run → Prop) (x : Make) : Prop where
  read : Keeps R (onMakefile x.build do
    execute false x.arguments.statements
    x.options.makefiles.forM fun f => includeFile f true false)
  finish : Keeps R (onMakefile x.build finish)
  seek : Keeps R (onMakefile x.build do
    (← makefile).included.mapM fun (f, required) => do
      let name ← mention f
      onTarget name fun t => { t with explicit := true }
      findFile name
      return (name, required))

/-- Reading the makefiles of a make is allowed if what is done to the makefile of its build is. -/
theorem frame_openMakefiles (hon : ∀ x : Make, s.makes[m]? = some x → Opens R x) :
    R s ((parseMakefiles m).run s).2 := by
  refine keeps_bind_gives (keeps_make m s) fun x _ hx => ?_
  obtain ⟨hm, rfl⟩ := gives_make.1 hx
  have hopen := hon x hm
  refine keeps_bind hopen.read (fun _ => keeps_bind hopen.finish fun _ =>
    keeps_bind (keeps_build _) fun y => ?_) s
  extract_lets look
  have hlook : ∀ u, Keeps R (look u) := fun _ =>
    keeps_bind hopen.seek fun _ => keeps_bind (frame_onBuild _ fun _ => ⟨rfl, rfl, rfl⟩) fun _ =>
      holds_remakeNext (P := fun _ => Keeps R) _ _
  split
  · exact keeps_bind (frame_sharedContext _) fun _ =>
      keeps_bind (frame_onBuild _ fun _ => ⟨rfl, rfl, rfl⟩) hlook
  · exact hlook ()

theorem frame_parseMakefiles (hon : ∀ {α : Type} (x : Make) (y : MakeM α),
    s.makes[m]? = some x → Keeps R (onMakefile x.build y)) : R s ((parseMakefiles m).run s).2 :=
  frame_openMakefiles fun x hx => ⟨hon x _ hx, hon x _ hx, hon x _ hx⟩

end RunM

/-- The target in whose makefile an action may change something. -/
def Action.subject : Action → Option (Nat × Text)
  | .make b t .. | .recipeDone b t _ => some (b, t)
  | .resolved r .. | .recipe r => some (r.build, r.target)
  | _ => none

section Steps

variable [RunFrame R]

open RunM in
theorem Run.frame_perform_at (hown : ∀ b t, a.subject = some (b, t) → Tends R b t)
    (hrecipe : ∀ r, a = .recipe r → R s ((runRecipe r).run s).2)
    (hline : ∀ r error, a = .nextLine r error → R s ((nextLine r error).run s).2)
    (hgoal : ∀ b goal, Keeps R (onMakefile b (mention goal)))
    (hread : ∀ m, a = .parse m → R s ((parseMakefiles m).run s).2)
    (hnew : ∀ m remade e, a = .proceed m remade e → Keeps R (newBuild m))
    (hstart : ∀ args env cwd e, a = .start args env cwd e → ∀ x : Make, x.StartedWith args env e →
      ∀ s : Run, R s { s with makes := s.makes ++ [x] }) : R s ((perform a).run s).2 := by
  have hdo {x : RunM (List Action)} (hx : Keeps R x) :
      R s ((x >>= fun as => pure (as.map Frame.action) : RunM (List Frame)).run s).2 :=
    keeps_bind hx (fun _ => keeps_pure _) s
  cases a with
  | make b t => exact hdo (frame_makeTarget (hown b t rfl) _ _ _ _)
  | resolve => exact hdo (holds_resolveAction (P := fun _ => Keeps R) _)
  | resolved r => exact hdo (holds_resolved (P := fun _ => Keeps R) (hown _ _ rfl).finish _ _)
  | startDep => exact hdo (holds_startDep (P := fun _ => Keeps R) _ _ _)
  | reply => exact hdo (holds_tell (P := fun _ => Keeps R) hgoal _ _ _)
  | recipe r => exact keeps_bind_at (hrecipe r rfl) fun _ => keeps_pure _
  | recipeDone b t => exact hdo (holds_recipeDone (P := fun _ => Keeps R) (hown b t rfl).finish _)
  | nextLine r error => exact keeps_bind_at (hline r error rfl) fun _ => keeps_pure _
  | exit => exact hdo (holds_exit (P := fun _ => Keeps R) _ _)
  | start args env cwd e =>
    exact holds_startMake (P := fun _ => Keeps R)
      (fun x hx => keeps_modify (hstart _ _ _ _ rfl x hx)) _ s
  | proceed m remade e => exact holds_proceed (P := fun _ => Keeps R) hgoal (hnew m _ _ rfl) _ _ s
  | parse m => exact keeps_bind_at (hread m rfl) fun _ => keeps_pure _

omit [RunFrame R] in
open RunM in
/-- Every action is allowed if what it does to makefiles is, and new builds and makes are. -/
theorem Run.frame_perform [JobFrame R] (hown : ∀ b t, a.subject = some (b, t) → Handles R b t)
    (hgoal : ∀ b goal, Keeps R (onMakefile b (mention goal)))
    (hread : ∀ m, a = .parse m → Keeps R (parseMakefiles m))
    (hnew : ∀ m remade e, a = .proceed m remade e → Keeps R (newBuild m))
    (hstart : ∀ args env cwd e, a = .start args env cwd e → ∀ x : Make, x.StartedWith args env e →
      ∀ s : Run, R s { s with makes := s.makes ++ [x] }) : Keeps R (perform a) := by
  intro s
  refine frame_perform_at (fun b t h => (hown b t h).toTends) (fun r hr => ?_)
    (fun r error _ => frame_nextLine r error s) hgoal (fun m hm => hread m hm s) hnew hstart
  exact frame_runRecipe (hown r.build r.target (by rw [hr]; rfl)) s

omit [RunFrame R] in
open RunM in
theorem Run.frame_perform_blind [JobFrame R]
    (hon : ∀ {α : Type} (b : Nat) (x : MakeM α), Keeps R (onMakefile b x))
    (hover : ∀ b t (s : Run) (w : Work), s.rank b t ≤ w.rank →
      R s { s with builds := s.builds.modify b fun x => { x with works := putWork t w x.works } })
    (hnew : ∀ m, Keeps R (newBuild m))
    (hstart : ∀ args env cwd e, a = .start args env cwd e → ∀ x : Make, x.StartedWith args env e →
      ∀ s : Run, R s { s with makes := s.makes ++ [x] }) : Keeps R (perform a) :=
  frame_perform (fun b t _ => handles_of_onMakefile (hon b) (hover b t)) (fun b _ => hon b _)
    (fun _ _ _ => frame_parseMakefiles fun x _ _ => hon x.build _) (fun m _ _ _ => hnew m) hstart

namespace Run

theorem frame_abort (e : Error) (s : Run) : R s (s.abort e) :=
  trans_of R (RunFrame.stack s [] s.phase) (RunFrame.outcome _ _)

theorem frame_unwind (e : Error) (frames : List Frame) (s : Run) : R s (unwind e frames s) := by
  induction frames generalizing e s with
  | nil => exact frame_abort e s
  | cons f rest ih =>
    cases f with
    | action a => exact ih e s
    | guard g =>
      unfold unwind
      split
      · have hg : R s ((answer e g).run s).2 := RunM.holds_answer (P := fun _ => Keeps R) e g s
        split
        · rename_i h
          rw [h] at hg
          exact trans_of R hg (RunFrame.stack _ _ _)
        · rename_i h
          rw [h] at hg
          exact trans_of R hg (ih _ _)
      · exact ih e s

theorem frame_doNow {x : RunM (List Frame)} (rest : List Frame) (hx : R s (x.run s).2) :
    R s (doNow x rest s) := by
  unfold doNow
  split
  · rename_i h
    rw [h] at hx
    exact trans_of R hx (RunFrame.stack _ _ _)
  · rename_i h
    rw [h] at hx
    exact trans_of R hx (frame_unwind _ _ _)

/-- Every step is allowed if the action done in it is, or the turn of the event loop. -/
theorem frame_step (schedule : Schedule) (s : Run)
    (hact : ∀ a, s.doing = some a → R s ((perform a).run s).2)
    (hturn : R s (turn schedule s)) : R s (s.step schedule) := by
  unfold step
  split
  · exact refl_of R s
  rename_i ho
  split
  · rename_i a rest hs
    refine frame_doNow rest (hact a ?_)
    unfold doing
    rw [ho, hs]
  · exact RunFrame.stack s _ s.phase
  · exact hturn

omit [RunFrame R] in
/-- A turn of the event loop changes the world, the queues and what is to be done. -/
theorem frame_turn [LoopFrame R] (schedule : Schedule) (s : Run)
    (hworld : ∀ (s : Run) (w : World), R s { s with world := w }) : R s (turn schedule s) := by
  have htake (s : Run) (l : Loop Action ExitTo) (frames : List Frame) (phase : Phase) :
      R s { s with loop := l, stack := frames, phase := phase } :=
    trans_of R (LoopFrame.loop s l) (RunFrame.stack { s with loop := l } frames phase)
  unfold turn
  split
  · exact RunFrame.stack s s.stack _
  · split
    · unfold report
      split
      · exact refl_of R s
      · exact htake s _ _ _
    · split
      · exact RunFrame.stack s s.stack _
      · exact frame_abort _ s
  · split
    · exact RunFrame.stack s s.stack _
    · exact trans_of R (hworld s _) (htake { s with world := _ } _ _ s.phase)

end Run

end Steps

end Rebuild
