import Rebuild.Proofs.Build.Prerequisites
import Rebuild.Proofs.Makefile.Flags
/-!
# Dry runs

A make that was asked to only print its commands runs none of them, and neither do the makes below
it. That a run is such a dry run passes from the options of a make to the habits and the flags of
its makefiles, from the flags to the environment of its commands, and from there to the options of a
make that a command starts. As long as no makefile touches the flags while it is read, all makes of
the run are dry, every job that waits is only to be printed, and every job that was started has the
exit code 0 (`Course.dry_run`).
-/

namespace Rebuild

open List Run RunM

/-! ## Quiet runs -/

/-- A make only prints its commands, and its flags say so. -/
structure Make.IsDry (x : Make) : Prop where
  options : x.options.justPrint = true
  flags : ∃ o : Options, o.justPrint = true ∧ x.flags = o.flags

variable {e : ExitTo} {x : Make} {args : List Text}

theorem Make.StartedWith.isDry {env : Env} (h : x.StartedWith args env e)
    (hdry : ∀ o, Options.Reads env args o → o.justPrint = true) : x.IsDry := by
  obtain ⟨o, hreads, hflags, hprint⟩ := h.options
  exact ⟨hprint.trans (hdry o hreads), o, hdry o hreads, hflags⟩

theorem Make.IsDry.goesOn {x' : Make} (h : x.IsDry) (hx : x.GoesOn x') : x'.IsDry := by
  rw [show x' = _ from hx]
  exact ⟨h.options, h.flags⟩

/-- A job that waits is only to be printed, and a task that waits starts no make. -/
def Pending.IsDry : Pending Action ExitTo → Prop
  | .task a => isTame (.task a) = true
  | .launch _ _ echo justPrint => echo.isSome = true ∧ justPrint = true

theorem Pending.IsDry.of_isTame {p : Pending Action ExitTo} (h : p.isTame = true) : p.IsDry := by
  cases p with
  | task a => exact h
  | launch => cases h

/-- All makes are dry runs, what waits runs nothing, and what was started ends with the exit code
0. -/
structure Run.Quiet (s : Run) : Prop where
  makes : ∀ x ∈ s.makes, x.IsDry
  waits : ∀ p, s.loop.Waits p → p.IsDry
  runs : ∀ r, s.loop.Runs r → r.ending = some 0

/-- A quiet run stays quiet. -/
def Run.Quietens (s s' : Run) : Prop := s.Quiet → s'.Quiet

variable {s s' : Run} {h : List Deed} {L : Ledger} {a : Action}
  {rest frames : List Frame} {r : RuleAt}
  {line : RecipeLine} {l : Loop Action ExitTo} {c m : Nat} {job : Job} {echo : Option Text}
  {justPrint : Bool} {as : List Action}

theorem Run.quietens_loop (h : s.loop.AddsOnly Pending.IsDry l) :
    Quietens s { s with loop := l } := fun hs =>
  ⟨hs.makes, fun p hp => (h.waits p hp).elim (hs.waits p) id, fun r hr => hs.runs r (h.runs r hr)⟩

theorem Run.quietens_makes (s : Run) (m : Nat) {f : Make → Make} (hf : ∀ x : Make, x.GoesOn (f x)) :
    Quietens s { s with makes := s.makes.modify m f } := by
  intro hs
  refine ⟨fun x hx => ?_, hs.waits, hs.runs⟩
  obtain ⟨j, hj⟩ := getElem?_of_mem hx
  rw [getElem?_modify] at hj
  obtain ⟨y, hy, rfl⟩ := Option.map_eq_some_iff.1 hj
  have hdry := hs.makes y (mem_of_getElem? hy)
  split
  · exact hdry.goesOn (hf y)
  · exact hdry

instance : RunFrame Run.Quietens where
  refl _ := id
  trans _ _ _ h₁ h₂ hs := h₂ (h₁ hs)
  world _ _ _ hs := ⟨hs.makes, hs.waits, hs.runs⟩
  builds _ _ _ _ hs := ⟨hs.makes, hs.waits, hs.runs⟩
  work _ _ _ _ _ hs := ⟨hs.makes, hs.waits, hs.runs⟩
  makes s m _ hf := s.quietens_makes m fun x => (hf x).1
  shared s jobs _ := quietens_loop (.shared s.loop jobs)
  task _ _ _ _ ha hl := quietens_loop (.defer (.of_isTame ha) hl)
  stack _ _ _ hs := ⟨hs.makes, hs.waits, hs.runs⟩
  outcome _ _ hs := ⟨hs.makes, hs.waits, hs.runs⟩

namespace RunM

theorem quietens_onMakefile {α : Type} (b : Nat) (x : MakeM α) :
    Keeps Run.Quietens (onMakefile b x) :=
  keeps_onMakefile_of b fun _ hs => ⟨hs.makes, hs.waits, hs.runs⟩

theorem handles_quietens (b : Nat) (t : Text) : Handles Run.Quietens b t :=
  handles_of_onMakefile (quietens_onMakefile b) fun _ _ _ hs => ⟨hs.makes, hs.waits, hs.runs⟩

theorem quietens_newBuild (m : Nat) : Keeps Run.Quietens (newBuild m) :=
  frame_newBuild quietens_onMakefile (fun _ _ hs => ⟨hs.makes, hs.waits, hs.runs⟩)
  fun s _ => s.quietens_makes m

/-- A line of a recipe that is printed is put into the queue as a job that is only to be printed, in
a build whose makefile has commands printed only. -/
theorem quietens_startLine (hline : line.echo.isSome = true)
    (hmk : ∀ mk, s.makefile? r.build = some mk → mk.habits.justPrint = true) :
    Run.Quietens s ((startLine r line).run s).2 := by
  rcases gives_or_fails (startLine r line) s with ⟨as, s', h⟩ | ⟨e, s', h⟩ <;>
    rw [show (startLine r line).run s = _ from h]
  · obtain ⟨x, ps, w, hx, hstarted, -, rfl⟩ := startLine_gives h
    have hprint : x.makefile.habits.justPrint = true := hmk _ (by simp [makefile?, hx])
    have hdry : ∀ p ∈ ps, p.IsDry := by
      intro p hp
      cases hstarted with
      | native | process =>
        cases mem_singleton.1 hp
        exact ⟨hline, hprint⟩
      | nothing | make => cases hp
    intro hs
    have hqueue := quietens_loop (.queue hdry x.context) hs
    exact ⟨hqueue.makes, hqueue.waits, hqueue.runs⟩
  · obtain ⟨⟨w, rfl⟩, -⟩ := startLine_fails h
    exact fun hs => ⟨hs.makes, hs.waits, hs.runs⟩

/-- A make that a line of a recipe starts has the environment of the line. -/
theorem startLine_starts {env : Env} {cwd : Text}
    (h : Gives (startLine r line) s as s') (ha : .start args env cwd e ∈ as) : env = line.env := by
  obtain ⟨x, ps, w, -, hstarted, -⟩ := startLine_gives h
  cases hstarted with
  | native | process => cases ha
  | nothing => cases mem_singleton.1 ha
  | make =>
    cases mem_singleton.1 ha
    rfl

end RunM

/-- The makefile of a rule has commands printed only, and what is left of its recipe is dry. -/
structure Run.Mutes (s : Run) (r : RuleAt) : Prop where
  habits : ∀ mk, s.makefile? r.build = some mk → mk.habits.justPrint = true
  lines : ∀ w x, s.work r.build r.target = some w → w.rules[r.rule]? = some x →
    ∀ line ∈ x.lines, line.IsDry

namespace RunM

theorem quietens_nextLine {error : Bool} (hr : error = false → s.Mutes r) :
    Run.Quietens s ((nextLine r error).run s).2 := by
  unfold nextLine
  split
  · exact keeps_pure _ s
  · rename_i hwell
    have hr := hr (by simpa using hwell)
    refine keeps_bind_gives (keeps_ruleWork r s) fun x s1 hx => ?_
    obtain ⟨w, hw, hrule, rfl⟩ := gives_ruleWork.1 hx
    split
    · exact keeps_pure _ s
    · rename_i line more hlines
      refine keeps_bind_gives (frame_onRule r _ s) fun _ s1 h1 => ?_
      have e1 : s1.makefile? = s.makefile? := (sameMakefiles_onWork _ _ _).of_gives h1
      have hline : line.IsDry := hr.lines w x hw hrule line (by rw [hlines]; exact mem_cons_self)
      exact quietens_startLine hline.echo fun mk hmk => hr.habits mk (e1 ▸ hmk)

theorem nextLine_starts {env : Env} {cwd : Text} (hr : s.Mutes r)
    (h : Gives (nextLine r false) s as s') (ha : .start args env cwd e ∈ as) : env.IsDry := by
  obtain ⟨x, w, hw, hrule, h⟩ := h.of_ruleWork
  split at h
  · cases h
    cases mem_singleton.1 ha
  · rename_i line more hlines
    obtain ⟨_, s1, -, h⟩ := h.of_bind
    rw [startLine_starts h ha]
    exact (hr.lines w x hw hrule line (by rw [hlines]; exact mem_cons_self)).env

end RunM

namespace Run

/-- An action keeps a run quiet if the recipe that it goes on with is dry, and the make that it
starts. -/
theorem quietens_perform (hline : ∀ r, a = .nextLine r false → s.Mutes r)
    (hstart : ∀ args env cwd e, a = .start args env cwd e →
      ∀ o, Options.Reads env args o → o.justPrint = true) : Quietens s ((perform a).run s).2 := by
  refine frame_perform_at (fun b t _ => (handles_quietens b t).toTends)
    (fun r _ => frame_runRecipe (handles_quietens _ _) s)
    (fun r error ha => quietens_nextLine fun he => hline r (he ▸ ha))
    (fun b _ => quietens_onMakefile b _)
    (fun m _ => frame_parseMakefiles fun x _ _ => quietens_onMakefile x.build _)
    (fun m _ _ _ => quietens_newBuild m) fun args env cwd e ha x hx s hs => ?_
  refine ⟨fun y hy => ?_, hs.waits, hs.runs⟩
  rcases mem_append.1 hy with hy | hy
  · exact hs.makes y hy
  · rw [mem_singleton.1 hy]
    exact hx.isDry (hstart args env cwd e ha)

/-- The loop in which a job was started that is only printed. -/
theorem launch_printed (l : Loop Action ExitTo) (c : Nat) (w : World) (job : Job) (e : ExitTo)
    (text : Text) : l.launch c w job e (some text) true = (w.print text, { l.modify c fun x =>
      { x with running := x.running ++ [⟨l.started, some 0, e⟩] } with started := l.started +
      1 }) :=
  rfl

/-- A job that is only printed keeps a run quiet. -/
theorem quietens_launch (hl : s.loop.AddsOnly Pending.IsDry l) (c : Nat) (w : World) :
    Quietens s { s with world := w, loop := { l.modify c fun x =>
      { x with running := x.running ++ [⟨l.started, some 0, e⟩] } with
        started := l.started + 1 } } := by
  intro hs
  have hs := quietens_loop hl hs
  refine ⟨hs.makes, fun p hp => ?_, fun r hr => ?_⟩
  · obtain ⟨x, hx, hp⟩ := hp
    rcases Loop.mem_contexts_modify hx with hx | ⟨y, hy, rfl⟩
    · exact hs.waits p ⟨x, hx, hp⟩
    · exact hs.waits p ⟨y, hy, hp⟩
  · obtain ⟨x, hx, hr⟩ := hr
    rcases Loop.mem_contexts_modify hx with hx | ⟨y, hy, rfl⟩
    · exact hs.runs r ⟨x, hx, hr⟩
    · rcases mem_append.1 hr with hr | hr
      · exact hs.runs r ⟨y, hy, hr⟩
      · rw [mem_singleton.1 hr]

/-- What the event loop takes from a queue next. -/
def taken? (s : Run) : Option (Pending Action ExitTo) :=
  match s.phase with
  | .turn (c :: _) => (s.loop.next c).map (·.1)
  | _ => none

/-- How a turn of the event loop goes: nothing that waits is started, or a job that is only
printed is, and has the exit code 0. -/
inductive Turned (s s' : Run) : Prop
  | idle (takes : ∀ job e echo justPrint, s.taken? ≠ some (.launch job e echo justPrint))
      (world : s'.world = s.world)
  | echo {job : Job} {e : ExitTo} {text : Text}
      (takes : s.taken? = some (.launch job e (some text) true))
      (world : s'.world = s.world.print text)
      (runs : s'.loop.Runs ⟨s.loop.started, some 0, e⟩)

/-- A turn of the event loop leaves a quiet run quiet. -/
theorem Quiet.turn (hs : s.Quiet) (schedule : Schedule) :
    (Run.turn schedule s).Quiet ∧ Turned s (Run.turn schedule s) := by
  unfold Run.turn
  split
  · rename_i hphase
    refine ⟨⟨hs.makes, hs.waits, hs.runs⟩, .idle ?_ rfl⟩
    simp [taken?, hphase]
  · rename_i hphase
    have hidle {s' : Run} (hw : s'.world = s.world) : Turned s s' :=
      .idle (by simp [taken?, hphase]) hw
    split
    · unfold report
      split
      · exact ⟨hs, hidle rfl⟩
      · rename_i jobs l _ hreport
        have hl : s.loop.AddsOnly Pending.IsDry l := by
          have h := Loop.AddsOnly.report (P := Pending.IsDry) (schedule.arrange s.loop)
            (s.doneAmong schedule)
          rw [hreport] at h
          exact (Loop.AddsOnly.reorder s.loop _).trans h
        have hquiet := quietens_loop hl hs
        exact ⟨⟨hquiet.makes, hquiet.waits, hquiet.runs⟩, hidle rfl⟩
    · split
      · exact ⟨⟨hs.makes, hs.waits, hs.runs⟩, hidle rfl⟩
      · exact ⟨⟨hs.makes, hs.waits, hs.runs⟩, hidle rfl⟩
  · rename_i c rest hphase
    have htaken : s.taken? = (s.loop.next c).map (·.1) := by rw [taken?, hphase]
    split
    · rename_i hadvance
      refine ⟨⟨hs.makes, hs.waits, hs.runs⟩, .idle (fun job e echo justPrint htakes => ?_) rfl⟩
      rw [htaken] at htakes
      obtain ⟨⟨p, l⟩, hnext, rfl⟩ := Option.map_eq_some_iff.1 htakes
      rw [Loop.advance, hnext] at hadvance
      cases hadvance
    · rename_i todo w l hadvance
      rcases Loop.advance_some hadvance with
        ⟨a, hnext, rfl, rfl⟩ | ⟨job, e, echo, justPrint, l1, hnext, rfl, hlaunch⟩
      · have hquiet := quietens_loop (.next hnext) hs
        refine ⟨⟨hquiet.makes, hquiet.waits, hquiet.runs⟩, .idle ?_ rfl⟩
        simp [htaken, hnext]
      · obtain ⟨hecho, rfl⟩ := hs.waits _ (Loop.waits_of_next hnext)
        obtain ⟨text, rfl⟩ := Option.isSome_iff_exists.1 hecho
        rw [launch_printed] at hlaunch
        cases hlaunch
        have hquiet := quietens_launch (e := e) (.next hnext) c (s.world.print text) hs
        have hc : c < l1.contexts.length := Loop.length_next hnext ▸ Loop.lt_of_next hnext
        have htakes : s.taken? = some (.launch job e (some text) true) := by rw [htaken, hnext]; rfl
        have hstarted : l1.started = s.loop.started := by
          obtain ⟨_, -, -, rfl⟩ := Loop.next_some hnext
          rfl
        rw [hstarted] at hquiet ⊢
        refine ⟨⟨hquiet.makes, hquiet.waits, hquiet.runs⟩, .echo htakes rfl ⟨_, mem_of_getElem?
          (getElem?_modify_eq _ _ _ |>.trans (congrArg _ (getElem?_eq_getElem hc))), ?_⟩⟩
        exact mem_append_right _ (mem_singleton_self _)

/-- A quiet run stays quiet in every step, if the action done in it is no reason against it. -/
theorem Quiet.step (hs : s.Quiet) (schedule : Schedule)
    (hact : ∀ a, s.doing = some a → Quietens s ((perform a).run s).2) : (s.step schedule).Quiet :=
  frame_step schedule s hact (fun hs => (hs.turn schedule).1) hs

end Run

/-! ## What runs nothing -/

/-- Nothing is run: all makes have their commands printed only, a job that waits is only to be
printed, a job that was started ends with the exit code 0, and when the event loop takes a job it
prints it, starts nothing and has the exit code 0 for it. -/
structure Run.RunsNothing (s : Run) : Prop where
  makes : ∀ x ∈ s.makes, x.options.justPrint = true
  waiting : ∀ job e echo justPrint, s.loop.Waits (.launch job e echo justPrint) →
    echo.isSome = true ∧ justPrint = true
  started : ∀ r, s.loop.Runs r → r.ending = some 0
  turns : s.stack = [] → s.outcome = none → ∀ schedule, s.Turned (s.step schedule)

theorem Run.Quiet.runsNothing (hs : s.Quiet) : s.RunsNothing where
  makes x hx := (hs.makes x hx).options
  waiting _ _ _ _ hw := hs.waits _ hw
  started := hs.runs
  turns hstack ho schedule := by
    rw [Run.step, ho, hstack]
    exact (hs.turn schedule).2

/-! ## Dry runs -/

/-- If the makefiles of a make are read, they leave the flags as they are: the variable has the same
values in all tables, and is exported as before. -/
def Deed.LeavesFlags (d : Deed) : Prop :=
  ∀ m x mk mk', d.action = .parse m → d.before.makes[m]? = some x →
    d.before.makefile? x.build = some mk → d.after.makefile? x.build = some mk' → mk.SameFlags mk'

instance (d : Deed) : Decidable d.LeavesFlags :=
  match ha : d.action with
  | .parse m =>
    decidable_of_iff (∀ x ∈ d.before.makes[m]?, ∀ mk ∈ d.before.makefile? x.build,
        ∀ mk' ∈ d.after.makefile? x.build, mk.SameFlags mk') <| by
      constructor
      · intro h m' x mk mk' hm' hx hmk hmk'
        cases ha.symm.trans hm'
        exact h x hx mk hmk mk' hmk'
      · exact fun h x hx mk hmk mk' hmk' => h m x mk mk' ha hx hmk hmk'
  | .make .. | .resolve _ | .resolved .. | .startDep .. | .reply .. | .recipe _ | .recipeDone
      .. | .nextLine ..
  | .exit .. | .start .. | .proceed .. => .isTrue fun m _ _ _ h => nomatch ha.symm.trans h

/-- What an action finds in a dry run: makefiles that are about to be read are dry, and a make that
is about to be started reads options of a dry run. -/
def Run.Expects (s : Run) : Action → Prop
  | .parse m => ∀ x mk, s.makes[m]? = some x → s.makefile? x.build = some mk → mk.IsDry
  | .start args env _ _ => ∀ o, Options.Reads env args o → o.justPrint = true
  | _ => True

/-- A dry run: it is quiet, its makefiles that were read are dry, and so are the lines of recipes
and what is being done. -/
structure Run.Dry (h : List Deed) (s : Run) : Prop where
  quiet : s.Quiet
  read : ∀ b mk, s.makefile? b = some mk → mk.finished = true → mk.IsDry
  lines : ∀ r ls, Given h r ls → ∀ line ∈ ls, line.IsDry
  next : ∀ a ∈ actions s.stack, s.Expects a

theorem Loop.waits_of_mem_duties (h : Duty.task a ∈ l.duties) : l.Waits (.task a) := by
  obtain ⟨x, hx, hmem⟩ := mem_flatMap.1 h
  rcases mem_append.1 hmem with hmem | hmem
  · obtain ⟨p, hp, he⟩ := mem_map.1 hmem
    cases p with
    | task a' =>
      cases he
      exact ⟨x, hx, hp⟩
    | launch => cases he
  · obtain ⟨r, -, he⟩ := mem_map.1 hmem
    cases he

theorem Run.expects_of_exits (he : ∀ a ∈ actions frames, ∃ e code, a = .exit e code) :
    ∀ a ∈ actions frames, s.Expects a := by
  intro a ha
  obtain ⟨e, code, rfl⟩ := he a ha
  trivial

namespace RunM

theorem newBuild_dry {u : Unit} (hmakes : ∀ x ∈ s.makes, x.IsDry) (h : Gives (newBuild m) s u s') :
    s'.Expects (.parse m) := by
  obtain ⟨x, hm, h⟩ := h.of_make
  replace h := h.of_get
  extract_lets config c fresh at h
  obtain ⟨_, s1, h1, h⟩ := h.of_bind
  obtain rfl := gives_set.1 h1
  obtain ⟨_, s2, h2, h⟩ := h.of_bind
  obtain ⟨y, mk, hy, hstart, e2⟩ := onMakefile_gives h2
  have hfresh : (s.builds ++ [fresh])[c]? = some fresh := by simp [c]
  cases hy.symm.trans hfresh
  have hmake : s.makes[m]? = some x := hm
  have hx := hmakes x (mem_of_getElem? hmake)
  obtain ⟨o, hp, hflags⟩ := hx.flags
  have hdry : mk.IsDry := MakeM.start_dry hstart hx.options hflags hp
  intro x' mk' hx' hmk'
  rw [← gives_modify.1 h, e2] at hx' hmk'
  simp only [getElem?_modify, hmake, if_true, Option.map_eq_map, Option.map_some,
    Option.some.injEq] at hx'
  subst hx'
  have hmk : mk' = mk := by simpa [makefile?, getElem?_modify, c] using hmk'.symm
  rw [hmk]
  exact hdry

theorem proceed_reads {remade : Bool} {e : Option Error}
    (h : Gives (proceed m remade e) s [.action (.parse m), .guard (.parse m)] s') :
    ∃ s1, s1.makes = s.makes ∧ Gives (newBuild m) s1 () s' := by
  unfold proceed at h
  split at h
  · obtain ⟨_, s1, -, h⟩ := h.of_bind
    obtain ⟨_, s2, -, h⟩ := h.of_bind
    cases h
  · split at h
    · obtain ⟨x, -, h⟩ := h.of_make
      obtain ⟨s1, e1, h⟩ := h.of_when (R := fun s s' : Run => s'.makes = s.makes)
        (keeps_modify fun _ => rfl)
      obtain ⟨_, h2, -⟩ := h.of_pure
      exact ⟨s1, e1, h2⟩
    · obtain ⟨as, s1, -, h⟩ := h.of_bind
      have hguard : Frame.guard (.parse m) ∈ as.map Frame.action := by
        rw [(gives_pure.1 h).1]
        simp
      obtain ⟨a, -, ha⟩ := mem_map.1 hguard
      cases ha

end RunM

/-- The lines of a recipe read in a dry makefile are dry. -/
theorem RunM.ReadLines.dry {ref : RuleRef} {mk : Makefile} (h : ReadLines r ref s s')
    (hmk : s.makefile? r.build = some mk) (hf : mk.finished = true) (hdry : mk.IsDry) :
    ∀ w x, s'.work r.build r.target = some w → w.rules[r.rule]? = some x →
      ∀ line ∈ x.lines, line.IsDry := by
  obtain ⟨s1, s2, lines, hsettles, hlines, hset⟩ := h
  obtain ⟨mk1, hmk1, hstays⟩ := hsettles.old _ mk not_false hmk
  have hstays := hstays hf
  obtain ⟨y, mk2, hy, hgives, -⟩ := onMakefile_gives hlines
  have hread : Session.IsDry ⟨s1.world, y.makefile⟩ := by
    obtain rfl : y.makefile = mk1 := by simpa [makefile?, hy] using hmk1
    exact ⟨by rw [hstays.same]; exact hf, hdry.stays hstays⟩
  intro w x hw hx
  obtain ⟨w2, -, hview⟩ := onRule_view hset
  have hw' : s'.view.work r.build r.target = some w := hw
  rw [hview, View.put_work_self] at hw'
  cases hw'
  rw [Work.onRule_rule] at hx
  obtain ⟨x2, -, rfl⟩ := Option.map_eq_some_iff.1 hx
  exact Recipe.lines_dry hread hgives

instance : IsPreorder Makefile fun mk mk' => mk'.habits = mk.habits where
  refl _ := rfl
  trans _ _ _ h₁ h₂ := h₂.trans h₁

/-- Reading makefiles leaves their habits as they are. -/
theorem Run.step_habits (schedule : Schedule) (hd : s.doing = some (.parse m)) :
    Relates (fun _ mk mk' => mk'.habits = mk.habits) (fun _ => False) s (s.step schedule) := by
  refine frame_step schedule s (fun a ha => ?_) (frame_turn schedule s fun _ _ =>
    relates_of_makefiles rfl)
  cases hd.symm.trans ha
  refine keeps_bind_at (frame_openMakefiles fun x _ => ⟨?_, ?_, ?_⟩) fun _ => keeps_pure _
  · exact relates_onMakefile (.inr (Keeps.sameHabits (keeps_bind (MakeM.keeps_execute _ _) fun _ =>
      keeps_forM fun _ => MakeM.keeps_includeFile _ _ _)))
  · exact relates_onMakefile (.inr MakeM.sameHabits_finish)
  · exact relates_onMakefile (.inr (keeps_bind MakeM.keeps_makefile fun mk =>
      keeps_readIncluded mk.included))

namespace Run.Dry

section

variable (hD : s.Dry h) (hB : Balanced h s.view L)
include hD hB

theorem mutes (hS : s.Sourced h) (ho : s.outcome = none)
    (hs : s.stack = .action (.nextLine r false) :: rest) : s.Mutes r := by
  have hcooks : s.Cooks r := by
    refine ⟨ho, .next r false, ⟨rfl, rfl⟩, .inl ⟨.nextLine r false, ?_, rfl⟩⟩
    rw [hs]
    exact mem_cons_self
  obtain ⟨w, x, lines, hw, hx, -, -, hgiven, hlines⟩ := hB.cooking_lines hcooks
  obtain ⟨mk, hmk, hf, -⟩ := hS.works _ _ w hw
  refine ⟨fun mk' hmk' => ?_, fun w' x' hw' hx' line hline => ?_⟩
  · cases hmk.symm.trans hmk'
    exact (hD.read _ mk hmk hf).habits
  · cases hw.symm.trans hw'
    cases hx.symm.trans hx'
    exact hD.lines r lines hgiven line (hlines hline)

theorem quiet_step (hS : s.Sourced h) (schedule : Schedule) : (s.step schedule).Quiet := by
  refine hD.quiet.step schedule fun a ha => ?_
  obtain ⟨ho, rest, hs⟩ := doing_eq_some ha
  refine quietens_perform (fun r hr => ?_) fun args env cwd e hstart => ?_
  · subst hr
    exact hD.mutes hB hS ho hs
  · subst hstart
    exact hD.next (.start args env cwd e) (by rw [hs]; exact mem_cons_self)

theorem expects (hS : s.Sourced h) (ho : s.outcome = none)
    (hs : s.stack = .action a :: rest) (hg : Gives (perform a) s frames s') :
    ∀ a' ∈ actions frames, s'.Expects a' := by
  intro a' ha'
  have hpasses : ∀ {p v as}, Passes s.view p as v → a' ∈ actions (as.map .action) →
      s'.Expects a' := by
    intro p v as hp ha'
    rw [actions_map] at ha'
    cases hp with
    | ask | proceed =>
      cases mem_singleton.1 ha'
      trivial
    | exit => cases ha'
  cases hB.does_of_gives hs hg with
  | @took b t _ now took =>
    obtain ⟨_, _, _, _, _, -, turn, -⟩ := took.exists_turn
    rw [actions_map] at ha'
    rcases turn.follows with rfl | ⟨-, a1, τ, rfl, hplain, -⟩
    · cases ha'
    cases mem_singleton.1 ha'
    cases a' with
    | start args env cwd e =>
      -- only a line of a recipe starts a make, in the environment of the line
      obtain ⟨r, rfl⟩ := turn.of_start
      obtain ⟨as, hline, has⟩ := hg.of_pure
      have hmem : Action.start args env cwd e ∈ as := by
        have hmap := congrArg actions has
        rw [actions_map, actions_map] at hmap
        rw [hmap]
        exact mem_cons_self
      have henv : env.IsDry := nextLine_starts (hD.mutes hB hS ho hs) hline hmem
      exact fun o hreads => henv.reads hreads
    | parse => cases hplain
    | _ => trivial
  | asks =>
    cases mem_singleton.1 ha'
    trivial
  | asked asked =>
    rw [actions_map] at ha'
    cases asked with
    | answered =>
      cases mem_singleton.1 ha'
      trivial
    | joined | barren => cases ha'
    | @begun serial =>
      cases serial
      · cases ha'
      · cases mem_singleton.1 ha'
        trivial
  | told _ passes => exact hpasses passes ha'
  | proceeds passes => exact hpasses passes ha'
  | parses passes => exact hpasses passes ha'
  | @reads m remade e =>
    cases mem_singleton.1 ha'
    obtain ⟨s1, hmakes, hnew⟩ := proceed_reads hg
    exact newBuild_dry (by rw [hmakes]; exact hD.quiet.makes) hnew
  | starts _ started =>
    cases started with
    | quits | there =>
      cases mem_singleton.1 ha'
      trivial
  | ends => cases ha'

theorem read_step {schedule : Schedule}
    (hleaves : ∀ a, s.doing = some a → Deed.LeavesFlags ⟨a, s, s.step schedule⟩) (b : Nat)
    (mk' : Makefile)
    (hmk' : (s.step schedule).makefile? b = some mk') (hf : mk'.finished = true) : mk'.IsDry := by
  by_cases hreads : s.Reads b
  · -- the habits are those from before, and so are the flags
    obtain ⟨m, x, hdoing, hx, rfl⟩ := hreads
    obtain ⟨-, rest, hs⟩ := doing_eq_some hdoing
    have hmem : Action.parse m ∈ actions s.stack := by
      rw [hs]
      exact mem_cons_self
    obtain ⟨x', hx', hboss, -⟩ := hB.admits _ hmem
    cases hx.symm.trans hx'
    obtain ⟨y, hy, -⟩ := Option.map_eq_some_iff.1 hboss
    have hmk : s.makefile? x.build = some y.makefile := by simp [makefile?, hy]
    obtain ⟨mk, hmk1, hhabits⟩ := (step_habits schedule hdoing).old _ _ not_false hmk
    cases hmk1.symm.trans hmk'
    exact (hD.next _ hmem x _ hx hmk).of_sameFlags hhabits
      (hleaves _ hdoing m x _ _ rfl hx hmk hmk')
  · obtain ⟨mk, hmk, hread, hstays⟩ := step_read hreads hmk' hf
    exact (hD.read b mk hmk hread).stays hstays

end

theorem lines_act (hD : s.Dry h) (hS : s.Sourced h) (hst : Stepped s s') (hb : ¬ s'.Broken)
    (hs : s.stack = .action a :: rest) (r : RuleAt) (ls : List RecipeLine)
    (hg : Given (⟨a, s, s'⟩ :: h) r ls) : ∀ line ∈ ls, line.IsDry := by
  obtain ⟨d, hd, hrecipe, hhead, w', x', hw', hx', rfl⟩ := hg
  rcases mem_cons.1 hd with rfl | hd
  · have ha : a = .recipe r := hrecipe
    subst ha
    obtain ⟨w, x, ref, mk, s1, hw, hx, -, hmk, -, hread, hwork⟩ := hst.begins hb hs hhead
    obtain ⟨mk1, hmk1, hf, -⟩ := hS.works _ _ w hw
    cases hmk1.symm.trans hmk
    exact hread.dry hmk hf (hD.read _ mk hmk hf) w' x' (hwork ▸ hw') hx'
  · exact hD.lines r _ ⟨d, hd, hrecipe, hhead, w', x', hw', hx', rfl⟩

/-- What is to be done after an action finds what it expects. -/
theorem next_act (hD : s.Dry h) (hB : Balanced h s.view L) (hS : s.Sourced h)
    (ho : s.outcome = none)
    (hst : Stepped s s') (hs : s.stack = .action a :: rest) :
    ∀ a' ∈ actions s'.stack, s'.Expects a' := by
  have hrest : ∀ a' ∈ actions rest, ∃ e code, a' = .exit e code := fun a' ha' =>
    (hB.rest_of hs).actions_exit ha'
  cases hst.acted hs with
  | @gives frames s1 gives state =>
    subst state
    intro a' ha'
    rcases mem_append.1 (actions_append frames rest ▸ ha') with ha' | ha'
    · exact hD.expects hB hS ho hs gives a' ha'
    · exact expects_of_exits hrest a' ha'
  | @complaint g rest' frames e s1 s2 guarded may fails answered state =>
    subst guarded state
    intro a' ha'
    rcases mem_append.1 (actions_append frames rest' ▸ ha') with ha' | ha'
    · exact expects_of_exits (answer_exits answered) a' ha'
    · exact expects_of_exits hrest a' ha'
  | abort stack =>
    rw [stack]
    exact fun a' ha' => absurd ha' not_mem_nil

/-- What is to be done after a step without an action finds what it expects. -/
theorem next_pass (hD : s.Dry h) (hB : Balanced h s.view L) (ho : s.outcome = none)
    (hst : Stepped s s')
    (hd : s.doing = none) : ∀ a' ∈ actions s'.stack, s'.Expects a' := by
  have hidle : ∀ {a rest}, s.stack ≠ .action a :: rest := by
    intro a rest hs
    unfold doing at hd
    simp [ho, hs] at hd
  cases hst with
  | act stack | complaint stack => exact absurd stack hidle
  | @pop g rest stack state =>
    subst state
    refine expects_of_exits fun a ha => ?_
    rcases hB.shape with hrest | ⟨a', rest', hs', -⟩
    · refine hrest.actions_exit ?_
      rw [show s.view.stack = _ from stack]
      exact ha
    · exact absurd hs' hidle
  | @task a queue _ taken view =>
    intro a' ha'
    rw [show s'.stack = [.action a] from congrArg View.stack view] at ha'
    cases mem_singleton.1 ha'
    -- no make is started from a queue, and no makefile is read
    have hmem : Duty.task a ∈ s.view.queue := by
      rw [taken]
      simp
    have htame := hD.quiet.waits _ (Loop.waits_of_mem_duties (Multiset.mem_coe.1 hmem))
    have hlate := (hB.queued a hmem).2
    cases a with
    | start => cases htame
    | parse => cases hlate
    | _ => trivial
  | idle stack view =>
    rw [show s'.stack = s.stack from congrArg View.stack view, stack]
    exact fun a' ha' => absurd ha' not_mem_nil
  | report jobs queue stack taken view =>
    have hexits : s'.stack = (jobs.map fun j => Action.exit j.1 j.2).map Frame.action := by
      rw [map_map]
      exact congrArg View.stack view
    rw [hexits]
    refine expects_of_exits fun a ha => ?_
    rw [actions_map] at ha
    obtain ⟨j, -, rfl⟩ := mem_map.1 ha
    exact ⟨_, _, rfl⟩
  | abort stack =>
    rw [stack]
    exact fun a' ha' => absurd ha' not_mem_nil

end Run.Dry

variable {w : World} {args : List Text} {env : Env} {cwd : Text}

theorem Run.dry_init (hasks : ∀ o, Options.Reads env args o → o.justPrint = true) :
    (init w args env cwd).Dry [] where
  quiet := by
    refine ⟨fun x hx => absurd hx not_mem_nil, fun p hp => ?_, fun r hr => ?_⟩
    · obtain ⟨x, hx, -⟩ := hp
      cases hx
    · obtain ⟨x, hx, -⟩ := hr
      cases hx
  read b mk hmk := by cases hmk
  lines r ls hg := by
    obtain ⟨d, hd, -⟩ := hg
    cases hd
  next a ha := by
    cases mem_singleton.1 ha
    exact hasks

/-- A run that was asked to be dry is dry, as long as the flags are left alone. -/
theorem Course.dry (hc : Course (.init w args env cwd) h s)
    (hasks : ∀ o, Options.Reads env args o → o.justPrint = true) (hflags : ∀ d ∈ h, d.LeavesFlags) :
    s.Broken ∨ s.Dry h := by
  refine (hc.invariant (P := fun h s => Course (.init w args env cwd) h s ∧
    ((∀ d ∈ h, d.LeavesFlags) → s.Dry h)) ⟨.start, fun _ => dry_init hasks⟩ ?_ ?_).imp_right
      fun hdry => hdry.2 hflags
  · rintro h s s' a rest ⟨hc, hD⟩ hm hs
    have hdoing : s.doing = some a := by
      unfold doing
      rw [hm.goes, hs]
    obtain ⟨schedule, rfl⟩ := hm.step
    obtain ⟨L, hB⟩ := hm.balanced
    have hS := hc.sourced.resolve_left (not_broken hm.goes)
    refine ⟨.act schedule hc hdoing, fun hflags => ?_⟩
    have hD := hD fun d hd => hflags d (mem_cons_of_mem _ hd)
    refine ⟨hD.quiet_step hB hS schedule, hD.read_step hB fun a' ha' => ?_,
      hD.lines_act hS hm.stepped hm.runs hs, hD.next_act hB hS hm.goes hm.stepped hs⟩
    cases hdoing.symm.trans ha'
    exact hflags _ mem_cons_self
  · rintro h s s' ⟨hc, hD⟩ hm hdoing
    obtain ⟨schedule, rfl⟩ := hm.step
    obtain ⟨L, hB⟩ := hm.balanced
    have hS := hc.sourced.resolve_left (not_broken hm.goes)
    refine ⟨.pass schedule hc hdoing, fun hflags => ?_⟩
    have hD := hD hflags
    refine ⟨hD.quiet_step hB hS schedule, hD.read_step hB fun a' ha' => ?_, hD.lines,
      hD.next_pass hB hm.goes hm.stepped hdoing⟩
    cases hdoing.symm.trans ha'

/-- A dry run is quiet to its end, also if that is an error. -/
theorem Course.quiet (hc : Course (.init w args env cwd) h s)
    (hasks : ∀ o, Options.Reads env args o → o.justPrint = true) (hflags : ∀ d ∈ h, d.LeavesFlags) :
    s.Quiet := by
  have hstep : ∀ {h s}, Course (.init w args env cwd) h s → (∀ d ∈ h, d.LeavesFlags) →
    s.outcome = none →
      ∀ schedule, (s.step schedule).Quiet := by
    intro h s hc hflags ho schedule
    have hrun := not_broken ho
    obtain ⟨L, hB⟩ := hc.balanced.resolve_left hrun
    exact ((hc.dry hasks hflags).resolve_left hrun).quiet_step hB
      (hc.sourced.resolve_left hrun) schedule
  induction hc with
  | start => exact (dry_init hasks).quiet
  | act schedule hc doing =>
    exact hstep hc (fun d hd => hflags d (mem_cons_of_mem _ hd)) (doing_eq_some doing).1 schedule
  | @pass h s schedule hc doing ih =>
    cases ho : s.outcome with
    | some o =>
      rw [step_of_outcome ho]
      exact ih hflags
    | none => exact hstep hc hflags ho schedule

/-- **A dry run runs nothing.** If the options that the outermost make reads ask for commands to be
printed only, and no makefile of it or of a make below touches the flags while it is read, then in
every state that the run comes to, with any number of jobs and any schedule, all makes are dry runs,
no job that waits is to be run, every job that was started has the exit code 0, and the event loop
does no more than print. -/
theorem Course.dry_run (hc : Course (.init w args env cwd) h s)
    (hasks : ∀ o, Options.Reads env args o → o.justPrint = true) (hflags : ∀ d ∈ h, d.LeavesFlags) :
    s.RunsNothing :=
  (hc.quiet hasks hflags).runsNothing

/-- The command line of a dry run with two jobs at a time. -/
def Sample.dryArgs : List Text := ["-n", "-f", "m", "-j2"]

/-- A dry run of a makefile whose recipe starts a make, which has a line that is not to be
announced. -/
def Sample.dry : Run :=
  .init (.fresh ⟨[(["w"], .dir (.ofInt 1)),
      (["w", "m"], .file (.ofInt 1) "all:\n\t$(MAKE) -f s\n" false),
      (["w", "s"], .file (.ofInt 1) "a:\n\t@y\n" false)], .ofInt 1, .ofInt 1000⟩
    "/w" [("SHELL", "/bin/sh"), ("PATH", "/bin")] [])
    dryArgs [] "/w"

/-- When the line of the make below waits to be started, it is only to be printed. -/
theorem dry_run_nested : (∀ o, Options.Reads [] Sample.dryArgs o → o.justPrint = true) ∧
    ∃ h s, Course Sample.dry h s ∧ (∀ d ∈ h, d.LeavesFlags) ∧ s.makes.length = 2 ∧
      s.loop.contexts.any (fun x => x.pending.any (!·.isTame)) = true ∧ s.RunsNothing := by
  have hasks : ∀ o, Options.Reads [] Sample.dryArgs o → o.justPrint = true := fun o h =>
    Options.Reads.dry_of_cons h
  obtain ⟨h, s, hc, hflags, hmakes, hwaits⟩ :=
    Course.of_steps Sample.dry (P := fun h s => (∀ d ∈ h, d.LeavesFlags) ∧
    s.makes.length = 2 ∧ s.loop.contexts.any (fun x => x.pending.any (!·.isTame)) = true) 33
      (by decide +kernel)
  exact ⟨hasks, h, s, hc, hflags, hmakes, hwaits, Course.dry_run hc hasks hflags⟩

end Rebuild
