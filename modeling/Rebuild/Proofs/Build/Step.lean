import Rebuild.Proofs.Build.Begin
import Rebuild.Proofs.Build.Grave
import Rebuild.Proofs.Build.Make
/-!
# One step of a run

What a step can do, said once: what every action does when it succeeds (`Does`), what a complaint
leads to, and what the event loop does when there is nothing to be done at once (`Turns`).
-/

namespace Rebuild

open List RunM

variable {c : Nat} {job : Job} {echo : Option Text} {justPrint : Bool} {s s' : Run} {a : Action}
  {frames rest : List Frame} {schedule : Schedule}

/-- Who waits for a target of a build as a prerequisite is in the same build. -/
def Reply.Within (b : Nat) : Reply → Prop
  | .dependent r _ => r.build = b
  | .makefiles _ | .goals _ => True

/-- What an action relies on: who waits for it is there, a loop is avoided only for a makefile, what
is told about a target is true, and the makefiles that are read are those of the make, which has not
begun with any target of theirs. -/
def View.Admits (v : View) : Action → Prop
  | .make b t _ ρ avoidLoop _ =>
    v.Knows (ρ.post t) ∧ ρ.Within b ∧ (avoidLoop = true → ρ = .makefiles b)
  | .reply b t ρ error _ => v.Knows (ρ.post t) ∧ ρ.Within b ∧
    ∃ w, v.work b t = some w ∧ w.progress = .finished ∧ w.error = error
  | .proceed m _ _ => v.Knows (.make m)
  | .parse m => ∃ x, v.make m = some x ∧ v.boss x.build = some m ∧ ∀ t, v.work x.build t = none
  | _ => True

/-- The target to which something belongs is being worked on. -/
def View.Owns (v : View) (p : Post) : Prop :=
  ∀ b t, (v.thread p).owner = some (b, t) → ∃ w, v.work b t = some w

/-- What an action does if it succeeds, with what is to be done at once after it. -/
inductive Does (s s' : Run) : Action → List Frame → Prop
  | took {b : Nat} {t : Text} {a : Action} {now : List Action}
      (took : Took s.view b t a now s'.view) : Does s s' a (now.map .action)
  | asks {r : RuleAt} {d : Text} {weak : Bool} {stack : List Text}
      (calm : s.view.failed r.build = false) (view : s'.view = s.view) :
      Does s s' (.startDep r d weak)
        [.action (.make r.build d stack (.dependent r weak) false true)]
  | asked {b : Nat} {t : Text} {stack : List Text} {ρ : Reply} {avoidLoop report : Bool}
      {now : List Action} (asked : Asked s s' b t ρ avoidLoop now) :
      Does s s' (.make b t stack ρ avoidLoop report) (now.map .action)
  | told {b : Nat} {t : Text} {ρ : Reply} {error did : Bool} {now : List Action}
      (make : ρ.isMake = true) (passes : Passes s.view (ρ.post t) now s'.view) :
      Does s s' (.reply b t ρ error did) (now.map .action)
  | proceeds {m : Nat} {remade : Bool} {e : Option Error} {now : List Action}
      (passes : Passes s.view (.make m) now s'.view) (known : ¬ (remade = true ∧ e = none)) :
      Does s s' (.proceed m remade e) (now.map .action)
  | reads {m : Nat} {remade : Bool} {e : Option Error} {x : Make}
      (grows : s.view.Grows s'.view) (known : s'.view.make m = some x)
      (boss : s'.view.boss x.build = some m) (new : s.view.boss x.build = none) :
      Does s s' (.proceed m remade e) [.action (.parse m), .guard (.parse m)]
  | parses {m : Nat} {now : List Action} (passes : Passes s.view (.make m) now s'.view) :
      Does s s' (.parse m) (now.map .action)
  | starts {args : List Text} {env : Env} {cwd : Text} {e : ExitTo} {frames : List Frame}
      (grows : s.view.Grows s'.view) (started : RunM.Started s s' e frames) :
      Does s s' (.start args env cwd e) frames
  | ends {code : Int} (state : s' = { s with outcome := some (.exit code) }) :
      Does s s' (.exit .outside code) []

/-! ## The event loop -/

namespace Loop

variable {l l' : Loop Action ExitTo}

/-- What is taken from a queue is one duty less. -/
theorem duties_next {p : Pending Action ExitTo} (h : l.next c = some (p, l')) :
    (l.duties : Multiset Duty) = l'.duties + {Duty.ofPending p} ∧
      l'.contexts.map (·.jobs) = l.contexts.map (·.jobs) := by
  have hx := getElem?_eq_getElem (lt_of_next h)
  obtain ⟨rest, hq, -, rfl⟩ := next_some h
  rw [context_of_getElem? hx] at hq
  refine ⟨?_, ?_⟩
  · rw [← add_zero (Multiset.ofList _)]
    refine flatMap_modify_add hx ?_
    simp only [Context.duties, hq, map_cons, cons_append, ← Multiset.cons_coe]
    rw [← Multiset.singleton_add, add_zero, add_comm]
  · apply map_modify_of_eq
    exact fun _ => rfl

/-- A job that is started waits no more, but runs. -/
theorem duties_launch {w w' : World} {e : ExitTo} (hc : c < l.contexts.length)
    (h : l.launch c w job e echo justPrint = (w', l')) :
    (l'.duties : Multiset Duty) = l.duties + {Duty.job e} ∧
      l'.contexts.map (·.jobs) = l.contexts.map (·.jobs) := by
  obtain ⟨-, rfl⟩ := launch_eq h
  refine ⟨?_, ?_⟩
  · rw [← add_zero (Multiset.ofList _)]
    refine (flatMap_modify_add (getElem?_eq_getElem hc) ?_).symm
    simp only [Context.duties, map_append, map_cons, map_nil, ← Multiset.coe_add,
      Multiset.coe_singleton, add_assoc, add_zero]
  · apply map_modify_of_eq
    exact fun _ => rfl

/-- A job that is reported runs no more. -/
theorem duties_report (l : Loop Action ExitTo) (done : Nat → Bool) :
    (l.duties : Multiset Duty) =
      (l.report done).2.duties + ((l.report done).1.map fun r => Duty.job r.answer) ∧
      (l.report done).2.contexts.map (·.jobs) = l.contexts.map (·.jobs) := by
  refine (report_induction (P := fun jobs l' => (l.duties : Multiset Duty) =
    l'.duties + (jobs.map fun r => Duty.job r.answer) ∧
      l'.contexts.map (·.jobs) = l.contexts.map (·.jobs)) done ⟨by simp, rfl⟩ ?_).1
  rintro jobs l' c - ⟨hduties, hjobs⟩
  refine ⟨?_, ?_⟩
  · have hleft : (l'.duties : Multiset Duty) = (l'.release (l.endingAmong done) c).duties +
        ((l'.context c).running.filter fun r => l.endingAmong done r.id).map
          fun r => Duty.job r.answer := by
      cases hx : l'.contexts[c]? with
      | none =>
        have hc := getElem?_eq_none_iff.1 hx
        rw [release, modify, modify_eq_self hc, context_of_le hc]
        simp
      | some x =>
        rw [context_of_getElem? hx, ← add_zero (Multiset.ofList _)]
        refine flatMap_modify_add hx ?_
        rw [add_zero, Multiset.coe_add, Multiset.coe_eq_coe]
        simp only [Context.duties, append_assoc, ← map_append]
        exact ((perm_append_comm.trans (filter_append_perm _ _)).symm.map _).append_left _
    rw [hduties, hleft, map_append, ← Multiset.coe_add]
    ac_rfl
  · rw [← hjobs]
    apply map_modify_of_eq
    exact fun _ => rfl

end Loop

namespace Run

/-- What an action that succeeds does. -/
theorem perform_does (hv : s.view.Wired) (ha : s.view.Admits a) (ho : s.view.Owns a.post)
    (h : Gives (perform a) s frames s') : Does s s' a frames := by
  cases a with
  | make b t stack ρ avoidLoop report =>
    obtain ⟨now, h1, rfl⟩ := h.of_pure
    exact .asked (makeTarget_asked h1)
  | resolve r =>
    obtain ⟨now, h1, rfl⟩ := h.of_pure
    exact .took (resolveAction_took h1)
  | resolved r error did =>
    obtain ⟨now, h1, rfl⟩ := h.of_pure
    exact .took (resolved_took h1)
  | startDep r d weak =>
    obtain ⟨now, h1, rfl⟩ := h.of_pure
    rcases startDep_view h1 with ⟨-, htook⟩ | ⟨hcalm, hview, stack, rfl⟩
    · exact .took htook
    · exact .asks hcalm hview
  | reply b t ρ error did =>
    obtain ⟨now, h1, rfl⟩ := h.of_pure
    obtain ⟨hknown, hwithin, wd, hwd, hended, htold⟩ := ha
    cases ρ with
    | dependent r weak =>
      have hb : r.build = b := hwithin
      subst hb
      exact .took (depDone_took hwd hended htold h1)
    | makefiles b' =>
      exact .told rfl (remakeNext_passes hv (.refl _) rfl h1)
    | goals m =>
      refine .told rfl ?_
      unfold RunM.tell at h1
      dsimp only at h1
      split at h1
      · obtain ⟨_, h2, rfl⟩ := h1.of_pure
        exact exitLater_passes hv (.refl _) hknown h2
      · exact nextGoal_passes hv (.refl _) hknown h1
  | recipe r =>
    obtain ⟨now, h1, rfl⟩ := h.of_pure
    exact .took (runRecipe_took h1)
  | recipeDone b t error =>
    obtain ⟨now, h1, rfl⟩ := h.of_pure
    exact .took (recipeDone_took h1)
  | nextLine r error =>
    obtain ⟨now, h1, rfl⟩ := h.of_pure
    obtain ⟨w, hw⟩ := ho r.build r.target rfl
    exact .took (nextLine_took hw h1)
  | exit e code =>
    obtain ⟨now, h1, rfl⟩ := h.of_pure
    cases e with
    | outside =>
      obtain ⟨_, h2, rfl⟩ := h1.of_pure
      exact .ends (gives_modify.1 h2).symm
    | recipe r line =>
      obtain ⟨w, hw⟩ := ho r.build r.target rfl
      exact .took (exit_took hw h1)
  | start args env cwd e =>
    obtain ⟨hg, hs⟩ := startMake_started h
    exact .starts hg hs
  | proceed m remade e =>
    rcases proceed_cases hv ha h with ⟨now, rfl, hp, hn⟩ | ⟨rfl, hg, x, hx, hb, hnew⟩
    · exact .proceeds hp hn
    · exact .reads hg hx hb hnew
  | parse m =>
    obtain ⟨now, h1, rfl⟩ := h.of_pure
    obtain ⟨x, hx, hb, -⟩ := ha
    exact .parses (parseMakefiles_passes hv hx hb h1)

/-! ## Complaints -/

theorem unwind_grave {e : Error} (he : e.isComplaint = false) (frames : List Frame) (s : Run) :
    unwind e frames s = s.abort e := by
  induction frames with
  | nil => rfl
  | cons f rest ih =>
    cases f with
    | action a => exact ih
    | guard g =>
      unfold unwind
      rw [he]
      exact ih

theorem unwind_actions (e : Error) (h : ∀ f ∈ frames, ∃ a, f = .action a)
    (s : Run) : unwind e frames s = s.abort e := by
  induction frames with
  | nil => rfl
  | cons f rest ih =>
    obtain ⟨a, rfl⟩ := h f mem_cons_self
    exact ih fun f hf => h f (mem_cons_of_mem _ hf)

theorem unwind_guard {e : Error} (he : e.isComplaint = true) (g : Guard) (rest : List Frame)
    (s : Run) :
    (∃ frames s1, Gives (answer e g) s frames s1 ∧
      unwind e (.guard g :: rest) s = { s1 with stack := frames ++ rest }) ∨
    ∃ e' s1, unwind e (.guard g :: rest) s = abort s1 e' := by
  unfold unwind
  rw [he]
  rcases gives_or_fails (answer e g) s with ⟨frames, s1, h⟩ | ⟨e', s1, h⟩
  · refine .inl ⟨frames, s1, h, ?_⟩
    simp only [if_true]
    rw [show (answer e g).run s = _ from h]
  · refine .inr ⟨e', s1, ?_⟩
    rw [show (answer e g).run s = _ from h]
    exact unwind_grave (holds_answer (P := fun _ => Grave) e g _ _ _ h) rest s1

end Run

/-! ## Steps -/

/-- What is being done: at most one action above guards, above the actions that are to follow. -/
inductive Stacked : List Frame → Prop
  | plain {frames : List Frame} (h : ∀ f ∈ frames, ∃ a, f = .action a) : Stacked frames
  | guard {g : Guard} {rest : List Frame} (h : Stacked rest) : Stacked (.guard g :: rest)
  | action {a : Action} {g : Guard} {rest : List Frame} (h : Stacked rest) :
      Stacked (.action a :: .guard g :: rest)

/-- What a step does. -/
inductive Stepped (s s' : Run) : Prop
  | act {a : Action} {rest frames : List Frame} {s₁ : Run} (stack : s.stack = .action a :: rest)
      (gives : Gives (Run.perform a) s frames s₁) (state : s' = { s₁ with stack := frames ++ rest })
  | complaint {a : Action} {g : Guard} {rest frames : List Frame} {e : Error} {s₁ s₂ : Run}
      (stack : s.stack = .action a :: .guard g :: rest) (may : a.mayComplain = true)
      (fails : Fails (Run.perform a) s e s₁) (answered : Gives (Run.answer e g) s₁ frames s₂)
      (state : s' = { s₂ with stack := frames ++ rest })
  | pop {g : Guard} {rest : List Frame} (stack : s.stack = .guard g :: rest)
      (state : s' = { s with stack := rest })
  | task {a : Action} (queue : Multiset Duty) (stack : s.stack = [])
      (taken : s.view.queue = queue + {.task a})
      (view : s'.view = { s.view with stack := [.action a], queue := queue })
      (outcome : s'.outcome = none)
  | idle (stack : s.stack = []) (view : s'.view = s.view) (outcome : s'.outcome = none)
  | report (jobs : List (ExitTo × Int)) (queue : Multiset Duty) (stack : s.stack = [])
      (taken : s.view.queue = queue + (jobs.map fun j => Duty.job j.1))
      (view : s'.view = { s.view with
        stack := jobs.map fun j => .action (.exit j.1 j.2), queue := queue })
      (outcome : s'.outcome = none)
  | abort {e : Error} (stack : s'.stack = []) (outcome : s'.outcome = some (.error e))

/-- How a step ends that does an action. -/
inductive Acted (s s' : Run) (a : Action) (rest : List Frame) : Prop
  | gives {frames : List Frame} {s₁ : Run} (gives : Gives (Run.perform a) s frames s₁)
      (state : s' = { s₁ with stack := frames ++ rest })
  | complaint {g : Guard} {rest' frames : List Frame} {e : Error} {s₁ s₂ : Run}
      (guarded : rest = .guard g :: rest')
      (may : a.mayComplain = true) (fails : Fails (Run.perform a) s e s₁)
      (answered : Gives (Run.answer e g) s₁ frames s₂)
      (state : s' = { s₂ with stack := frames ++ rest' })
  | abort {e : Error} (stack : s'.stack = []) (outcome : s'.outcome = some (.error e))

theorem Stepped.acted (h : Stepped s s') (hs : s.stack = .action a :: rest) :
    Acted s s' a rest := by
  cases h with
  | act stack gives state =>
    cases hs.symm.trans stack
    exact .gives gives state
  | complaint stack may fails answered state =>
    cases hs.symm.trans stack
    exact .complaint rfl may fails answered state
  | pop stack => cases hs.symm.trans stack
  | task _ stack | idle stack | report _ _ stack => cases hs.symm.trans stack
  | abort stack outcome => exact .abort stack outcome

/-- An action that may not complain succeeds, unless it ends the run with an error. -/
theorem Stepped.gives (h : Stepped s s') (hs : s.stack = .action a :: rest)
    (ha : a.mayComplain = false)
    (hruns : ¬ ∃ e, s'.outcome = some (.error e)) :
    ∃ frames s1, Gives (Run.perform a) s frames s1 ∧ s' = { s1 with stack := frames ++ rest } := by
  cases h.acted hs with
  | gives gives state => exact ⟨_, _, gives, state⟩
  | complaint _ may => cases ha.symm.trans may
  | abort _ outcome => exact absurd ⟨_, outcome⟩ hruns

namespace Run

/-- A failed action ends the run, unless a guard answers its complaint. -/
theorem stepped_fails {e : Error} {s1 : Run} (hs : s.stack = .action a :: rest)
    (hst : Stacked s.stack) (h : Fails (perform a) s e s1) (hs' : s' = unwind e rest s1) :
    Stepped s s' := by
  have habort : ∀ {s2 : Run} {e' : Error}, s' = s2.abort e' → Stepped s s' := by
    intro s2 e' h
    rw [h]
    exact .abort rfl rfl
  cases he : e.isComplaint with
  | false => exact habort (hs'.trans (unwind_grave he rest s1))
  | true =>
    have hmay : a.mayComplain = true := by
      by_contra hno
      have := grave_perform (by simpa using hno) _ _ _ h
      simp [he] at this
    rw [hs] at hst
    cases hst with
    | plain hall =>
      exact habort (hs'.trans (unwind_actions e (fun f hf => hall f (mem_cons_of_mem _ hf)) s1))
    | action h' =>
      rename_i g rest
      rcases unwind_guard he g rest s1 with ⟨frames, s2, hg, e2⟩ | ⟨e', s2, e2⟩
      · exact .complaint hs hmay h hg (hs'.trans e2)
      · exact habort (hs'.trans e2)

/-- What a step of the event loop does. -/
theorem turn_stepped (hs : s.stack = []) (ho : s.outcome = none) :
    Stepped s (turn schedule s) := by
  unfold turn
  split
  · exact .idle hs rfl ho
  · split
    · unfold report
      split
      · exact .idle hs rfl ho
      · -- jobs are reported
        rename_i jobs l _ hreport
        obtain ⟨hd, hj⟩ :=
          (schedule.arrange s.loop).duties_report (s.doneAmong schedule)
        rw [hreport] at hd hj
        refine .report (jobs.map fun j => (j.answer, j.code)) l.duties hs ?_ ?_ ho
        · rw [map_map]
          exact hd
        · unfold Run.view Run.work
          simp only [map_map, Function.comp_def, hj]
          rfl
    · split
      · exact .idle hs rfl ho
      · exact .abort rfl rfl
  · rename_i c rest hphase
    split
    · exact .idle hs rfl ho
    · rename_i todo w l hadvance
      rcases Loop.advance_some hadvance with
        ⟨a, hnext, rfl, rfl⟩ | ⟨job, e, echo, justPrint, l1, hnext, rfl, hlaunch⟩
      · obtain ⟨hd, hj⟩ := Loop.duties_next hnext
        refine .task l.duties hs hd ?_ ho
        unfold Run.view Run.work
        rw [hj]
        rfl
      · obtain ⟨hd, hj⟩ := Loop.duties_next hnext
        have hc : c < l1.contexts.length := Loop.length_next hnext ▸ Loop.lt_of_next hnext
        obtain ⟨hd', hj'⟩ := Loop.duties_launch hc hlaunch
        refine .idle hs ?_ ho
        unfold Run.view Run.work
        simp only [hj', hj, hd', hd, hs]
        rfl

theorem step_stepped (ho : s.outcome = none) (hst : Stacked s.stack) :
    Stepped s (s.step schedule) := by
  unfold step
  rw [ho]
  dsimp only
  split
  · rename_i a rest hs
    unfold doNow
    rcases gives_or_fails (perform a) s with ⟨frames, s1, h⟩ | ⟨e, s1, h⟩
    · rw [show (perform a).run s = _ from h]
      exact .act hs h rfl
    · rw [show (perform a).run s = _ from h]
      exact stepped_fails hs hst h rfl
  · rename_i g rest hs
    exact .pop hs (by rw [ho])
  · rename_i hs
    exact turn_stepped hs ho

end Run

end Rebuild
