import Rebuild.Proofs.Build.Course
import Rebuild.Proofs.Build.Makefiles
/-!
# What a step keeps

A step leaves alone what the work on a target relies on. In a makefile that was read, a target that
was looked for keeps its file unless the step is about that very target, and a target with a recipe
keeps its rules (`Run.step_settles`). No makefile counts as read that was not, but for the one that
the step reads (`Run.step_read`). A target that is worked on keeps the rules it was begun with and
their prerequisites, and one that is begun has its rules from the makefile (`Stepped.kept`).
-/

namespace Rebuild

open Run

variable {u : Work} {a : Action} {h : List Deed}

/-! ## Makefiles -/

/-- Once all is read, what is known of targets stays. -/
def Makefile.Settles (F G : Text → Prop) (mk mk' : Makefile) : Prop :=
  mk.finished = true → mk.Stays F G mk'

instance (F G : Text → Prop) : IsPreorder Makefile (Makefile.Settles F G) where
  refl mk _ := .refl mk
  trans _ _ _ h₁ h₂ hf := (h₁ hf).trans (h₂ (by rw [(h₁ hf).same]; exact hf))

/-- What is known of targets stays in every makefile that was read, but for the file of the target
`o`. Nothing is said of the makefiles of builds in `E`. -/
def Run.Settles (o : Option (Nat × Text)) (E : Nat → Prop) (s s' : Run) : Prop :=
  ∀ b mk, ¬ E b → s.makefile? b = some mk → mk.finished = true →
    ∃ mk', s'.makefile? b = some mk' ∧ mk.Stays (fun t => o = some (b, t)) (fun _ => False) mk'

variable {s s' : Run} {b m : Nat} {t : Text} {g : Guard} {frames : List Frame} {e : Error}
  (name : Text)

namespace MakeM

/-- What is done to a makefile for a target concerns no file but that of the target. -/
theorem handles_settles {F : Text → Prop} (ht : F t) :
    Handles (Makefile.Settles F fun _ => False) t where
  look := keeps_bind (R := Rebuild.Settles F fun _ => False) (keeps_firstFile [t]) fun _ =>
    settles_onTarget (fun _ => rfl) fun _ _ => .of_own ht rfl rfl
  resolve stack := settles_resolve t stack false
  rules stack avoidLoop := RunM.keeps_ruleWorks settles_mention t stack avoidLoop
  remake := settles_onTarget (fun _ => rfl) fun _ _ => .of_own ht rfl rfl
  lines rule := Recipe.keeps_lines (Below.keepsFrame_settles _ _) settles_mention t rule

end MakeM

/-- Once all of a makefile is read, what is known of its targets stays, but for the file of one
target. -/
abbrev Run.SettlesBut (b : Nat) (t : Text) : Run → Run → Prop :=
  Run.Relates (fun b' => Makefile.Settles (fun t' => (b, t) = (b', t')) fun _ => False)
  fun _ => False

theorem RunM.handles_settles (b : Nat) (t : Text) : Handles (Run.SettlesBut b t) b t :=
  handles_relates (MakeM.handles_settles rfl)

/-- **What a step keeps of makefiles.** In a makefile that was read, the file of a target changes
only if the step is about that target, and the rules of a target with a recipe not at all. -/
theorem Run.step_settles (schedule : Schedule) (s : Run) :
    Settles (s.doing.bind Action.subject) s.Reads s (s.step schedule) := by
  have hstep : Relates
    (fun b => Makefile.Settles (fun t => s.doing.bind Action.subject = some (b, t))
      fun _ => False) s.Reads s (s.step schedule) := by
    refine step_relates schedule s (fun _ _ _ _ => ?_) (fun _ goal => MakeM.settles_mention goal)
      fun b t h => MakeM.handles_settles h
    exact nofun
  intro b mk hb hmk hf
  obtain ⟨mk', hmk', hsettles⟩ := hstep.old b mk hb hmk
  exact ⟨mk', hmk', hsettles hf⟩

/-- Whether all was read is the same. -/
def SameReading (s s' : Session) : Prop := s'.makefile.finished = s.makefile.finished

instance : VariableFrame SameReading where
  refl _ := rfl
  trans _ _ _ h₁ h₂ := h₂.trans h₁
  world _ _ := rfl
  scopes _ _ := rfl

theorem Keeps.sameReading {α : Type} {x : MakeM α} (h : Keeps Steady x) : Keeps SameReading x :=
  fun s => (h s).finished

theorem Below.keepsFrame_sameReading (n : Nat) : (levels n).KeepsFrame SameReading where
  expand sc setting e := ((keepsFrame_steady n).expand sc setting e).sameReading
  eval _ sc loc h :=
    keeps_eval (fun weak stmts => (keeps_execute_steady n weak stmts).sameReading) sc loc h

namespace MakeM

theorem sameReading_mention : Keeps SameReading (mention name) := (keeps_mention name).sameReading

theorem sameReading_resolve (stack : List Text) (deep : Bool) :
    Keeps SameReading (resolve name stack deep) :=
  keeps_resolve (fun h => by unfold SameReading; rw [h.same]) name stack deep

/-- Nothing that is done for a target ends the reading of a makefile. -/
theorem handles_sameReading (t : Text) : Handles (fun mk mk' => mk'.finished = mk.finished) t where
  look := keeps_bind (R := SameReading) (keeps_firstFile [t]) fun _ => keeps_modify fun _ => rfl
  resolve stack := sameReading_resolve t stack false
  rules stack avoidLoop := RunM.keeps_ruleWorks sameReading_mention t stack avoidLoop
  remake := keeps_modify fun _ => rfl
  lines rule := Recipe.keeps_lines Below.keepsFrame_sameReading sameReading_mention t rule

end MakeM

instance : IsPreorder Makefile fun mk mk' => mk'.finished = mk.finished where
  refl _ := rfl
  trans _ _ _ h₁ h₂ := h₂.trans h₁

/-- **What is read after a step was read before**, unless the step reads it. -/
theorem Run.step_read {mk' : Makefile} {schedule : Schedule} (hb : ¬ s.Reads b)
    (hmk' : (s.step schedule).makefile? b = some mk') (hf : mk'.finished = true) :
    ∃ mk, s.makefile? b = some mk ∧ mk.finished = true ∧
      mk.Stays (fun t => s.doing.bind Action.subject = some (b, t)) (fun _ => False) mk' := by
  have hstep : Relates (fun _ mk mk' => mk'.finished = mk.finished) s.Reads s (s.step schedule) :=
    step_relates schedule s (fun _ _ _ c => (MakeM.keeps_start c _).finished)
      (fun _ goal => MakeM.sameReading_mention goal) fun b t _ => MakeM.handles_sameReading t
  cases hmk : s.makefile? b with
  | none =>
    obtain ⟨cwd, c, hnew⟩ := hstep.new b mk' hb hmk hmk'
    cases hf.symm.trans hnew
  | some mk =>
    obtain ⟨mk1, hmk1, hsame⟩ := hstep.old b mk hb hmk
    cases hmk1.symm.trans hmk'
    have hread : mk.finished = true := hsame.symm.trans hf
    obtain ⟨mk2, hmk2, hstays⟩ := s.step_settles schedule b mk hb hmk hread
    cases hmk2.symm.trans hmk'
    exact ⟨mk, rfl, hread, hstays⟩

/-! ## Work -/

/-- A target is begun when it is asked for, and all is read. Its rules are as the makefile has
them, and avoid loops only if it is asked for as a makefile. One without rules is over. -/
structure Run.Begins (s s' : Run) (b : Nat) (t : Text) (w : Work) : Prop where
  read : s.HasRead b
  asked : ∃ stack ρ avoidLoop report rest, s.stack = .action (.make b t stack ρ avoidLoop report) ::
    rest ∧
    (avoidLoop = true → ρ = .makefiles b) ∧ (Prepared s' b t avoidLoop w.rules ∨
      w.rules = [] ∧ w.progress = .finished ∧
        (w.error = false → ∃ mk, s'.makefile? b = some mk ∧ (mk.targetAt t).rules = []))

/-- What a step keeps of the work on targets: a target that was begun has the same rules with the
same prerequisites, and does not change any more once it is over; another one may begin. -/
structure Run.Kept (s s' : Run) : Prop where
  work : ∀ b t w, s.work b t = some w →
    ∃ w', s'.work b t = some w' ∧ w'.plan = w.plan ∧ (w.progress = .finished → w' = w)
  begun : ∀ b t w', s.work b t = none → s'.work b t = some w' → s.Begins s' b t w'

namespace Run.Kept

theorem of_work (h : s'.work = s.work) : s.Kept s' where
  work b t w hw := ⟨w, by rw [h]; exact hw, rfl, fun _ => rfl⟩
  begun b t w' hno hw' := by
    rw [h, hno] at hw'
    cases hw'

/-- The work on one target changes. -/
theorem of_put {w : Work} (hw : s.work b t = some w) (hu : u.plan = w.plan)
    (hp : w.progress = .finished → u = w) (h : s'.work = (s.view.put b t u).work) : s.Kept s' where
  work b' t' w' hw' := by
    by_cases hbt : (b', t') = (b, t)
    · cases hbt
      cases hw.symm.trans hw'
      exact ⟨u, by rw [h]; exact View.put_work_self .., hu, hp⟩
    · refine ⟨w', ?_, rfl, fun _ => rfl⟩
      rw [h, View.put_work_of_ne _ _ hbt]
      exact hw'
  begun b' t' w' hno hw' := by
    by_cases hbt : (b', t') = (b, t)
    · cases hbt
      simp [hw] at hno
    · rw [h, View.put_work_of_ne _ _ hbt] at hw'
      rw [show s.view.work b' t' = none from hno] at hw'
      cases hw'

/-- A target is begun. -/
theorem of_new (hw : s.work b t = none) (h : s'.work = (s.view.put b t u).work)
    (hu : s.Begins s' b t u) : s.Kept s' where
  work b' t' w' hw' := by
    refine ⟨w', ?_, rfl, fun _ => rfl⟩
    rw [h, View.put_work_of_ne _ _ fun hbt => ?_]
    · exact hw'
    · cases hbt
      rw [hw] at hw'
      cases hw'
  begun b' t' w' hno hw' := by
    by_cases hbt : (b', t') = (b, t)
    · cases hbt
      rw [h, View.put_work_self] at hw'
      cases hw'
      exact hu
    · rw [h, View.put_work_of_ne _ _ hbt] at hw'
      rw [show s.view.work b' t' = none from hno] at hw'
      cases hw'

end Run.Kept

theorem Passes.work {v v' : View} {p : Post} {as : List Action} (h : Passes v p as v') :
    v'.work = v.work := by
  cases h with
  | ask grows | proceed grows => exact grows.work
  | exit grows => exact grows.work

/-- A guard answers a complaint with an exit code at most. -/
theorem Run.answer_frames (h : Gives (answer e g) s frames s') :
    frames = [] ∨ ∃ e', frames = [.action (.exit e' 2)] := by
  cases g with
  | parse m =>
    obtain ⟨_, s1, -, h⟩ := h.of_bind
    obtain ⟨_, s2, -, h⟩ := h.of_bind
    exact .inl (gives_pure.1 h).1.symm
  | start level workdir printDir receiver =>
    obtain ⟨_, s1, -, h⟩ := h.of_bind
    refine .inr ⟨receiver, ?_⟩
    split at h
    · obtain ⟨_, s2, -, h⟩ := h.of_bind
      exact (gives_pure.1 h).1.symm
    · exact (gives_pure.1 h).1.symm

theorem Run.answer_exits (h : Gives (answer e g) s frames s') :
    ∀ a ∈ actions frames, ∃ e code, a = .exit e code := by
  intro a ha
  rcases answer_frames h with rfl | ⟨e', rfl⟩
  · cases ha
  · exact ⟨e', 2, List.mem_singleton.1 ha⟩

/-- The answer to a complaint is an exit code, told at once or later. -/
theorem Run.answer_view (h : Gives (answer e g) s frames s') :
    ∃ ds, s'.view = s.view.later ds ∧ (∀ d ∈ ds, ∃ e code, d = Duty.task (.exit e code)) ∧
      ∀ a ∈ actions frames, ∃ e code, a = .exit e code := by
  have hexits := answer_exits h
  cases g with
  | start level workdir printDir receiver =>
    obtain ⟨_, s1, h1, h⟩ := h.of_bind
    have e1 : s1.view = s.view := (RunM.keeps_print _).of_gives h1
    split at h
    · obtain ⟨_, h2, -⟩ := h.of_pure
      have e2 : s'.view = s1.view := (RunM.keeps_print _).of_gives h2
      exact ⟨[], by rw [e2, e1, View.later_nil], fun d hd => absurd hd List.not_mem_nil, hexits⟩
    · cases h
      exact ⟨[], by rw [e1, View.later_nil], fun d hd => absurd hd List.not_mem_nil, hexits⟩
  | parse m =>
    obtain ⟨_, s1, h1, h⟩ := h.of_bind
    have e1 : s1.view = s.view := (RunM.keeps_print _).of_gives h1
    obtain ⟨_, h2, -⟩ := h.of_pure
    obtain ⟨x, -, e2⟩ := RunM.exitLater_view h2
    refine ⟨_, by rw [e2, e1], fun d hd => ?_, hexits⟩
    exact ⟨_, _, List.mem_singleton.1 hd⟩

theorem Run.answer_work (h : Gives (answer e g) s frames s') : s'.work = s.work := by
  obtain ⟨ds, hview, -⟩ := answer_view h
  exact congrArg View.work hview

/-- A complaint leaves the work on targets alone, but for a line that was begun. -/
theorem Run.complains (hmay : a.mayComplain = true) (hf : Fails (perform a) s e s') :
    RunM.Grown s s' ∨
      ∃ r error w lines, a = .nextLine r error ∧ s.view.work r.build r.target = some w ∧
        s'.view = s.view.put r.build r.target
          (w.onRule r.rule fun x => { x with lines := lines }) := by
  cases a with
  | proceed m remade error => exact .inl (RunM.proceed_fails hf)
  | parse m =>
    exact .inl ((RunM.keeps_parseMakefiles m).of_fails hf.of_pure)
  | nextLine r error =>
    have hline : Fails (RunM.nextLine r error) s e s' := hf.of_pure
    rcases RunM.nextLine_fails hline with e1 | ⟨w, lines, hw, e1⟩
    · exact .inl (by rw [RunM.Grown, e1]; exact .refl _)
    · exact .inr ⟨r, error, w, lines, rfl, hw, e1⟩
  | _ => cases hmay

namespace Balanced

variable {L : Ledger} {rest : List Frame} {s1 : Run}

theorem kept_does (hB : Balanced h s.view L) (hs : s.view.stack = .action a :: rest)
    (hd : Does s s1 a frames) (hs' : s' = { s1 with stack := frames ++ rest }) : s.Kept s' := by
  have hwork : s'.work = s1.view.work := by
    rw [hs']
    rfl
  cases hd with
  | @took b t _ now ht =>
    obtain ⟨w, u, late, fails, ends, known, turn, -, hwork1, -⟩ := ht.exists_turn
    refine .of_put known turn.goesOn.plan (fun hf => ?_) ?_
    · cases (hB.working_of_turn hs known turn).2.symm.trans hf
    · rw [hwork, hwork1]
  | asks calm view => exact .of_work (by rw [hwork, view]; rfl)
  | @asked b t stack ρ avoidLoop report now ha =>
    obtain ⟨-, -, hloop⟩ := hB.admits _ (by rw [hs]; exact List.mem_cons_self)
    cases ha with
    | answered _ _ view => exact .of_work (by rw [hwork, view]; rfl)
    | @joined w known working view =>
      refine .of_put (u := { w with replies := w.replies ++ [ρ] }) known rfl (fun hf => ?_)
        (by rw [hwork, view])
      simp [working] at hf
    | barren new read empty view =>
      refine .of_new new (by rw [hwork, view]; rfl) ⟨read, stack, ρ, avoidLoop, report, rest, hs,
        hloop, .inr ⟨rfl, rfl, ?_⟩⟩
      rw [hs']
      exact empty
    | begun new read prepared view =>
      refine .of_new new (by rw [hwork, view]; rfl) ⟨read, stack, ρ, avoidLoop, report, rest, hs,
        hloop, .inl ?_⟩
      rw [hs']
      exact ⟨prepared.plans, prepared.fresh⟩
  | told _ hp => exact .of_work (hwork.trans hp.work)
  | proceeds hp => exact .of_work (hwork.trans hp.work)
  | reads hg => exact .of_work (hwork.trans hg.work)
  | parses hp => exact .of_work (hwork.trans hp.work)
  | starts hg => exact .of_work (hwork.trans hg.work)
  | ends state => exact .of_work (by rw [hwork, state]; rfl)

theorem kept_complaint {s2 : Run} (hB : Balanced h s.view L)
    (hs : s.view.stack = .action a :: .guard g :: rest) (hmay : a.mayComplain = true)
    (hf : Fails (perform a) s e s1) (hans : Gives (answer e g) s1 frames s2)
    (hs' : s' = { s2 with stack := frames ++ rest }) : s.Kept s' := by
  have hanswer : s'.work = s1.work := by
    rw [hs']
    exact (answer_work hans :)
  rcases complains hmay hf with hg | ⟨r, error, w, lines, rfl, hw, e1⟩
  · exact .of_work (hanswer.trans hg.work)
  · obtain ⟨-, w', hw', hp, -⟩ := (hB.accounts_cons hs).stages
      (Multiset.mem_cons_self _ _) rfl
    obtain rfl : w' = w := Option.some.inj (hw'.symm.trans hw)
    refine .of_put (u := w'.onRule r.rule fun x => { x with lines := lines }) hw
      (w'.plan_onRule r.rule fun _ => rfl) (fun hfin => ?_)
      (hanswer.trans ?_)
    · simp [hp] at hfin
    · rw [show s1.work = s1.view.work from rfl, e1]

/-- **What a step keeps of work**, unless it ends the run with an error. -/
theorem kept (hB : Balanced h s.view L) (hst : Stepped s s') : s'.Broken ∨ s.Kept s' := by
  cases hst with
  | @act a rest frames s1 stack gives state =>
    exact .inr (hB.kept_does stack (hB.does_of_gives stack gives) state)
  | complaint stack may fails answered state =>
    exact .inr (hB.kept_complaint stack may fails answered state)
  | pop _ state => exact .inr (.of_work (by rw [state]; rfl))
  | task _ _ _ view => exact .inr (.of_work (congrArg View.work view))
  | idle _ view => exact .inr (.of_work (congrArg View.work view))
  | report _ _ _ _ view =>
    exact .inr (.of_work (congrArg View.work view))
  | abort _ outcome => exact .inl ⟨_, outcome⟩

end Balanced

/-! ## Moves -/

/-- A step that does not end the run with an error, with all that is known of it. -/
structure Move (h : List Deed) (s s' : Run) : Prop where
  goes : s.outcome = none
  runs : ¬ s'.Broken
  step : ∃ schedule, s' = s.step schedule
  balanced : ∃ L, Balanced h s.view L
  stepped : Stepped s s'
  kept : s.Kept s'
  settles : s.Settles (s.doing.bind Action.subject) s.Reads s'

/-- What every move keeps holds all through a run, as long as it has not ended with an error. -/
theorem Course.invariant {w : World} {args : List Text} {env : Env} {cwd : Text}
    {P : List Deed → Run → Prop} (hc : Course (.init w args env cwd) h s)
    (start : P [] (.init w args env cwd))
    (act : ∀ {h : List Deed} {s s' : Run} {a : Action} {rest : List Frame}, P h s → Move h s s' →
      s.stack = .action a :: rest → P (⟨a, s, s'⟩ :: h) s')
    (pass : ∀ {h : List Deed} {s s' : Run}, P h s → Move h s s' → s.doing = none → P h s') :
    s.Broken ∨ P h s := by
  have hmove : ∀ {h : List Deed} {s : Run} (schedule : Schedule), s.outcome = none →
      Course (.init w args env cwd) h s →
      (s.step schedule).Broken ∨ Move h s (s.step schedule) := by
    intro h s schedule ho hc
    obtain ⟨L, hB⟩ := hc.balanced.resolve_left (not_broken ho)
    have hst : Stepped s (s.step schedule) := step_stepped ho hB.stacked
    by_cases hb : (s.step schedule).Broken
    · exact .inl hb
    · exact .inr ⟨ho, hb, ⟨schedule, rfl⟩, ⟨L, hB⟩, hst, (hB.kept hst).resolve_left hb,
        s.step_settles schedule⟩
  induction hc with
  | start => exact .inr start
  | @act h s a schedule hc doing ih =>
    obtain ⟨ho, rest, hs⟩ := doing_eq_some doing
    exact (hmove schedule ho hc).imp_right fun hm => act (ih.resolve_left (not_broken ho)) hm hs
  | @pass h s schedule hc doing ih =>
    cases ho : s.outcome with
    | some o => rwa [step_of_outcome ho]
    | none =>
      exact (hmove schedule ho hc).imp_right fun hm =>
        pass (ih.resolve_left (not_broken ho)) hm doing

end Rebuild
