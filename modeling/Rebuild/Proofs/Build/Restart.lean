import Rebuild.Proofs.Build.Prerequisites
/-!
# Where a restart comes from

A make whose makefiles were made anew reads them again. Whether one of them was made anew is read
off a flag of its target, and that flag is set when a recipe is begun, not when it has ended: a
target counts as made anew only if one of its recipes was due, or it has a rule without a recipe and
is missing or has a missing prerequisite (`Course.remade_due`). So there is no restart unless that
is so for one of the makefiles that were included (`Course.restart_due`). Whether the recipe
succeeded, and whether it changed the file, does not enter (`restart_after_failure`).
-/

namespace Rebuild

open List RunM MakeM

variable {F : Text → Prop} {mk : Makefile}

namespace MakeM

theorem remakesOnly_resolve (name : Text) (stack : List Text) (deep : Bool) :
    Keeps (RemakesOnly F) (resolve name stack deep) :=
  keeps_resolve (fun h t ht => .inr ((h.target t).remade id ht)) name stack deep

end MakeM

/-! ## Runs -/

/-- Only the target `o` counts as made anew that did not before. -/
abbrev Run.RemakesOnly (o : Option (Nat × Text)) : Run → Run → Prop :=
  Run.Relates (fun b => Makefile.RemakesOnly fun t => o = some (b, t)) fun _ => False

variable {o : Option (Nat × Text)} {s s' : Run} {b m : Nat} {t : Text} {a : Action} {h : List Deed}
  {d : Deed}

/-- In a new makefile no target counts as made anew. -/
theorem Run.RemakesOnly.remade {mk' : Makefile} (h : Run.RemakesOnly o s s')
    (hmk' : s'.makefile? b = some mk')
    (ht : (mk'.targetAt t).remade = true) :
    o = some (b, t) ∨ ∃ mk, s.makefile? b = some mk ∧ (mk.targetAt t).remade = true := by
  cases hmk : s.makefile? b with
  | none =>
    obtain ⟨cwd, c, hnew⟩ := h.new b mk' not_false hmk hmk'
    exact .inl ((hnew t ht).resolve_right nofun)
  | some mk =>
    obtain ⟨mk1, hmk1, hold⟩ := h.old b mk not_false hmk
    cases hmk1.symm.trans hmk'
    exact (hold t ht).imp_right fun h => ⟨mk, rfl, h⟩

theorem MakeM.tends_remakesOnly (F : Text → Prop) (t : Text) :
    Tends (Makefile.RemakesOnly F) t where
  look := keeps_bind (R := Rebuild.RemakesOnly F) (keeps_firstFile [t]) fun _ =>
    remakesOnly_onTarget (fun _ => rfl) (.inr fun _ => rfl)
  resolve stack := remakesOnly_resolve t stack false
  rules stack avoidLoop := keeps_ruleWorks remakesOnly_mention t stack avoidLoop

theorem MakeM.handles_remakesOnly (ht : F t) : Handles (Makefile.RemakesOnly F) t where
  toTends := tends_remakesOnly F t
  remake := remakesOnly_onTarget (fun _ => rfl) (.inl ht)
  lines rule := Recipe.keeps_lines Below.keepsFrame_remakesOnly remakesOnly_mention t rule

namespace RunM

theorem opens_remakesOnly (x : Make) : Opens (Run.RemakesOnly o) x where
  read := relates_onMakefile (.inr (Keeps.remakesOnly (keeps_bind (keeps_execute _ _) fun _ =>
    keeps_forM fun _ => keeps_includeFile _ _ _)))
  finish := relates_onMakefile (.inr (keeps_finish (fun _ _ => .inr)
    fun _ _ h => h.remakesOnly))
  seek := by
    refine relates_onMakefile (.inr ?_)
    refine keeps_bind keeps_makefile fun mk => keeps_mapM fun f => ?_
    exact keeps_bind (remakesOnly_mention _) fun name => keeps_bind
      (remakesOnly_onTarget (fun _ => rfl) (.inr fun _ => rfl)) fun _ =>
        keeps_return (remakesOnly_findFile name)

end RunM

/-! ## Recipes that are due -/

namespace Makefile

/-- The file of a target was looked for and is missing. -/
def Missing (mk : Makefile) (t : Text) : Prop := (mk.targetAt t).mtime = some none

/-- A prerequisite is newer than the file of a target, or missing. -/
def Outdates (mk : Makefile) (d t : Text) : Prop :=
  ∃ m time, (mk.targetAt d).mtime = some m ∧ (mk.targetAt t).mtime = some (some time) ∧
    Time.later m (some time) = true

/-- The recipe of a rule is due: a weak prerequisite could not be made, the target is missing, it
has a double-colon rule without prerequisites, or a prerequisite is newer. -/
inductive Due (mk : Makefile) (t : Text) (x : RuleWork) : Prop
  | weak (remake : x.remake = true)
  | missing (missing : mk.Missing t)
  | alone {ref : RuleRef} (rule : x.rule = some ref) (double : mk.doubleColon ref = true)
      (deps : x.deps = []) (loop : x.avoidLoop = false)
  | newer {d : Text × Bool} (dep : d ∈ x.deps) (newer : mk.Outdates d.1 t)

/-- The recipe of a rule is not needed: its target is there, and its prerequisites are there and not
newer. A double-colon rule has prerequisites then. -/
structure UpToDate (mk : Makefile) (t : Text) (x : RuleWork) : Prop where
  remake : x.remake = false
  times : ∃ time, (mk.targetAt t).mtime = some (some time) ∧
    ∀ d ∈ x.deps, ∃ m, (mk.targetAt d.1).mtime = some (some m) ∧ m.millis ≤ time.millis
  alone : x.rule.any mk.doubleColon = true → x.deps ≠ []

/-- A rule makes its target anew: its recipe is due, or it has no recipe and the target or one of
its prerequisites is missing. -/
def Remakes (mk : Makefile) (t : Text) (x : RuleWork) : Prop :=
  (x.rule.any mk.hasCommands = true ∧ mk.Due t x) ∨
    (x.rule.any mk.hasCommands = false ∧ (mk.Missing t ∨ ∃ d ∈ x.deps, mk.Missing d.1))

end Makefile

/-- The rule of a target makes it anew, as things stand. -/
def Run.Remakes (s : Run) (r : RuleAt) : Prop :=
  ∃ w x mk, s.work r.build r.target = some w ∧ w.rules[r.rule]? = some x ∧
    s.makefile? r.build = some mk ∧ mk.Remakes r.target x

namespace RunM

variable {r : RuleAt} {x : RuleWork}

theorem of_target {α : Type} {f : Target → RunM α} {z : α} (hmk : s.makefile? b = some mk)
    (h : Gives (target b t >>= f) s z s') : Gives (f (mk.targetAt t)) s z s' := by
  obtain ⟨x, s1, hx, h⟩ := h.of_bind
  obtain ⟨mk', hmk', rfl, rfl⟩ := target_gives hx
  cases hmk'.symm.trans hmk
  exact h

/-- The first prerequisite that is newer is one of them, and is newer; if there is none, all are
there and not newer. -/
theorem firstNewer_gives {time : Time} {deps : List (Text × Bool)} {found : Option Target}
    (hmk : s.makefile? b = some mk) (h : Gives (firstNewer b time deps) s found s') :
    s = s' ∧ ((∃ p ∈ deps, found = some (mk.targetAt p.1) ∧
        ∃ m, (mk.targetAt p.1).mtime = some m ∧ Time.later m (some time) = true) ∨
      found = none ∧ ∀ p ∈ deps,
        ∃ m, (mk.targetAt p.1).mtime = some (some m) ∧ m.millis ≤ time.millis) := by
  induction deps with
  | nil =>
    cases h
    exact ⟨rfl, .inr ⟨rfl, forall_mem_nil _⟩⟩
  | cons p rest ih =>
    obtain ⟨m, htime, h⟩ := (of_target hmk h).of_time
    split at h
    · rename_i hlater
      cases h
      exact ⟨rfl, .inl ⟨p, mem_cons_self, rfl, m, htime, hlater⟩⟩
    · rename_i hlater
      obtain ⟨hs, ⟨q, hq, hd⟩ | ⟨hnone, hall⟩⟩ := ih h
      · exact ⟨hs, .inl ⟨q, mem_cons_of_mem _ hq, hd⟩⟩
      · refine ⟨hs, .inr ⟨hnone, forall_mem_cons.2 ⟨?_, hall⟩⟩⟩
        cases m with
        | none => cases hlater rfl
        | some m => exact ⟨m, htime, by simpa [Time.later] using hlater⟩

/-- A recipe is run only if it is due, and is not run only if it is up to date. -/
theorem need_gives {ref : RuleRef} {why : Option Need} (hmk : s.makefile? r.build = some mk)
    (href : x.rule = some ref) (h : Gives (need r x (mk.doubleColon ref)) s why s') :
    (why = none → mk.UpToDate r.target x) ∧
      (why ≠ none → (mk.doubleColon ref && x.deps.isEmpty && x.avoidLoop) = false →
        mk.Due r.target x) := by
  unfold need at h
  split at h
  · rename_i hremake
    cases h
    exact ⟨nofun, fun _ _ => .weak hremake⟩
  rename_i hremake
  obtain ⟨m, htime, h⟩ := (of_target hmk h).of_time
  cases m with
  | none =>
    cases h
    exact ⟨nofun, fun _ _ => .missing htime⟩
  | some time =>
    dsimp only at h
    split at h
    · rename_i halone
      cases h
      refine ⟨nofun, fun _ hloop => ?_⟩
      obtain ⟨hdouble, hdeps⟩ := Bool.and_eq_true_iff.1 halone
      rw [halone, Bool.true_and] at hloop
      exact .alone href hdouble (List.isEmpty_iff.1 hdeps) hloop
    · rename_i halone
      obtain ⟨newer, hnewer, rfl⟩ := h.of_pure
      obtain ⟨-, ⟨p, hp, rfl, m, hm, hlater⟩ | ⟨rfl, hall⟩⟩ := firstNewer_gives hmk hnewer
      · exact ⟨nofun, fun _ _ => .newer hp ⟨m, time, hm, htime, hlater⟩⟩
      · refine ⟨fun _ => ⟨by simpa using hremake, ⟨time, htime, hall⟩, fun hd hdeps => halone ?_⟩,
          absurd rfl⟩
        rw [href] at hd
        simpa [hdeps] using hd

/-- A rule without a recipe makes nothing anew unless something is missing. -/
theorem remakesOnly_withoutRecipe (indent : Text) (hmk : s.makefile? r.build = some mk)
    (hthere : ¬ (mk.Missing r.target ∨ ∃ d ∈ x.deps, mk.Missing d.1)) :
    Run.RemakesOnly o s ((withoutRecipe r x indent).run s).2 := by
  refine keeps_bind_gives (keeps_target _ _ s) fun y s1 hy => ?_
  obtain ⟨mk', hmk', rfl, rfl⟩ := target_gives hy
  cases hmk'.symm.trans hmk
  refine keeps_bind_gives (keeps_ofExcept _ s) fun m s1 hm => ?_
  obtain ⟨htime, rfl⟩ := time_gives hm
  cases m with
  | none => exact absurd (.inl htime) hthere
  | some time =>
    refine keeps_bind_gives (keeps_firstNewer _ _ _ s) fun d s1 hd => ?_
    cases d with
    | none => exact keeps_pure _ s1
    | some d =>
      obtain ⟨rfl, ⟨p, hp, ⟨⟩, -⟩ | ⟨⟨⟩, -⟩⟩ := firstNewer_gives hmk hd
      refine keeps_bind_gives (keeps_ofExcept _ s) fun m s1 hm => ?_
      obtain ⟨hdep, rfl⟩ := time_gives hm
      cases m with
      | none => exact absurd (.inr ⟨p, hp, hdep⟩) hthere
      | some time => exact frame_remark _ s

/-- A recipe that is not due leaves its target as it is. -/
theorem remakesOnly_runRecipe (hr : ¬ s.Remakes r) :
    Run.RemakesOnly o s ((runRecipe r).run s).2 := by
  refine keeps_bind_gives (keeps_ruleWork r s) fun x s1 hx => ?_
  obtain ⟨w, hw, hrule, rfl⟩ := gives_ruleWork.1 hx
  extract_lets done go
  split
  · exact keeps_throw _ s
  refine keeps_bind_gives (frame_onRule r _ s) fun _ s1 h1 => ?_
  have e1 : s1.makefile? = s.makefile? := (sameMakefiles_onWork _ _ _).of_gives h1
  refine keeps_bind_gives (keeps_build _ s1) fun y s2 hy => ?_
  obtain ⟨hb, rfl⟩ := gives_build.1 hy
  have hmk1 : s1.makefile? r.build = some y.makefile := by simp [Run.makefile?, hb]
  have hmk : s.makefile? r.build = some y.makefile := by rw [← e1]; exact hmk1
  have hno : ¬ y.makefile.Remakes r.target x := fun h => hr ⟨w, x, _, hw, hrule, hmk, h⟩
  refine keeps_bind_gives (keeps_work _ _ s1) fun w1 s2 hw1 => ?_
  obtain ⟨-, rfl⟩ := gives_work.1 hw1
  split
  · rename_i hnone
    refine keeps_bind_at (remakesOnly_withoutRecipe _ hmk1 fun hmiss => hno (.inr ⟨?_, hmiss⟩))
      fun _ =>
      keeps_pure _
    cases hx' : x.rule with
    | none => rfl
    | some rule => simpa [hx', Option.filter] using hnone
  · rename_i rule hsome
    obtain ⟨hxr, hcommands⟩ := Option.filter_eq_some_iff.1 hsome
    dsimp only
    split
    · exact keeps_bind (frame_remark _) (fun _ => keeps_pure _) s1
    rename_i hloop
    refine keeps_bind_gives (keeps_need _ _ _ s1) fun why s2 hwhy => ?_
    cases why with
    | none => exact keeps_pure _ s2
    | some why =>
      refine absurd (.inl ⟨by simpa [hxr] using hcommands, ?_⟩) hno
      exact (need_gives hmk1 hxr hwhy).2 (Option.some_ne_none why) (by simpa using hloop)

end RunM

/-- What an action that is no due recipe does makes nothing anew. -/
theorem Run.remakesOnly_perform (s : Run)
    (hown : ∀ r, a = .recipe r → s.Remakes r → o = some (r.build, r.target)) :
    Run.RemakesOnly o s ((perform a).run s).2 := by
  refine frame_perform_at (fun b t _ => tends_relates (tends_remakesOnly _ t)) (fun r hr => ?_)
    (fun r error _ => frame_nextLine r error s)
    (fun b goal => relates_onMakefile (.inr (remakesOnly_mention goal)))
    (fun m _ => frame_openMakefiles fun x _ => opens_remakesOnly x)
    (fun m _ _ _ => relates_newBuild (fun _ _ _ c => (keeps_start c _).remakesOnly) m)
    fun _ _ _ _ _ _ _ _ => relates_of_makefiles rfl
  by_cases hdue : s.Remakes r
  · rw [hown r hr hdue]
    refine frame_runRecipe (handles_relates ?_) s
    exact handles_remakesOnly rfl
  · exact remakesOnly_runRecipe hdue

/-- **What a step makes anew.** A target is made anew only in a step that runs a recipe of it which
is due, or finds that it or a prerequisite is missing. -/
theorem Run.step_remakes (schedule : Schedule) (s : Run) :
    Run.RemakesOnly none s (s.step schedule) ∨
    ∃ r, s.doing = some (.recipe r) ∧ s.Remakes r ∧
      Run.RemakesOnly (some (r.build, r.target)) s (s.step schedule) := by
  have hstep : ∀ {o}, (∀ r, s.doing = some (.recipe r) → s.Remakes r →
    o = some (r.build, r.target)) →
      Run.RemakesOnly o s (s.step schedule) := fun h =>
    frame_step schedule s (fun a ha => remakesOnly_perform s fun r hr => h r (hr ▸ ha))
      (frame_turn schedule s fun _ _ => relates_of_makefiles rfl)
  by_cases hdue : ∃ r, s.doing = some (.recipe r) ∧ s.Remakes r
  · obtain ⟨r, hr, hdue⟩ := hdue
    refine .inr ⟨r, hr, hdue, hstep fun r' hr' _ => ?_⟩
    cases hr.symm.trans hr'
    rfl
  · exact .inl (hstep fun r hr hr' => absurd ⟨r, hr, hr'⟩ hdue)

/-! ## Restarts -/

/-- A rule of a target made it anew. -/
def Remade (h : List Deed) (b : Nat) (t : Text) : Prop :=
  ∃ d ∈ h, ∃ i, d.action = .recipe ⟨b, t, i⟩ ∧ d.before.Remakes ⟨b, t, i⟩

theorem Remade.cons (hr : Remade h b t) : Remade (d :: h) b t :=
  let ⟨d', hd', hp⟩ := hr
  ⟨d', mem_cons_of_mem _ hd', hp⟩

/-- **Nothing counts as made anew unless it was called for**, in any state that a run comes to. -/
theorem Course.remade_due {w : World} {args : List Text} {env : Env} {cwd : Text}
    (hc : Course (.init w args env cwd) h s) (hmk : s.makefile? b = some mk)
    (ht : (mk.targetAt t).remade = true) : Remade h b t := by
  induction hc generalizing mk with
  | start => cases hmk
  | @act h s a schedule _ doing ih =>
    rcases s.step_remakes schedule with hnone | ⟨r, hr, hdue, hone⟩
    · obtain ⟨mk', hmk', ht'⟩ := (hnone.remade hmk ht).resolve_left nofun
      exact (ih hmk' ht').cons
    · rcases hone.remade hmk ht with he | ⟨mk', hmk', ht'⟩
      · cases he
        cases doing.symm.trans hr
        exact ⟨_, mem_cons_self, r.rule, rfl, hdue⟩
      · exact (ih hmk' ht').cons
  | @pass h s schedule _ doing ih =>
    rcases s.step_remakes schedule with hnone | ⟨r, hr, -⟩
    · obtain ⟨mk', hmk', ht'⟩ := (hnone.remade hmk ht).resolve_left nofun
      exact ih hmk' ht'
    · cases doing.symm.trans hr

/-- The makefiles of a build are made, and one of them counts as made anew. -/
def Build.Renewed (x : Build) : Prop :=
  x.toRemake = [] ∧ ∃ p ∈ x.included, (x.makefile.targetAt p.1).remade = true

namespace RunM

/-- The makefiles of a build count as made anew if one of them does. -/
theorem remadeOutcome_gives {included : List (Text × Bool)}
    (hmk : s.makefile? b = some mk) (h : Gives (remadeOutcome b included) s (true, none) s') :
    ∃ p ∈ included, (mk.targetAt p.1).remade = true := by
  induction included with
  | nil => cases h
  | cons p rest ih =>
    replace h := of_target hmk h
    split at h
    · exact ⟨p, mem_cons_self, ‹_›⟩
    · have hrest : ∀ {s1}, s = s1 → Gives (remadeOutcome b rest) s1 (true, none) s' →
          ∃ q ∈ p :: rest, (mk.targetAt q.1).remade = true := by
        rintro _ rfl h
        obtain ⟨q, hq, hremade⟩ := ih h
        exact ⟨q, mem_cons_of_mem _ hq, hremade⟩
      obtain ⟨m, -, h⟩ := Gives.of_time h
      split at h
      · cases h
      · exact hrest rfl h

/-- A make is to read its makefiles again only if one that it included counts as made anew. -/
theorem remakeNext_restarts {error : Bool}
    (h : Gives (remakeNext b error) s [.proceed m true none] s') :
    ∃ x, s.builds[b]? = some x ∧ x.make = m ∧ x.Renewed := by
  obtain ⟨x, hb, h⟩ := h.of_build
  have hmk : s.makefile? b = some x.makefile := by simp [Run.makefile?, hb]
  refine ⟨x, hb, ?_⟩
  split at h
  · cases h
  obtain ⟨s1, e1, h⟩ := h.of_when (sameMakefiles_print _)
  split at h
  · obtain ⟨_, s2, -, h⟩ := h.of_bind
    cases h
  · rename_i hnil
    obtain ⟨⟨remade, e⟩, s2, h2, h⟩ := h.of_bind
    cases h
    exact ⟨rfl, hnil, remadeOutcome_gives (e1 ▸ hmk) h2⟩

/-- A make never reads its makefiles again right after it has read them: if there are any to be made
anew, this comes first. -/
theorem parseMakefiles_restarts {m' : Nat} :
    ¬ Gives (parseMakefiles m') s [.proceed m true none] s' := by
  intro h
  obtain ⟨x, s1, -, -, h, hall⟩ := parseMakefiles_remakes h
  obtain ⟨z, hz, -, hnone, p, hp, -⟩ := remakeNext_restarts h
  rw [← hall z hz, hnone] at hp
  cases hp

end RunM

/-- A deed has a make read its makefiles again: what it leads to at once is that, and it is not the
start of the make. -/
structure Deed.Restarts (d : Deed) (m : Nat) : Prop where
  later : ∀ args env cwd e, d.action ≠ .start args env cwd e
  again : d.after.stack = .action (.proceed m true none) :: d.before.stack.tail

/-- What leads to a make reading its makefiles again: it is told that the last of them is done, and
one of them counts as made anew. -/
theorem Balanced.perform_restarts {L : Ledger} {rest : List Frame} (hB : Balanced h s.view L)
    (hs : s.stack = .action a :: rest) (hstart : ∀ args env cwd e, a ≠ .start args env cwd e)
    (h : Gives (Run.perform a) s [.action (.proceed m true none)] s') :
    ∃ (b : Nat) (x : Build), s.builds[b]? = some x ∧ x.make = m ∧ x.Renewed := by
  have hdoes := hB.does_of_gives hs h
  have hmap : ∀ {x : RunM (List Action)}, Gives (do return (← x).map .action) s
      [Frame.action (.proceed m true none)] s' → Gives x s [.proceed m true none] s' := by
    intro x h
    obtain ⟨as, h1, has⟩ := h.of_pure
    obtain ⟨a', rfl, ha'⟩ := map_eq_singleton_iff.1 has
    cases ha'
    exact h1
  generalize hframes : [Frame.action (.proceed m true none)] = frames at hdoes
  cases hdoes with
  | took took =>
    obtain ⟨_, _, _, _, _, -, turn, -⟩ := took.exists_turn
    obtain ⟨a', rfl, ha'⟩ := map_eq_singleton_iff.1 hframes.symm
    obtain ⟨-, _, -, hone, hplain, -⟩ := turn.follows.resolve_left (cons_ne_nil _ _)
    cases hone
    cases ha'
    cases hplain
  | asks | reads | ends => cases hframes
  | asked asked =>
    cases asked with
    | answered | joined | barren => cases hframes
    | @begun serial => cases serial <;> cases hframes
  | @told b t ρ error did now hmake passes =>
    have htell : Gives (RunM.tell ρ error did) s [.proceed m true none] s' := hmap h
    cases ρ with
    | dependent => cases hmake
    | makefiles b => exact ⟨b, remakeNext_restarts htell⟩
    | goals m' =>
      unfold RunM.tell at htell
      dsimp only at htell
      split at htell
      · obtain ⟨_, s1, -, h⟩ := htell.of_bind
        cases h
      · obtain e | ⟨_, _, _, _, e⟩ := nextGoal_asks htell <;> cases e
  | @proceeds m' remade e now passes known =>
    have hproceed : Gives (proceed m' remade e) s [.action (.proceed m true none)] s' := h
    unfold proceed at hproceed
    split at hproceed
    · obtain ⟨_, s1, -, h⟩ := hproceed.of_bind
      obtain ⟨_, s2, -, h⟩ := h.of_bind
      cases h
    · rw [if_neg fun hr => known ⟨hr, rfl⟩] at hproceed
      obtain e | ⟨_, _, _, _, e⟩ := beginGoals_asks (hmap hproceed) <;> cases e
  | parses passes => exact absurd (hmap h) parseMakefiles_restarts
  | starts => cases hstart _ _ _ _ rfl

/-- **There is no restart unless it is called for.** If a make reads its makefiles again, then all
that it included were made, and a rule of one of them had made it anew: its recipe was due, or it
has none and the makefile or one of its prerequisites was missing. -/
theorem Course.restart_due {w : World} {args : List Text} {env : Env} {cwd : Text}
    {later earlier : List Deed} {d : Deed}
    (hc : Course (.init w args env cwd) (later ++ d :: earlier) s)
    (hd : d.Restarts m) : ∃ (b : Nat) (x : Build), d.before.builds[b]? = some x ∧ x.make = m ∧
      x.toRemake = [] ∧ ∃ p ∈ x.included, Remade earlier b p.1 := by
  obtain ⟨hc, hdoing, schedule, hafter⟩ := hc.split
  obtain ⟨ho, rest, hs⟩ := Run.doing_eq_some hdoing
  obtain ⟨L, hB⟩ := hc.balanced.resolve_left (Run.not_broken ho)
  have hst : Stepped d.before d.after := hafter ▸ Run.step_stepped ho hB.stacked
  have hagain := hd.again
  rw [hs, tail_cons] at hagain
  have hrenewed : ∃ (b : Nat) (x : Build), d.before.builds[b]? = some x ∧ x.make = m ∧
      x.Renewed := by
    cases hst.acted hs with
    | @gives frames s₁ gives state =>
      rw [state] at hagain
      have hframes : frames = [.action (.proceed m true none)] :=
        append_cancel_right (show frames ++ rest = [_] ++ rest from hagain)
      exact hB.perform_restarts hs hd.later (hframes ▸ gives)
    | @complaint g _ frames e _ _ guarded may fails answered state =>
      subst guarded
      rw [state] at hagain
      have hlength := congrArg List.length hagain
      have hshort : frames.length ≤ 1 := by
        rcases Run.answer_frames answered with rfl | ⟨e', rfl⟩ <;> simp
      simp only [length_append, length_cons] at hlength
      omega
    | abort stack => cases stack.symm.trans hagain
  obtain ⟨b, x, hb, hm, hnone, p, hp, hremade⟩ := hrenewed
  exact ⟨b, x, hb, hm, hnone, p, hp, hc.remade_due (by simp [Run.makefile?, hb]) hremade⟩

/-- A makefile that includes `a`, which cannot be made the first time and has no rule then. -/
def Sample.vain : Text := "-include a\nall:\nifeq ($(MAKE_RESTARTS),)\na:\n\tfalse\nendif\n"

/-- Does a deed, the last that was to be done, have a make read its makefiles again? -/
def Deed.restarts (d : Deed) (m : Nat) : Bool :=
  match d.action, d.before.stack, d.after.stack with
  | .start .., _, _ => false
  | _, [_], [.action (.proceed m' true none)] => m' == m
  | _, _, _ => false

theorem Deed.restarts_of_eq (h : d.restarts m = true) : d.Restarts m := by
  unfold Deed.restarts at h
  split at h
  · cases h
  · rename_i hbefore hafter hno
    obtain rfl := beq_iff_eq.1 h
    exact ⟨fun _ _ _ _ ha => hno _ _ _ _ ha, by rw [hafter, hbefore, tail_cons]⟩
  · cases h

/-- Did the recipe of a target fail in a deed? -/
def Deed.fails (b : Nat) (t : Text) (d : Deed) : Bool :=
  match d.action with
  | .recipeDone b' t' true => b' == b && t' == t
  | _ => false

theorem failed_of_any (hf : h.any (Deed.fails b t) = true) : Failed h b t := by
  obtain ⟨d, hd, hf⟩ := any_eq_true.1 hf
  unfold Deed.fails at hf
  split at hf
  · rename_i b' t' ha
    simp only [Bool.and_eq_true, beq_iff_eq] at hf
    exact ⟨d, hd, by rw [ha, hf.1, hf.2]⟩
  · cases hf

/-- The targets of which a recipe was taken up. -/
def recipeTargets (h : List Deed) : List Text :=
  h.filterMap fun d => match d.action with
    | .recipe r => some r.target
    | _ => none

theorem Sample.vain_last : ∃ earlier d s, Course (Sample.start Sample.vain) (d :: earlier) s ∧
    (d.restarts 0 && recipeTargets earlier == ["a"] && earlier.any (Deed.fails 0 "a") &&
      !d.after.world.files.has "/w" "a") = true :=
  Course.of_last _
  (fun d h => d.restarts 0 && recipeTargets h == ["a"] && h.any (Deed.fails 0 "a") &&
    !d.after.world.files.has "/w" "a") 25 (by decide +kernel)

/-- A make reads its makefiles again although the only recipe that was taken up has failed, and the
file it was to make is still missing. -/
theorem restart_after_failure : ∃ earlier d s, Course (Sample.start Sample.vain) (d :: earlier) s ∧
    d.Restarts 0 ∧ recipeTargets earlier = ["a"] ∧ Failed earlier 0 "a" ∧
      d.after.world.files.has "/w" "a" = false := by
  obtain ⟨earlier, d, s, hc, hcheck⟩ := Sample.vain_last
  simp only [Bool.and_eq_true, beq_iff_eq, Bool.not_eq_true'] at hcheck
  obtain ⟨⟨⟨hrestarts, htargets⟩, hfails⟩, hmissing⟩ := hcheck
  exact ⟨earlier, d, s, hc, Deed.restarts_of_eq hrestarts, htargets, failed_of_any hfails, hmissing⟩

/-- What was called for in that run. -/
theorem restart_due_vain : ∃ earlier d s, Course (Sample.start Sample.vain) (d :: earlier) s ∧
    d.Restarts 0 ∧ ∃ (b : Nat) (x : Build), d.before.builds[b]? = some x ∧ x.make = 0 ∧
      x.toRemake = [] ∧ ∃ p ∈ x.included, Remade earlier b p.1 := by
  obtain ⟨earlier, d, s, hc, hcheck⟩ := Sample.vain_last
  simp only [Bool.and_eq_true] at hcheck
  have hd : d.Restarts 0 := Deed.restarts_of_eq hcheck.1.1.1
  have hlast : Course (Sample.start Sample.vain) ([] ++ d :: earlier) _ := hc
  exact ⟨earlier, d, s, hc, hd, Course.restart_due hlast hd⟩

end Rebuild
