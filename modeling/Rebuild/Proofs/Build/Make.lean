import Rebuild.Proofs.Build.Target
/-!
# What makes do

A make reads its makefiles and asks for its goals. None of this touches the work on targets: the
view grows by makes, builds and contexts (`View.Grows`), and the one thread that waits for the
answer of the make is passed on, from reading to the makefiles to the goals to the exit code
(`Passes`).
-/

namespace Rebuild

open List Run MakeM

/-- The thread to which something belongs; that of a make is the one that waits for its exit
code. -/
def View.thread (v : View) : Post → Thread
  | .own τ => τ
  | .make m => (v.make m).elim .top (·.receiver.thread)
  | .makefiles b => ((v.boss b).bind v.make).elim .top (·.receiver.thread)

/-- The make or build to which something belongs is there. -/
def View.Knows (v : View) : Post → Prop
  | .own _ => True
  | .make m => (v.make m).isSome
  | .makefiles b => (v.boss b).isSome

/-- Nothing happened to the work on targets; makes, builds and contexts may be new. -/
structure View.Grows (v v' : View) : Prop where
  stack : v'.stack = v.stack
  queue : v'.queue = v.queue
  work : v'.work = v.work
  failed : v'.failed = v.failed
  keep : ∀ b, (v.boss b).isSome → v'.keep b = v.keep b
  boss : ∀ b m, v.boss b = some m → v'.boss b = some m
  make : ∀ m x, v.make m = some x → ∃ x', v'.make m = some x' ∧ x.GoesOn x'
  wired : v.Wired → v'.Wired

namespace View.Grows

variable {v v' v'' : View}

theorem refl (v : View) : v.Grows v where
  stack := rfl
  queue := rfl
  work := rfl
  failed := rfl
  keep _ _ := rfl
  boss _ _ h := h
  make _ x h := ⟨x, h, rfl⟩
  wired h := h

theorem trans (h1 : v.Grows v') (h2 : v'.Grows v'') : v.Grows v'' where
  stack := h2.stack.trans h1.stack
  queue := h2.queue.trans h1.queue
  work := h2.work.trans h1.work
  failed := h2.failed.trans h1.failed
  keep b hb := by
    obtain ⟨m, hm⟩ := Option.isSome_iff_exists.1 hb
    rw [h2.keep b (by simp [h1.boss b m hm]), h1.keep b hb]
  boss b m h := h2.boss b m (h1.boss b m h)
  make m x h := by
    obtain ⟨x1, hx1, e1⟩ := h1.make m x h
    obtain ⟨x2, hx2, e2⟩ := h2.make m x1 hx1
    exact ⟨x2, hx2, by unfold Make.GoesOn; rw [e2, e1]⟩
  wired := h2.wired ∘ h1.wired

theorem knows (h : v.Grows v') {p : Post} (hp : v.Knows p) : v'.Knows p := by
  cases p with
  | own τ => trivial
  | make m =>
    obtain ⟨x, hx⟩ := Option.isSome_iff_exists.1 hp
    obtain ⟨x', hx', -⟩ := h.make m x hx
    simp [Knows, hx']
  | makefiles b =>
    obtain ⟨m, hm⟩ := Option.isSome_iff_exists.1 hp
    simp [Knows, h.boss b m hm]

theorem thread (h : v.Grows v') (hv : v.Wired) {p : Post} (hp : v.Knows p) :
    v'.thread p = v.thread p := by
  cases p with
  | own τ => rfl
  | make m =>
    obtain ⟨x, hx⟩ := Option.isSome_iff_exists.1 hp
    obtain ⟨x', hx', e⟩ := h.make m x hx
    simp only [View.thread, hx, hx', Option.elim_some]
    rw [e]
  | makefiles b =>
    obtain ⟨m, hm⟩ := Option.isSome_iff_exists.1 hp
    obtain ⟨x, hx, -⟩ := hv.boss b m hm
    obtain ⟨x', hx', e⟩ := h.make m x hx
    simp only [View.thread, hm, h.boss b m hm, Option.bind_some, hx, hx', Option.elim_some]
    rw [e]

end View.Grows

/-- Is the one who waits for a target a make? -/
def Reply.isMake : Reply → Bool
  | .dependent .. => false
  | .makefiles _ | .goals _ => true

/-- The thread of a make is passed on: to a makefile or goal that is asked for, to the make when it
goes on, or to its exit code. -/
inductive Passes (v : View) (p : Post) : List Action → View → Prop
  | ask {v₁ : View} {b : Nat} {t : Text} {stack : List Text} {ρ : Reply} {avoidLoop report : Bool}
      (grows : v.Grows v₁) (make : ρ.isMake = true) (loop : avoidLoop = true → ρ = .makefiles b)
      (known : v₁.Knows (ρ.post t)) (same : v₁.thread (ρ.post t) = v.thread p) :
      Passes v p [.make b t stack ρ avoidLoop report] v₁
  | proceed {v₁ : View} {m : Nat} {remade : Bool} {e : Option Error} (grows : v.Grows v₁)
      (known : v₁.Knows (.make m)) (same : v₁.thread (.make m) = v.thread p) :
      Passes v p [.proceed m remade e] v₁
  | exit {v₁ : View} {e : ExitTo} {code : Int} (grows : v.Grows v₁)
      (same : e.thread = v.thread p) : Passes v p [] (v₁.later [.task (.exit e code)])

namespace RunM

variable {s s' : Run} {b m c : Nat} {as : List Action} {u : Unit} {α : Type} {f : Make → Make}
  {e : Error} {x : Make} {code : Int} {s1 : Run} {remade : Bool} {error : Option Error}
  {frames : List Frame}

/-- The view has grown. -/
def Grown (s s' : Run) : Prop := s.view.Grows s'.view

instance : IsPreorder Run Grown where
  refl s := .refl s.view
  trans _ _ _ h₁ h₂ := h₁.trans h₂

theorem keeps_grown {x : RunM α} (h : Keeps SameView x) : Keeps Grown x :=
  fun s => by
    unfold Grown
    rw [show (x.run s).2.view = s.view from h s]
    exact .refl _

/-! ## Contexts, makes and builds -/

theorem keeps_sharedContext (jobs : Int) : Keeps Grown (sharedContext jobs) := by
  intro s
  rcases run_sharedContext jobs s with h | ⟨-, h⟩
  · rw [show (sharedContext jobs).run s = _ from h]
    exact .refl _
  · rw [show (sharedContext jobs).run s = _ from h]
    refine ⟨rfl, ?_, rfl, rfl, fun _ _ => rfl, fun _ _ h => h, fun _ x h => ⟨x, h, rfl⟩,
      fun hv => ⟨hv.boss⟩⟩
    rcases s.loop.shared_cases jobs with e | ⟨-, _, _, e⟩ <;>
      simp [view, e, Loop.duties, Loop.new, Context.duties]

/-- A make changes no more than its goals and its build. -/
theorem keeps_onMake (m : Nat) (hf : ∀ x : Make, x.GoesOn (f x)) : Keeps Grown (onMake m f) := by
  refine keeps_modify fun s => ?_
  have hmake : ∀ (m' : Nat) x, s.makes[m']? = some x → ∃ x', (s.makes.modify m f)[m']? = some x' ∧
      Make.GoesOn x x' := by
    intro m' x hx
    rw [getElem?_modify, hx]
    by_cases hm : m = m'
    · exact ⟨f x, by simp [hm], hf x⟩
    · exact ⟨x, by simp [hm], rfl⟩
  refine ⟨rfl, rfl, rfl, rfl, fun _ _ => rfl, fun _ _ h => h, hmake,
    fun hv => ⟨fun b m' hb => ?_⟩⟩
  obtain ⟨x, hx, hk⟩ := hv.boss b m' hb
  obtain ⟨x', hx', e⟩ := hmake m' x hx
  exact ⟨x', hx', by rw [e]; exact hk⟩

theorem onMake_grown (h : Gives (onMake m f) s u s') (hf : ∀ x : Make, x.GoesOn (f x)) :
    Grown s s' :=
  (keeps_onMake m hf).of_gives h

theorem onMake_fails_bind {g : Unit → RunM α} (h : Fails (onMake m f >>= g) s e s')
    (hf : ∀ x : Make, x.GoesOn (f x)) (hg : ∀ s1, Fails (g ()) s1 e s' → Grown s1 s') :
    Grown s s' :=
  (keeps_onMake m hf).fails_bind h fun _ s1 _ h => hg s1 h

theorem view_newBuild {y : Build} (hm : s.view.make m = some x) (hy : y.make = m)
    (hw : y.works = []) (hf : y.failed = false)
    (hk : y.makefile.habits.keepGoing = x.options.keepGoing) :
    Grown s { s with builds := s.builds ++ [y] } := by
  have hold : ∀ b', b' ≠ s.builds.length → (s.builds ++ [y])[b']? = s.builds[b']? := by
    intro b' hb'
    rcases Nat.lt_or_gt_of_ne hb' with hlt | hgt
    · exact getElem?_append_left hlt
    · rw [getElem?_eq_none (by simp; omega), getElem?_eq_none (by omega)]
  have hnew : (s.builds ++ [y])[s.builds.length]? = some y := by simp
  have hno : s.builds[s.builds.length]? = none := by simp
  refine ⟨rfl, rfl, ?_, ?_, fun b' hb' => ?_, fun b' m' hb' => ?_, fun _ x h => ⟨x, h, rfl⟩,
    fun hv => ⟨fun b' m' h => ?_⟩⟩
  · funext b' t'
    by_cases hb' : b' = s.builds.length
    · simp [Run.view, Run.work, hb', hw]
    · simp [Run.view, Run.work, hold b' hb']
  · funext b'
    by_cases hb' : b' = s.builds.length
    · simp [view, hb', hf]
    · simp [view, hold b' hb']
  · have : b' ≠ s.builds.length := by
      rintro rfl
      simp [view] at hb'
    simp [view, hold b' this]
  · have : b' ≠ s.builds.length := by
      rintro rfl
      simp [view] at hb'
    simpa [view, hold b' this] using hb'
  · by_cases hb' : b' = s.builds.length
    · simp only [view, hb', hnew, Option.map_some, Option.some.injEq] at h
      refine ⟨x, ?_, by simp [view, hb', hk]⟩
      rw [← h, hy]
      exact hm
    · obtain ⟨x', hx', hk'⟩ := hv.boss b' m' (by simpa [view, hold b' hb'] using h)
      exact ⟨x', hx', by simpa [view, hold b' hb'] using hk'⟩

theorem keeps_newBuild (m : Nat) : Keeps Grown (newBuild m) := by
  intro s
  refine keeps_bind_gives (keeps_make m s) fun x s1 hx => ?_
  obtain ⟨hm, rfl⟩ := gives_make.1 hx
  refine keeps_bind_get ?_
  refine keeps_bind_at (view_newBuild hm rfl rfl rfl rfl) fun _ => ?_
  refine keeps_bind (keeps_grown (keeps_onMakefile (keeps_start _).sameHabits _)) fun _ => ?_
  exact keeps_onMake m fun _ => rfl

/-! ## The end of a make -/

theorem exitLater_view (h : Gives (exitLater m code) s u s') :
    ∃ x, s.view.make m = some x ∧ s'.view = s.view.later [.task (.exit x.receiver code)] := by
  obtain ⟨x, hm, h⟩ := h.of_make
  exact ⟨x, hm, deferIn_view h⟩

theorem exitLater_passes (hv : s.view.Wired) (hg : Grown s s1) (hm : s.view.Knows (.make m))
    (h : Gives (exitLater m code) s1 u s') : Passes s.view (.make m) [] s'.view := by
  obtain ⟨x, hx, e⟩ := exitLater_view h
  rw [e]
  refine .exit hg ?_
  rw [← hg.thread hv hm]
  simp [View.thread, hx]

theorem exitLater_fails (h : Fails (exitLater m code) s e s') : Grown s s' := by
  refine (keeps_make m).fails_bind h fun x s1 _ h => ?_
  refine (keeps_get).fails_bind h fun y s2 _ h => ?_
  refine (keeps_ofExcept _).fails_bind h fun l s3 _ h => ?_
  exact absurd h fails_set

/-! ## Making makefiles anew -/

/-- Making the makefiles anew does not show. -/
theorem keeps_remakeNext (b : Nat) (error : Bool) : Keeps SameView (remakeNext b error) :=
  holds_remakeNext (P := fun _ => Keeps SameView) b error

theorem remakeNext_gives {error : Bool} (h : Gives (remakeNext b error) s as s') :
    ∃ m, s.view.boss b = some m ∧
      ((∃ t, as = [.make b t [] (.makefiles b) true false]) ∨
        ∃ remade e, as = [.proceed m remade e]) := by
  obtain ⟨x, hb, h⟩ := h.of_build
  refine ⟨x.make, boss_isSome hb, ?_⟩
  extract_lets go at h
  have hgo : ∀ {s1 : Run}, Gives (go ()) s1 as s' →
      (∃ t, as = [.make b t [] (.makefiles b) true false]) ∨
        ∃ remade e, as = [.proceed x.make remade e] := by
    intro s1 h
    dsimp only [go] at h
    split at h
    · obtain ⟨_, -, rfl⟩ := h.of_pure
      exact .inl ⟨_, rfl⟩
    · obtain ⟨_, -, rfl⟩ := h.of_pure
      exact .inr ⟨_, _, rfl⟩
  split at h
  · cases h
    exact .inr ⟨_, _, rfl⟩
  · split at h
    · obtain ⟨_, s1, -, h⟩ := h.of_bind
      exact hgo h
    · exact hgo h

theorem remakeNext_passes {error : Bool} {p : Post} (hv : s.view.Wired) (hg : Grown s s1)
    (hp : s1.view.thread (.makefiles b) = s.view.thread p)
    (h : Gives (remakeNext b error) s1 as s') :
    Passes s.view p as s'.view := by
  have e : s'.view = s1.view := (keeps_remakeNext b error).of_gives h
  obtain ⟨m, hb, hcase⟩ := remakeNext_gives h
  obtain ⟨x, hx, -⟩ := (hg.wired hv).boss b m hb
  rw [e]
  rcases hcase with ⟨t, rfl⟩ | ⟨remade, e, rfl⟩
  · exact .ask hg rfl (fun _ => rfl) (by simp [Reply.post, View.Knows, hb]) hp
  · refine .proceed hg (by simp [View.Knows, hx]) ?_
    rw [← hp]
    simp [View.thread, hb, hx]

/-! ## Reading makefiles -/

theorem view_setContext (s : Run) (b c : Nat) :
    Grown s { s with builds := s.builds.modify b fun y => { y with context := c } } := by
  generalize hs' : ({ s with builds := s.builds.modify b fun y => { y with context := c } } : Run) =
    s'
  have hwork : s'.view.work = s.view.work := by
    funext b' t'
    rw [← hs']
    simp only [Run.view, Run.work, getElem?_modify]
    split <;> cases s.builds[b']? <;> rfl
  have hfailed : s'.view.failed = s.view.failed := by
    rw [← hs']
    exact funext fun b' => elim_modify _ _ _ _ _ _ fun _ => rfl
  have hkeep : s'.view.keep = s.view.keep := by
    rw [← hs']
    exact funext fun b' => elim_modify _ _ _ _ _ _ fun _ => rfl
  have hboss : s'.view.boss = s.view.boss := by
    rw [← hs']
    exact funext fun b' => map_modify _ _ _ _ _ fun _ => rfl
  have hmake : s'.view.make = s.view.make := by
    rw [← hs']
    rfl
  refine ⟨by rw [← hs']; rfl, by rw [← hs']; rfl, hwork, hfailed, fun b' _ => by rw [hkeep],
    fun b' m' h => by rw [hboss]; exact h, fun m' x h => ⟨x, by rw [hmake]; exact h, rfl⟩,
    fun hv => ⟨?_⟩⟩
  rw [hboss, hmake, hkeep]
  exact hv.boss

theorem keeps_readIncluded (included : List (Text × Bool)) :
    Keeps SameHabits (included.mapM fun (f, required) => do
      let name ← mention f
      onTarget name fun t => { t with explicit := true }
      findFile name
      return (name, required)) := by
  refine keeps_mapM fun ⟨f, required⟩ => keeps_bind (keeps_mention f).sameHabits fun name => ?_
  refine keeps_bind (keeps_modify fun _ => rfl) fun _ => ?_
  exact keeps_return (sameHabits_findFile name)

theorem keeps_readMakefiles (b : Nat) (x : Make) : Keeps SameView (onMakefile b do
    execute false x.arguments.statements
    x.options.makefiles.forM fun f => includeFile f true false) := by
  refine keeps_onMakefile (Keeps.sameHabits ?_) b
  exact keeps_bind (keeps_execute _ _) fun _ => keeps_forM fun f => keeps_includeFile f _ _

theorem keeps_parseMakefiles (m : Nat) : Keeps Grown (parseMakefiles m) := by
  refine keeps_bind (keeps_make m) fun x => ?_
  refine keeps_bind (keeps_grown (keeps_readMakefiles _ x)) fun _ => ?_
  refine keeps_bind (keeps_grown (keeps_onMakefile sameHabits_finish _)) fun _ => ?_
  refine keeps_bind (keeps_build _) fun y => ?_
  extract_lets note
  have hnote : ∀ u, Keeps Grown (note u) := by
    intro u
    refine keeps_bind (keeps_grown (keeps_onMakefile ?_ _)) fun included => ?_
    · exact keeps_bind keeps_makefile fun mk => keeps_readIncluded _
    · exact keeps_bind (keeps_grown (keeps_noteRemake _ fun _ => rfl)) fun _ =>
        keeps_grown (keeps_remakeNext _ _)
  split
  · exact keeps_bind (keeps_sharedContext 1) fun c =>
      keeps_bind (keeps_modify fun s => view_setContext s _ c) hnote
  · exact hnote ()

/-- A make whose makefiles were read makes all of them anew that it included. -/
theorem parseMakefiles_remakes (h : Gives (parseMakefiles m) s as s') :
    ∃ x s1, s.view.make m = some x ∧ Grown s s1 ∧ Gives (remakeNext x.build false) s1 as s' ∧
      ∀ y, s1.builds[x.build]? = some y → y.toRemake = y.included := by
  obtain ⟨x, hm, h⟩ := h.of_make
  obtain ⟨_, s1, h1, h⟩ := h.of_bind
  have g1 := (keeps_grown (keeps_readMakefiles _ x)).of_gives h1
  obtain ⟨_, s2, h2, h⟩ := h.of_bind
  have g2 := (keeps_grown (keeps_onMakefile sameHabits_finish _)).of_gives h2
  obtain ⟨y, -, h⟩ := h.of_build
  extract_lets note at h
  have hnote : ∀ {s1 : Run}, Gives (note ()) s1 as s' →
      ∃ s2, Grown s1 s2 ∧ Gives (remakeNext x.build false) s2 as s' ∧
        ∀ y, s2.builds[x.build]? = some y → y.toRemake = y.included := by
    intro s1 h
    obtain ⟨included, s4, h4, h⟩ := h.of_bind
    obtain ⟨_, s5, h5, h⟩ := h.of_bind
    refine ⟨s5, trans_of Grown (keeps_grown (keeps_onMakefile ?_ _) |>.of_gives
      h4) (keeps_grown (keeps_noteRemake _ fun _ => rfl) |>.of_gives h5), h, fun y hy => ?_⟩
    · exact keeps_bind keeps_makefile fun mk => keeps_readIncluded _
    · rw [← gives_modify.1 h5, show (builds _)[x.build]? = _ from getElem?_modify ..] at hy
      obtain ⟨z, -, rfl⟩ := Option.map_eq_some_iff.1 hy
      simp
  split at h
  · obtain ⟨c, s3, h3, h⟩ := h.of_bind
    obtain ⟨_, s4, h4, h⟩ := h.of_bind
    obtain ⟨s5, g5, h⟩ := hnote h
    have g3 := (keeps_sharedContext 1).of_gives h3
    have g4 := view_setContext s3 x.build c
    rw [gives_modify.1 h4] at g4
    exact ⟨x, s5, hm, g1.trans (g2.trans (g3.trans (g4.trans g5))), h⟩
  · obtain ⟨s5, g5, h⟩ := hnote h
    exact ⟨x, s5, hm, g1.trans (g2.trans g5), h⟩

/-- A make whose makefiles were read goes on with making them anew. -/
theorem parseMakefiles_passes (hv : s.view.Wired) (hm : s.view.make m = some x)
    (hb : s.view.boss x.build = some m) (h : Gives (parseMakefiles m) s as s') :
    Passes s.view (.make m) as s'.view := by
  obtain ⟨x', s1, hm', hg, h, -⟩ := parseMakefiles_remakes h
  cases hm.symm.trans hm'
  refine remakeNext_passes hv hg ?_ h
  have hknown : s.view.Knows (.make m) := by simp [View.Knows, hm]
  rw [← hg.thread hv hknown]
  simp [View.thread, hg.boss _ _ hb]

/-! ## Goals -/

theorem nextGoal_passes (hv : s.view.Wired) (hg : Grown s s1) (hm : s.view.Knows (.make m))
    (h : Gives (nextGoal m) s1 as s') : Passes s.view (.make m) as s'.view := by
  obtain ⟨x, hx, h⟩ := h.of_make
  split at h
  · rename_i goal rest hgoals
    obtain ⟨_, s2, h2, h⟩ := h.of_bind
    have g2 := onMake_grown h2 fun _ => rfl
    obtain ⟨name, s3, h3, h⟩ := h.of_bind
    have g3 := (keeps_grown (keeps_onMakefile (keeps_mention goal).sameHabits x.build)).of_gives h3
    obtain ⟨rfl, rfl⟩ := gives_pure.1 h
    have hg' : s.view.Grows s3.view := hg.trans (g2.trans g3)
    exact .ask hg' rfl nofun (hg'.knows hm) (hg'.thread hv hm)
  · obtain ⟨s2, g2, h⟩ := h.of_when (keeps_grown (keeps_print _))
    obtain ⟨_, h3, rfl⟩ := h.of_pure
    exact exitLater_passes hv (hg.trans g2) hm h3

/-- What a make goes on with for its goals: the next of them, or nothing. -/
def AsksGoal (s : Run) (m : Nat) (as : List Action) : Prop :=
  as = [] ∨ ∃ x t stack, s.view.make m = some x ∧ as = [.make x.build t stack (.goals m) false true]

theorem nextGoal_asks (h : Gives (nextGoal m) s as s') : AsksGoal s m as := by
  obtain ⟨x, hx, h⟩ := h.of_make
  split at h
  · obtain ⟨_, s1, -, h⟩ := h.of_bind
    obtain ⟨name, -, rfl⟩ := h.of_pure
    exact .inr ⟨x, name, _, hx, rfl⟩
  · obtain ⟨s1, -, h⟩ := h.of_when (keeps_grown (keeps_print _))
    obtain ⟨_, -, rfl⟩ := h.of_pure
    exact .inl rfl

theorem nextGoal_fails (h : Fails (nextGoal m) s e s') : Grown s s' := by
  refine (keeps_make m).fails_bind h fun x s1 _ h => ?_
  split at h
  · rename_i goal rest hgoals
    refine onMake_fails_bind h (fun _ => rfl) fun s2 h => ?_
    exact (keeps_return
      (keeps_grown (keeps_onMakefile (keeps_mention goal).sameHabits x.build))).of_fails h
  · extract_lets leave at h
    have hleave : ∀ {s2 : Run}, Fails (leave ()) s2 e s' → Grown s2 s' := by
      intro s2 h
      exact exitLater_fails h.of_pure
    split at h
    · exact (keeps_grown (keeps_print _)).fails_bind h fun _ _ _ h => hleave h
    · exact hleave h

theorem beginGoals_passes (hv : s.view.Wired) (hm : s.view.Knows (.make m))
    (h : Gives (beginGoals m) s as s') : Passes s.view (.make m) as s'.view := by
  obtain ⟨x, -, h⟩ := h.of_make
  split at h
  · obtain ⟨y, -, h⟩ := h.of_build
    split at h
    · obtain ⟨_, s1, h1, h⟩ := h.of_bind
      obtain ⟨_, h2, rfl⟩ := h.of_pure
      exact exitLater_passes hv ((keeps_grown (keeps_print _)).of_gives h1) hm h2
    · obtain ⟨_, s1, h1, h⟩ := h.of_bind
      obtain ⟨_, s2, h2, h⟩ := h.of_bind
      have g1 := (keeps_grown (keeps_onWorld _)).of_gives h1
      have g2 := onMake_grown h2 fun _ => rfl
      exact nextGoal_passes hv (trans_of Grown g1 g2) hm h
  · obtain ⟨_, s1, h1, h⟩ := h.of_bind
    exact nextGoal_passes hv (onMake_grown h1 fun _ => rfl) hm h

theorem beginGoals_asks (h : Gives (beginGoals m) s as s') : AsksGoal s m as := by
  obtain ⟨x, hx, h⟩ := h.of_make
  -- only the goals and the stack of the make are noted before
  have hnext : ∀ {f : Make → Make} {s1 : Run}, Gives (onMake m f >>= fun _ => nextGoal m) s1 as s' →
      s1.makes = s.makes → (f x).build = x.build → AsksGoal s m as := by
    intro f s1 h hmakes hf
    obtain ⟨_, s2, h2, h⟩ := h.of_bind
    refine (nextGoal_asks h).imp_right ?_
    rintro ⟨y, t, stack, hy, rfl⟩
    have hx1 : s1.makes[m]? = some x := by rw [hmakes]; exact hx
    obtain rfl : f x = y := by simpa [view, ← gives_modify.1 h2, hx1] using hy
    exact ⟨x, t, stack, hx, by rw [hf]⟩
  split at h
  · obtain ⟨y, -, h⟩ := h.of_build
    split at h
    · obtain ⟨_, s1, -, h⟩ := h.of_bind
      obtain ⟨_, -, rfl⟩ := h.of_pure
      exact .inl rfl
    · obtain ⟨_, s1, h1, h⟩ := h.of_bind
      exact hnext h (by rw [← gives_modify.1 h1]) rfl
  · exact hnext h rfl rfl

theorem beginGoals_fails (h : Fails (beginGoals m) s e s') : Grown s s' := by
  refine (keeps_make m).fails_bind h fun x s1 _ h => ?_
  split at h
  · refine (keeps_build _).fails_bind h fun y s2 _ h => ?_
    split at h
    · refine (keeps_grown (keeps_print _)).fails_bind h fun _ s3 _ h => ?_
      exact exitLater_fails h.of_pure
    · refine (keeps_grown (keeps_onWorld _)).fails_bind h fun _ s3 _ h => ?_
      exact onMake_fails_bind h (fun _ => rfl) fun _ h => nextGoal_fails h
  · exact onMake_fails_bind h (fun _ => rfl) fun _ h => nextGoal_fails h

/-! ## Going on with a make -/

theorem newBuild_gives (h : Gives (newBuild m) s u s') :
    ∃ x, s'.view.make m = some x ∧ s'.view.boss x.build = some m ∧ s.view.boss x.build = none := by
  obtain ⟨x, hm, h⟩ := h.of_make
  replace h := h.of_get
  obtain ⟨_, s1, h1, h⟩ := h.of_bind
  have hnew : s1.view.boss s.builds.length = some m := by
    rw [← gives_set.1 h1]
    simp [view]
  have hm1 : s1.view.make m = some x := by
    rw [← gives_set.1 h1]
    exact hm
  obtain ⟨_, s2, h2, h⟩ := h.of_bind
  have e2 : s2.view = s1.view :=
    (keeps_onMakefile (keeps_start _).sameHabits _).of_gives h2
  refine ⟨{ x with build := s.builds.length, restarts := x.restarts + 1 }, ?_, ?_, ?_⟩
  · rw [← gives_modify.1 h]
    have : s2.makes[m]? = some x := by
      rw [← e2] at hm1
      exact hm1
    simp [view, this]
  · exact (onMake_grown h fun _ => rfl).boss _ _ (by rw [e2]; exact hnew)
  · simp [view]

/-- A make goes on with an exit code, with its goals, or with reading its makefiles. -/
theorem proceed_cases (hv : s.view.Wired) (hm : s.view.Knows (.make m))
    (h : Gives (proceed m remade error) s frames s') :
    (∃ as, frames = as.map .action ∧ Passes s.view (.make m) as s'.view ∧
      ¬ (remade = true ∧ error = none)) ∨
    (frames = [.action (.parse m), .guard (.parse m)] ∧ Grown s s' ∧
      ∃ x, s'.view.make m = some x ∧ s'.view.boss x.build = some m ∧
        s.view.boss x.build = none) := by
  unfold proceed at h
  split at h
  · obtain ⟨_, s1, h1, h⟩ := h.of_bind
    obtain ⟨_, h2, rfl⟩ := h.of_pure
    exact .inl ⟨[], rfl, exitLater_passes hv ((keeps_grown (keeps_print _)).of_gives h1) hm h2,
      by simp⟩
  · split at h
    · obtain ⟨x, -, h⟩ := h.of_make
      obtain ⟨s1, g1, h⟩ := h.of_when (keeps_grown (keeps_onWorld _))
      obtain ⟨_, h2, rfl⟩ := h.of_pure
      obtain ⟨x, hx, hb, hnew⟩ := newBuild_gives h2
      refine .inr ⟨rfl, g1.trans ((keeps_newBuild m).of_gives h2), x, hx, hb, ?_⟩
      by_contra hne
      obtain ⟨m', hm'⟩ := Option.ne_none_iff_exists'.1 hne
      have hold := g1.boss _ _ hm'
      simp [hnew] at hold
    · obtain ⟨as, h1, rfl⟩ := h.of_pure
      exact .inl ⟨as, rfl, beginGoals_passes hv hm h1, fun hn => ‹¬ remade = true› hn.1⟩

theorem proceed_fails (h : Fails (proceed m remade error) s e s') : Grown s s' := by
  unfold proceed at h
  split at h
  · refine (keeps_grown (keeps_print _)).fails_bind h fun _ s1 _ h => ?_
    exact exitLater_fails h.of_pure
  · split at h
    · refine (keeps_make m).fails_bind h fun x s1 _ h => ?_
      exact (keeps_when (keeps_grown (keeps_onWorld _)) fun _ =>
        keeps_return (keeps_newBuild m)).of_fails h
    · exact beginGoals_fails h.of_pure

/-! ## Starting a make -/

theorem view_newMake (s : Run) (x : Make) :
    Grown s { s with makes := s.makes ++ [x] } := by
  have hold : ∀ m y, s.view.make m = some y →
      ({ s with makes := s.makes ++ [x] } : Run).view.make m = some y := by
    intro m y hy
    obtain ⟨hlt, -⟩ := List.getElem?_eq_some_iff.1 (show s.makes[m]? = some y from hy)
    exact (getElem?_append_left hlt).trans hy
  refine ⟨rfl, rfl, rfl, rfl, fun _ _ => rfl, fun _ _ h => h, fun m y h => ⟨y, hold m y h, rfl⟩,
    fun hv => ⟨fun b m h => ?_⟩⟩
  obtain ⟨y, hy, hk⟩ := hv.boss b m h
  exact ⟨y, hold m y hy, hk⟩

/-- A make that is started ends at once, or is there and goes on. -/
inductive Started (s s' : Run) (e : ExitTo) : List Frame → Prop
  | quits (code : Int) : Started s s' e [.action (.exit e code)]
  | there {m : Nat} {x : Make} {level : Int} {workdir : Text} {printDir : Bool}
      (new : s.view.make m = none) (known : s'.view.make m = some x) (receiver : x.receiver = e)
      (goals : x.goals = x.arguments.goals) :
      Started s s' e [.action (.proceed m true none), .guard (.start level workdir printDir e)]

theorem startMake_started {args : List Text} {env : Env} {cwd : Text} {e : ExitTo}
    (h : Gives (startMake args env cwd e) s frames s') : Grown s s' ∧ Started s s' e frames := by
  unfold startMake at h
  extract_lets go at h
  have hgo : ∀ {level : Int}, Gives (go level) s frames s' →
      Grown s s' ∧ Started s s' e frames := by
    intro level h
    obtain ⟨⟨o, arguments⟩, s1, h1, h⟩ := h.of_bind
    have g1 := (keeps_grown (holds_readOptions (P := fun _ => Keeps SameView) args env)).of_gives h1
    dsimp -zeta only at h
    split at h
    · obtain ⟨_, h2, rfl⟩ := h.of_pure
      exact ⟨g1.trans ((keeps_grown (keeps_print _)).of_gives h2), .quits 0⟩
    extract_lets flags o workdir usual parsed at h
    obtain ⟨_, s2, h2, h⟩ := h.of_bind
    have g2 := (keeps_grown (keeps_onWorld _)).of_gives h2
    obtain ⟨c, s3, h3, h⟩ := h.of_bind
    have g3 := (keeps_sharedContext _).of_gives h3
    extract_lets fresh look at h
    obtain ⟨s4, e4, h⟩ := h.of_when (keeps_print _)
    have g4 : s.view.Grows s4.view := by
      rw [e4]
      exact g1.trans (g2.trans g3)
    replace h := h.of_get
    dsimp only at h
    split at h
    · obtain ⟨_, h5, rfl⟩ := h.of_pure
      exact ⟨g4.trans ((keeps_grown (keeps_print _)).of_gives h5), .quits 2⟩
    · replace h := h.of_get
      obtain ⟨_, h5, rfl⟩ := h.of_pure
      have g5 := view_newMake s4 fresh
      rw [gives_modify.1 h5] at g5
      refine ⟨g4.trans g5, .there (x := fresh) ?_ ?_ rfl rfl⟩
      · by_contra hne
        obtain ⟨x, hx⟩ := Option.ne_none_iff_exists'.1 hne
        obtain ⟨x', hx', -⟩ := g4.make _ x hx
        simp [view] at hx'
      · rw [← gives_modify.1 h5]
        simp [view]
  split at h
  · obtain ⟨_, s1, h1, h⟩ := h.of_bind
    cases h1
    exact hgo h
  · obtain ⟨_, s1, h1, -⟩ := h.of_bind
    cases h1

end RunM

end Rebuild
