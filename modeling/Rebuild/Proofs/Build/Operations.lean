import Rebuild.Proofs.Build.Composed
import Rebuild.Proofs.Build.View
import Rebuild.Proofs.Loop
import Rebuild.Proofs.Makefile.Recipe
/-!
# The operations on a run, seen in its view

Each small operation that the course of a run is made of, with what it reads from the view and
what it does to it. Reading never changes a view; printing and remarks do not show; work is put,
tasks and jobs are deferred. A task that is deferred reaches the queue only if its context is
there, which is what `View.Wired` tells.
-/

namespace Rebuild

open List

variable {c b m : Nat} {v : View} {s s' : Run} {t : Text} {w : Work} {r : RuleAt}
  {u : Unit} {α : Type}
  {z : α} {R : Run → Run → Prop}

/-! ## Duties of a loop -/

variable {p : Pending Action ExitTo} {k : Bool} {f : RuleWork → RuleWork} (message : Text)

theorem Loop.duties_queue (l : Loop Action ExitTo) (hc : c < l.contexts.length)
    (ps : List (Pending Action ExitTo)) :
    ((l.queue c ps).duties : Multiset Duty) = l.duties + (ps.map Duty.ofPending : List Duty) := by
  have hmore := flatMap_modify_add (g := Context.duties) (e := 0)
    (f := fun x => { x with pending := x.pending ++ ps })
    (d := (ps.map Duty.ofPending : List Duty)) (getElem?_eq_getElem hc) (by
      simp only [Context.duties, map_append, ← Multiset.coe_add]
      ac_rfl)
  rw [add_zero] at hmore
  exact hmore.symm

/-- Every build belongs to a make, and goes on after errors if that was asked of the make. -/
structure View.Wired (v : View) : Prop where
  boss : ∀ b m, v.boss b = some m → ∃ x, v.make m = some x ∧ v.keep b = x.options.keepGoing

namespace View.Wired

variable (h : v.Wired)
include h

theorem put (b : Nat) (t : Text) (w : Work) : (v.put b t w).Wired := ⟨h.boss⟩

theorem restack (stack : List Frame) (queue : Multiset Duty) :
    ({ v with stack := stack, queue := queue } : View).Wired :=
  ⟨h.boss⟩

theorem failIf (b : Nat) (c : Bool) : (v.failIf b c).Wired := by
  cases c <;> exact ⟨h.boss⟩

end View.Wired

namespace RunM

variable {x : Build}

/-! ## Reading -/

theorem gives_build : Gives (build b) s x s' ↔ s.builds[b]? = some x ∧ s = s' := by
  simp only [build, gives_bind, gives_get]
  constructor
  · rintro ⟨_, _, ⟨rfl, rfl⟩, h⟩
    split at h
    · rename_i y hy
      rw [gives_pure] at h
      exact ⟨by rw [hy, h.1], h.2⟩
    · cases h
  · rintro ⟨h, rfl⟩
    exact ⟨s, s, ⟨rfl, rfl⟩, by rw [h]; exact rfl⟩

theorem gives_make {x : Make} : Gives (make m) s x s' ↔ s.view.make m = some x ∧ s = s' := by
  simp only [make, gives_bind, gives_get]
  constructor
  · rintro ⟨_, _, ⟨rfl, rfl⟩, h⟩
    split at h
    · rename_i y hy
      rw [gives_pure] at h
      exact ⟨by rw [← h.1]; exact hy, h.2⟩
    · cases h
  · rintro ⟨h, rfl⟩
    refine ⟨s, s, ⟨rfl, rfl⟩, ?_⟩
    rw [show s.makes[m]? = some x from h]
    exact rfl

theorem boss_isSome (h : s.builds[b]? = some x) : s.view.boss b = some x.make := by
  simp [Run.view, h]

theorem gives_work? {o : Option Work} :
    Gives (work? b t) s o s' ↔ (s.view.boss b).isSome ∧ s.view.work b t = o ∧ s = s' := by
  simp only [work?, gives_bind, gives_build, gives_pure, Run.view, Run.work]
  cases s.builds[b]? <;> simp

theorem boss_of_work (h : s.view.work b t = some w) : (s.view.boss b).isSome := by
  simp only [Run.view, Run.work, Option.bind_eq_some_iff] at h
  obtain ⟨x, hx, -⟩ := h
  simp [Run.view, hx]

theorem gives_work : Gives (work b t) s w s' ↔ s.view.work b t = some w ∧ s = s' := by
  simp only [work, gives_bind, gives_work?]
  constructor
  · rintro ⟨o, s1, ⟨-, ho, rfl⟩, h⟩
    cases o with
    | none => cases h
    | some w' =>
      cases h
      exact ⟨ho, rfl⟩
  · rintro ⟨h, rfl⟩
    exact ⟨some w, s, ⟨boss_of_work h, h, rfl⟩, rfl⟩

theorem gives_ruleWork {x : RuleWork} :
    Gives (ruleWork r) s x s' ↔
      ∃ w, s.view.work r.build r.target = some w ∧ w.rules[r.rule]? = some x ∧ s = s' := by
  simp only [ruleWork, gives_bind, gives_work]
  constructor
  · rintro ⟨w, s1, ⟨hw, rfl⟩, h⟩
    split at h
    · rename_i y hy
      cases h
      exact ⟨w, hw, hy, rfl⟩
    · cases h
  · rintro ⟨w, hw, hx, rfl⟩
    refine ⟨w, s, ⟨hw, rfl⟩, ?_⟩
    rw [hx]
    exact rfl

theorem gives_keepsGoing :
    Gives (keepsGoing b) s k s' ↔ (s.view.boss b).isSome ∧ s.view.keep b = k ∧ s = s' := by
  simp only [keepsGoing, gives_bind, gives_build, gives_pure, Run.view]
  cases s.builds[b]? <;> simp

end RunM

namespace Gives

open RunM

theorem of_build {f : Build → RunM α} (h : Gives (build b >>= f) s z s') :
    ∃ x, s.builds[b]? = some x ∧ Gives (f x) s z s' := h.of_read gives_build.1

theorem of_make {f : Make → RunM α} (h : Gives (make m >>= f) s z s') :
    ∃ x, s.view.make m = some x ∧ Gives (f x) s z s' := h.of_read gives_make.1

theorem of_work {f : Work → RunM α} (h : Gives (work b t >>= f) s z s') :
    ∃ w, s.view.work b t = some w ∧ Gives (f w) s z s' := h.of_read gives_work.1

theorem of_ruleWork {f : RuleWork → RunM α} (h : Gives (ruleWork r >>= f) s z s') :
    ∃ x w, s.view.work r.build r.target = some w ∧ w.rules[r.rule]? = some x ∧
    Gives (f x) s z s' := by
  obtain ⟨x, s1, hx, h⟩ := h.of_bind
  obtain ⟨w, hw, hrule, rfl⟩ := gives_ruleWork.1 hx
  exact ⟨x, w, hw, hrule, h⟩

theorem of_keepsGoing {f : Bool → RunM α} (h : Gives (keepsGoing b >>= f) s z s') :
    ∃ k, (s.view.boss b).isSome ∧ s.view.keep b = k ∧ Gives (f k) s z s' := by
  obtain ⟨k, s1, hk, h⟩ := h.of_bind
  obtain ⟨hb, hkeep, rfl⟩ := gives_keepsGoing.1 hk
  exact ⟨k, hb, hkeep, h⟩

end Gives

namespace RunM

variable {γ : Type}

theorem target_gives {x : Target} (h : Gives (target b t) s x s') :
    ∃ mk, s.makefile? b = some mk ∧ x = mk.targetAt t ∧ s = s' := by
  obtain ⟨y, hb, h⟩ := h.of_build
  cases h
  exact ⟨y.makefile, by simp [Run.makefile?, hb], rfl, rfl⟩

theorem gives_isSerial (h : Gives (isSerial b) s k s') :
    (s.view.boss b).isSome ∧ s.view.serial b = k ∧ s = s' := by
  simp only [isSerial, gives_bind, gives_get, gives_build, gives_pure] at h
  obtain ⟨_, _, ⟨rfl, rfl⟩, x, _, ⟨hx, rfl⟩, rfl, rfl⟩ := h
  refine ⟨by simp [Run.view, hx], ?_, rfl⟩
  simp only [View.serial, Run.view, hx, Option.map_some, Option.elim_some, Loop.context]
  rw [getD_eq_getElem?_getD, getD_eq_getElem?_getD, getElem?_map]
  cases s.loop.contexts[x.context]? <;> rfl

/-! Whatever is kept, reading keeps it. -/

section Reading

variable [IsPreorder Run R]

theorem keeps_build (b : Nat) : Keeps R (build b) := holds_build (P := fun _ => Keeps R) b

theorem keeps_make (m : Nat) : Keeps R (make m) := holds_make (P := fun _ => Keeps R) m

theorem keeps_work? (b : Nat) (t : Text) :
    Keeps R (work? b t) := holds_work? (P := fun _ => Keeps R) b t

theorem keeps_work (b : Nat) (t : Text) :
    Keeps R (work b t) := holds_work (P := fun _ => Keeps R) b t

theorem keeps_ruleWork (r : RuleAt) :
    Keeps R (ruleWork r) := holds_ruleWork (P := fun _ => Keeps R) r

theorem keeps_target (b : Nat) (t : Text) :
    Keeps R (target b t) := holds_target (P := fun _ => Keeps R) b t

theorem keeps_firstNewer (b : Nat) (time : Time) (deps : List (Text × Bool)) :
    Keeps R (firstNewer b time deps) := holds_firstNewer (P := fun _ => Keeps R) b time deps

theorem keeps_need (r : RuleAt) (x : RuleWork) (doubleColon : Bool) :
    Keeps R (need r x doubleColon) := holds_need (P := fun _ => Keeps R) r x doubleColon

end Reading

/-! ## What does not show -/

/-- The view is the same. -/
def SameView (s s' : Run) : Prop := s'.view = s.view

instance : IsPreorder Run SameView where
  refl _ := rfl
  trans _ _ _ h₁ h₂ := h₂.trans h₁

theorem keeps_onWorld (f : World → World) : Keeps SameView (onWorld f) := keeps_modify fun _ => rfl

theorem keeps_print : Keeps SameView (print message) := keeps_onWorld _

theorem keeps_remark : Keeps SameView (remark message) := keeps_onWorld _

/-! ## Builds -/

/-- What is looked up in a changed build. -/
theorem elim_modify (l : List Build) (b b' : Nat) (f : Build → Build) (d : γ) (p : Build → γ)
    (hp : ∀ x, p (f x) = p x) : ((l.modify b f)[b']?).elim d p = (l[b']?).elim d p := by
  rw [getElem?_modify]
  split
  · cases l[b']? with
    | none => rfl
    | some x => exact hp x
  · cases l[b']? <;> rfl

theorem map_modify (l : List α) (b b' : Nat) (f : α → α) (p : α → γ)
    (hp : ∀ x, p (f x) = p x) : ((l.modify b f)[b']?).map p = (l[b']?).map p := by
  rw [getElem?_modify]
  split
  · cases l[b']? with
    | none => rfl
    | some x => exact congrArg some (hp x)
  · cases l[b']? <;> rfl

theorem lookup_cons_eq_ite (p : Text × Work) (rest : List (Text × Work)) (t : Text) :
    (p :: rest).lookup t = if t = p.1 then some p.2 else rest.lookup t := by
  rw [lookup_cons]
  by_cases h : t = p.1
  · simp [h]
  · simp [h, beq_eq_false_iff_ne.2 h]

theorem lookup_putWork (works : List (Text × Work)) (t t' : Text) (w : Work) :
    (putWork t w works).lookup t' = if t' = t then some w else works.lookup t' := by
  induction works with
  | nil => exact lookup_cons_eq_ite ..
  | cons p rest ih =>
    unfold putWork
    by_cases hk : p.1 = t
    · subst hk
      simp only [beq_self_eq_true, if_true, lookup_cons_eq_ite]
      split <;> rfl
    · simp only [beq_eq_false_iff_ne.2 hk, Bool.false_eq_true, if_false, lookup_cons_eq_ite, ih]
      by_cases h : t' = p.1
      · simp [h, hk]
      · simp [h]

theorem setWork_view (h : Gives (setWork b t w) s u s') (hb : (s.view.boss b).isSome) :
    s'.view = s.view.put b t w := by
  rw [← gives_modify.1 h]
  obtain ⟨x, hx⟩ : ∃ x, s.builds[b]? = some x := by
    simpa [Run.view, Option.isSome_iff_exists] using hb
  have hw : ∀ b' t',
      ((s.builds.modify b fun x => { x with works := putWork t w x.works })[b']?).bind
      (fun x => x.works.lookup t') = (s.view.put b t w).work b' t' := by
    intro b' t'
    rw [getElem?_modify]
    by_cases hbb : b = b'
    · subst hbb
      by_cases htt : t' = t
      · subst htt
        rw [View.put_work_self]
        simp [hx, lookup_putWork]
      · rw [View.put_work_of_ne _ _ (by simp [htt])]
        simp [hx, lookup_putWork, htt, Run.view, Run.work]
    · rw [View.put_work_of_ne _ _ (by simp [Ne.symm hbb])]
      simp [hbb, Run.view, Run.work]
  unfold Run.view
  congr 1
  · funext b' t'
    exact hw b' t'
  · funext b'
    exact elim_modify _ _ _ _ _ _ fun _ => rfl
  · funext b'
    exact elim_modify _ _ _ _ _ _ fun _ => rfl
  · funext b'
    exact map_modify _ _ _ _ _ fun _ => rfl
  · funext b'
    exact map_modify _ _ _ _ _ fun _ => rfl

theorem onWork_view {f : Work → Work} (h : Gives (onWork b t f) s u s') :
    ∃ w, s.view.work b t = some w ∧ s'.view = s.view.put b t (f w) := by
  obtain ⟨w, hw, h⟩ := h.of_work
  exact ⟨w, hw, setWork_view h (boss_of_work hw)⟩

theorem onRule_view (h : Gives (onRule r f) s u s') :
    ∃ w, s.view.work r.build r.target = some w ∧
      s'.view = s.view.put r.build r.target (w.onRule r.rule f) :=
  onWork_view h

end RunM

namespace Gives

open RunM

variable {g : Unit → RunM α}

theorem of_onWork {f : Work → Work} (h : Gives (onWork b t f >>= g) s z s') : ∃ w s1,
    s.view.work b t = some w ∧ s1.view = s.view.put b t (f w) ∧ Gives (g ()) s1 z s' := by
  obtain ⟨_, s1, h1, h⟩ := h.of_bind
  obtain ⟨w, hw, e1⟩ := onWork_view h1
  exact ⟨w, s1, hw, e1, h⟩

theorem of_onRule (h : Gives (onRule r f >>= g) s z s') : ∃ w s1,
    s.view.work r.build r.target = some w ∧
      s1.view = s.view.put r.build r.target (w.onRule r.rule f) ∧
      Gives (g ()) s1 z s' := h.of_onWork

/-- Work that is known is changed. -/
theorem of_onWork_at {f : Work → Work} (hw : s.view.work b t = some w)
    (h : Gives (onWork b t f >>= g) s z s') :
    ∃ s1, s1.view = s.view.put b t (f w) ∧ Gives (g ()) s1 z s' := by
  obtain ⟨w', s1, hw', e1, h⟩ := h.of_onWork
  cases hw.symm.trans hw'
  exact ⟨s1, e1, h⟩

theorem of_onRule_at (hw : s.view.work r.build r.target = some w)
    (h : Gives (onRule r f >>= g) s z s') :
    ∃ s1, s1.view = s.view.put r.build r.target (w.onRule r.rule f) ∧ Gives (g ()) s1 z s' :=
  h.of_onWork_at hw

theorem of_onWork_put {f : Work → Work} (e : s.view = v.put b t w)
    (h : Gives (onWork b t f >>= g) s z s') :
    ∃ s1, s1.view = v.put b t (f w) ∧ Gives (g ()) s1 z s' := by
  obtain ⟨s1, e1, h⟩ := h.of_onWork_at (by rw [e, View.put_work_self])
  rw [e, View.put_put] at e1
  exact ⟨s1, e1, h⟩

theorem of_onRule_put (e : s.view = v.put r.build r.target w)
    (h : Gives (onRule r f >>= g) s z s') :
    ∃ s1, s1.view = v.put r.build r.target (w.onRule r.rule f) ∧ Gives (g ()) s1 z s' :=
  h.of_onWork_put e

theorem of_ruleWork_put {k : RuleWork → RunM α}
    (e : s.view = v.put r.build r.target (w.onRule r.rule f))
    (h : Gives (ruleWork r >>= k) s z s') :
    ∃ x, w.rules[r.rule]? = some x ∧ Gives (k (f x)) s z s' := by
  obtain ⟨_, w', hw', hx, h⟩ := h.of_ruleWork
  rw [e, View.put_work_self] at hw'
  cases hw'
  rw [Work.onRule_rule, Option.map_eq_some_iff] at hx
  obtain ⟨x, hx, rfl⟩ := hx
  exact ⟨x, hx, h⟩

end Gives

namespace RunM

/-- A change of a build that keeps what shows of it. -/
theorem view_modify {f : Build → Build} (hw : ∀ x, (f x).works = x.works)
    (hf : ∀ x, (f x).failed = x.failed) (hm : ∀ x, (f x).make = x.make)
    (hc : ∀ x, (f x).context = x.context)
    (hk : ∀ x, s.builds[b]? = some x → (f x).makefile.habits = x.makefile.habits) :
    ({ s with builds := s.builds.modify b f } : Run).view = s.view := by
  unfold Run.view Run.work
  congr 1
  · funext b' t'
    simp only [getElem?_modify]
    split
    · cases s.builds[b']? with
      | none => rfl
      | some x => simp [hw]
    · cases s.builds[b']? <;> rfl
  · funext b'
    exact elim_modify _ _ _ _ _ _ hf
  · funext b'
    simp only [getElem?_modify]
    split
    · rename_i hb
      subst hb
      cases hx : s.builds[b]? with
      | none => rfl
      | some x => simp [hk x hx]
    · cases s.builds[b']? <;> rfl
  · funext b'
    exact map_modify _ _ _ _ _ hm
  · funext b'
    exact map_modify _ _ _ _ _ hc

theorem keeps_noteRemake (b : Nat) {f : Build → Build} (hf : ∀ x, f x =
    { x with included := (f x).included, toRemake := (f x).toRemake, required := (f x).required }) :
    Keeps SameView (onBuild b f) := by
  refine keeps_modify fun s => view_modify ?_ ?_ ?_ ?_ ?_
  all_goals
    intro x
    rw [hf x]
  exact fun _ => rfl

instance : Prints fun _ => Keeps SameView where
  world _ := keeps_onWorld _
  notes := keeps_noteRemake

theorem onMakefile_run (x : MakeM α) {y : Build} (hy : s.builds[b]? = some y) :
    (onMakefile b x).run s = ((x.run ⟨s.world, y.makefile⟩).1, { s with
      world := (x.run ⟨s.world, y.makefile⟩).2.world
      builds := s.builds.modify b fun z =>
        { z with makefile := (x.run ⟨s.world, y.makefile⟩).2.makefile } }) := by
  have hbuild : (build b).run s = (.ok y, s) := gives_build.2 ⟨hy, rfl⟩
  have hget : (get : RunM Run).run s = (.ok s, s) := rfl
  rw [onMakefile, run_bind, hbuild]
  dsimp only
  rw [run_bind, hget]
  dsimp only
  rcases x.run ⟨s.world, y.makefile⟩ with ⟨r, session⟩
  cases r <;> rfl

theorem keeps_onMakefile_of {x : MakeM α} [IsPreorder Run R]
    (b : Nat)
    (hset : ∀ {s : Run} {y : Build}, s.builds[b]? = some y →
      R s { s with
        world := (x.run ⟨s.world, y.makefile⟩).2.world,
        builds := s.builds.modify b fun z =>
          { z with makefile := (x.run ⟨s.world, y.makefile⟩).2.makefile } }) :
    Keeps R (onMakefile b x) := by
  intro s
  cases hy : s.builds[b]? with
  | none =>
    refine keeps_bind_gives (keeps_build b s) fun y _ h => ?_
    cases hy.symm.trans (gives_build.1 h).1
  | some y =>
    rw [onMakefile_run x hy]
    exact hset hy

theorem keeps_onMakefile {x : MakeM α} (hx : Keeps SameHabits x) (b : Nat) :
    Keeps SameView (onMakefile b x) := by
  refine keeps_onMakefile_of b fun {s y} hb => ?_
  refine (view_modify
    (fun _ => rfl)
    (fun _ => rfl) (fun _ => rfl) (fun _ => rfl) fun z hz => ?_)
  rw [← Option.some.inj (hz.symm.trans hb)] at *
  exact hx ⟨s.world, z.makefile⟩

/-! ## Makefiles -/

/-- The makefiles of all builds are the same. -/
def SameMakefiles (s s' : Run) : Prop := s'.makefile? = s.makefile?

instance : IsPreorder Run SameMakefiles where
  refl _ := rfl
  trans _ _ _ h₁ h₂ := h₂.trans h₁

theorem sameMakefiles_print (text : Text) :
    Keeps SameMakefiles (print text) := keeps_modify fun _ => rfl

theorem sameMakefiles_onBuild (b : Nat) {f : Build → Build}
    (hf : ∀ x, (f x).makefile = x.makefile) : Keeps SameMakefiles (onBuild b f) :=
  keeps_modify fun _ => funext fun _ => map_modify _ _ _ _ _ hf

theorem sameMakefiles_onWork (b : Nat) (t : Text) (f : Work → Work) :
    Keeps SameMakefiles (onWork b t f) :=
  keeps_bind (keeps_work b t) fun _ => sameMakefiles_onBuild b fun _ => rfl

theorem run_deferIn (s : Run) :
    s.loop.hasRoom c ∧ Gives (deferIn c p) s () { s with loop := s.loop.queue c [p] } ∨
      ¬ s.loop.hasRoom c ∧ Fails (deferIn c p) s (.breach .assertion) s := by
  by_cases h : s.loop.hasRoom c
  · refine .inl ⟨h, gives_bind.2 ⟨s, s, gives_get.2 ⟨rfl, rfl⟩, ?_⟩⟩
    exact gives_bind.2 ⟨_, s, gives_ofExcept.2 ⟨Loop.defer_of_hasRoom h, rfl⟩, gives_set.2 rfl⟩
  · refine .inr ⟨h, fails_bind.2 (.inr ⟨s, s, gives_get.2 ⟨rfl, rfl⟩, fails_bind.2 (.inl ?_)⟩)⟩
    exact fails_ofExcept.2 ⟨Loop.defer_of_not_hasRoom h, rfl⟩

theorem gives_deferIn : Gives (deferIn c p) s u s' ↔
    s.loop.hasRoom c ∧ s' = { s with loop := s.loop.queue c [p] } := by
  rcases run_deferIn s with ⟨hroom, hg⟩ | ⟨hroom, hf⟩
  · exact ⟨fun h => ⟨hroom, (h.unique hg).2⟩, fun h => h.2 ▸ hg⟩
  · exact ⟨fun h => absurd (h.symm.trans hf) nofun, fun h => absurd h.1 hroom⟩

theorem fails_deferIn {e : Error} :
    Fails (deferIn c p) s e s' ↔ ¬ s.loop.hasRoom c ∧ e = .breach .assertion ∧ s = s' := by
  rcases run_deferIn s with ⟨hroom, hg⟩ | ⟨hroom, hf⟩
  · exact ⟨fun h => absurd (hg.symm.trans h) nofun, fun h => absurd hroom h.1⟩
  · refine ⟨fun h => ?_, fun ⟨_, he, hs⟩ => he ▸ hs ▸ hf⟩
    cases hf.symm.trans h
    exact ⟨hroom, rfl, rfl⟩

/-- The shared context is there or made, unless none can be. -/
theorem run_sharedContext (jobs : Int) (s : Run) :
    Fails (sharedContext jobs) s (.breach .value) s ∨
    (1 ≤ jobs ∨ s.loop.parallel.isSome) ∧
      Gives (sharedContext jobs) s (s.loop.shared jobs).2
        { s with loop := (s.loop.shared jobs).1 } := by
  by_cases hjobs : (jobs < 1 && s.loop.parallel.isNone) = true
  · refine .inl (fails_bind.2 (.inr ⟨s, s, gives_get.2 ⟨rfl, rfl⟩, ?_⟩))
    rw [if_pos hjobs]
    exact fails_throw.2 ⟨rfl, rfl⟩
  · refine .inr ⟨?_, gives_bind.2 ⟨s, s, gives_get.2 ⟨rfl, rfl⟩, ?_⟩⟩
    · rw [Bool.and_eq_true, decide_eq_true_eq, not_and_or, not_lt] at hjobs
      exact hjobs.imp_right fun h => by simpa [Option.isSome_iff_ne_none] using h
    · rw [if_neg hjobs]
      exact gives_bind.2 ⟨(), _, gives_set.2 rfl, gives_pure.2 ⟨rfl, rfl⟩⟩

theorem sameMakefiles_deferIn (c : Nat) (p : Pending Action ExitTo) :
    Keeps SameMakefiles (deferIn c p) := by
  intro s
  rcases run_deferIn s with ⟨-, h⟩ | ⟨-, h⟩ <;>
    rw [show (deferIn c p).run s = _ from h] <;> rfl

theorem sameMakefiles_defer (b : Nat) (a : Action) : Keeps SameMakefiles (defer b a) :=
  keeps_bind (keeps_build b) fun _ => sameMakefiles_deferIn _ _

/-! ## Queues -/

theorem view_queue (hc : c < s.loop.contexts.length) (w : World)
    (ps : List (Pending Action ExitTo)) :
    ({ s with world := w, loop := s.loop.queue c ps } : Run).view = s.view.later
      (ps.map .ofPending) := by
  have hjobs : (s.loop.queue c ps).contexts.map (·.jobs) = s.loop.contexts.map (·.jobs) := by
    apply map_modify_of_eq
    exact fun _ => rfl
  unfold Run.view Run.work View.later
  simp only [hjobs, s.loop.duties_queue hc]

theorem deferIn_view (h : Gives (deferIn c p) s u s') : s'.view = s.view.later [.ofPending p] := by
  obtain ⟨hroom, rfl⟩ := gives_deferIn.1 h
  exact view_queue (Loop.lt_of_hasRoom hroom) s.world [p]

theorem defer_view {a : Action} (h : Gives (defer b a) s u s') :
    (s.view.boss b).isSome ∧ s'.view = s.view.later [.task a] := by
  obtain ⟨x, hb, h⟩ := h.of_build
  refine ⟨by simp [boss_isSome hb], ?_⟩
  rw [deferIn_view h]
  rfl

theorem forM_defer_view {f : α → Action} {l : List α}
    (h : Gives (l.forM fun a => defer b (f a)) s u s') :
    s'.view = s.view.later (l.map fun a => .task (f a)) := by
  induction l generalizing s with
  | nil =>
    rw [← (gives_pure.1 h).2]
    simp
  | cons a rest ih =>
    obtain ⟨_, s1, h1, h⟩ := h.of_bind
    rw [ih h, (defer_view h1).2]
    simp

/-- A failure of a recipe is noted in its build. -/
theorem fail_view (h : Gives (onBuild b fun x => { x with failed := true }) s u s')
    (hb : (s.view.boss b).isSome) : s'.view = s.view.fail b := by
  rw [← gives_modify.1 h]
  obtain ⟨x, hx⟩ : ∃ x, s.builds[b]? = some x := by
    simpa [Run.view, Option.isSome_iff_exists] using hb
  unfold Run.view Run.work View.fail
  congr 1
  · funext b' t'
    simp only [getElem?_modify]
    split
    · cases s.builds[b']? <;> rfl
    · cases s.builds[b']? <;> rfl
  · funext b'
    simp only [getElem?_modify]
    by_cases hbb : b = b'
    · subst hbb
      simp [hx]
    · simp only [if_neg hbb, Function.update_of_ne (Ne.symm hbb)]
      cases s.builds[b']? <;> rfl
  · funext b'
    exact elim_modify _ _ _ _ _ _ fun _ => rfl
  · funext b'
    exact map_modify _ _ _ _ _ fun _ => rfl
  · funext b'
    exact map_modify _ _ _ _ _ fun _ => rfl

end RunM

end Rebuild
