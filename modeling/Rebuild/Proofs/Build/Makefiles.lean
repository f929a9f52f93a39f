import Rebuild.Proofs.Build.Frame
/-!
# What a run does to its makefiles

An action works on the makefile of one build at most, or adds a build. So what holds between a
makefile and what becomes of it when something is done for a target (`MakeM.Tends`) holds for all
makefiles of a run in every step (`Run.step_relates`), but for the one that the step reads. New
makefiles are in the same relation to a blank one.
-/

namespace Rebuild

open List

/-- Every makefile is in relation `R` to what becomes of it, and a blank one is to every new one.
Nothing is said of the makefiles of builds in `E`. -/
structure Run.Relates (R : Nat → Makefile → Makefile → Prop) (E : Nat → Prop) (s s' : Run) :
    Prop where
  old : ∀ b mk, ¬ E b → s.makefile? b = some mk → ∃ mk', s'.makefile? b = some mk' ∧ R b mk mk'
  new : ∀ b mk', ¬ E b → s.makefile? b = none → s'.makefile? b = some mk' →
    ∃ cwd c, R b (.blank cwd c) mk'

/-- What is done to a makefile for a target is allowed, its recipe apart. -/
structure MakeM.Tends (R : Makefile → Makefile → Prop) (t : Text) : Prop where
  look : Keeps (fun s s' => R s.makefile s'.makefile) do
    let found ← firstFile [t]
    onTarget t fun x => { x with mtime := some (found.map (·.2)) }
  resolve (stack : List Text) : Keeps (fun s s' => R s.makefile s'.makefile) (resolve t stack false)
  rules (stack : List Text) (avoidLoop : Bool) :
    Keeps (fun s s' => R s.makefile s'.makefile) (RunM.ruleWorks t stack avoidLoop)

/-- What is done to a makefile for a target is allowed. -/
structure MakeM.Handles (R : Makefile → Makefile → Prop) (t : Text) : Prop extends Tends R t where
  remake : Keeps (fun s s' => R s.makefile s'.makefile)
    (onTarget t fun x => { x with found := some t, remade := true })
  lines (rule : RuleRef) : Keeps (fun s s' => R s.makefile s'.makefile) (Recipe.lines t rule)

variable {R : Nat → Makefile → Makefile → Prop} [∀ b, IsPreorder Makefile (R b)] {E : Nat → Prop}
  {s s' : Run} {b m : Nat} {t : Text}

theorem Run.relates_of_makefiles (h : s'.makefile? = s.makefile?) : Run.Relates R E s s' where
  old b mk _ hmk := ⟨mk, by rw [h]; exact hmk, refl_of (R b) mk⟩
  new b mk' _ hnone hmk' := by
    rw [h, hnone] at hmk'
    cases hmk'

theorem Run.makefile?_modify (s : Run) (b : Nat) {f : Build → Build}
    (hf : ∀ x, (f x).makefile = x.makefile) :
    ({ s with builds := s.builds.modify b f } : Run).makefile? = s.makefile? :=
  funext fun b' => RunM.map_modify s.builds b b' f (·.makefile) hf

theorem Run.Relates.trans {s'' : Run} (h1 : Relates R E s s') (h2 : Relates R E s' s'') :
    Relates R E s s'' where
  old b mk hb hmk := by
    obtain ⟨mk', hmk', r1⟩ := h1.old b mk hb hmk
    obtain ⟨mk'', hmk'', r2⟩ := h2.old b mk' hb hmk'
    exact ⟨mk'', hmk'', trans_of (R b) r1 r2⟩
  new b mk'' hb hnone hmk'' := by
    cases h : s'.makefile? b with
    | none => exact h2.new b mk'' hb h hmk''
    | some mk' =>
      obtain ⟨cwd, c, r1⟩ := h1.new b mk' hb hnone h
      obtain ⟨mk2, hmk2, r2⟩ := h2.old b mk' hb h
      cases hmk2.symm.trans hmk''
      exact ⟨cwd, c, trans_of (R b) r1 r2⟩

instance : LoopFrame (Run.Relates R E) where
  refl _ := Run.relates_of_makefiles rfl
  trans _ _ _ := Run.Relates.trans
  world _ _ _ := Run.relates_of_makefiles rfl
  builds s b _ hf := Run.relates_of_makefiles (s.makefile?_modify b fun x => (hf x).1)
  work s b _ _ _ := Run.relates_of_makefiles (s.makefile?_modify b fun _ => rfl)
  makes _ _ _ _ := Run.relates_of_makefiles rfl
  loop _ _ := Run.relates_of_makefiles rfl
  stack _ _ _ := Run.relates_of_makefiles rfl
  outcome _ _ := Run.relates_of_makefiles rfl

namespace RunM

/-- What is done to a makefile leaves the others as they are. -/
theorem relates_onMakefile_at {α : Type} {x : MakeM α} {y : Build} (hy : s.builds[b]? = some y)
    (hx : E b ∨ R b y.makefile (x.run ⟨s.world, y.makefile⟩).2.makefile) :
    Run.Relates R E s ((onMakefile b x).run s).2 := by
  rw [onMakefile_run x hy]
  refine ⟨fun b' mk hb' hmk => ?_, fun b' mk' _ hnone hmk' => ?_⟩
  · simp only [Run.makefile?, getElem?_modify] at hmk ⊢
    by_cases hb : b = b'
    · subst hb
      rw [hy] at hmk ⊢
      cases hmk
      exact ⟨_, rfl, by simpa using hx.resolve_left hb'⟩
    · exact ⟨mk, by simpa [hb] using hmk, refl_of (R b') mk⟩
  · simp [Run.makefile?, getElem?_modify, Option.map_eq_none_iff.1 hnone] at hmk'

theorem relates_onMakefile {α : Type} {x : MakeM α}
    (hx : E b ∨ Keeps (fun s s' => R b s.makefile s'.makefile) x) :
    Keeps (Run.Relates R E) (onMakefile b x) := by
  intro s
  cases hy : s.builds[b]? with
  | none =>
    refine keeps_bind_gives (keeps_build b s) fun y _ h => ?_
    cases hy.symm.trans (gives_build.1 h).1
  | some y => exact relates_onMakefile_at hy (hx.imp_right fun hx => hx ⟨s.world, y.makefile⟩)

theorem tends_relates (h : MakeM.Tends (R b) t) : Tends (Run.Relates R E) b t where
  finish :=
    frame_notifyDone (fun s _ _ => Run.relates_of_makefiles (s.makefile?_modify b fun _ => rfl))
    (relates_onMakefile (.inr h.look))
  resolve stack := relates_onMakefile (.inr (h.resolve stack))
  rules stack avoidLoop := relates_onMakefile (.inr (h.rules stack avoidLoop))

theorem handles_relates (h : MakeM.Handles (R b) t) : Handles (Run.Relates R E) b t where
  toTends := tends_relates h.toTends
  remake := relates_onMakefile (.inr h.remake)
  lines rule := relates_onMakefile (.inr (h.lines rule))

theorem relates_newBuild (hstart : ∀ b w cwd c, R b (.blank cwd c)
      ((MakeM.start c).run ⟨w, .blank cwd c⟩).2.makefile) (m : Nat) :
    Keeps (Run.Relates R E) (newBuild m) := by
  refine keeps_bind (keeps_make m) fun x => fun s => ?_
  refine keeps_bind_get ?_
  extract_lets config c fresh
  have hadd : Run.Relates R E s { s with builds := s.builds ++ [fresh] } := by
    refine ⟨fun b mk _ hmk => ⟨mk, ?_, refl_of (R b) mk⟩, fun b mk' _ hnone hmk' => ?_⟩
    · obtain ⟨y, hy, rfl⟩ := Option.map_eq_some_iff.1 hmk
      have hlt := of_getElem?_eq_some hy
      simp [Run.makefile?, getElem?_append_left hlt, hy]
    · obtain ⟨y, hy, rfl⟩ := Option.map_eq_some_iff.1 hmk'
      have hge := getElem?_eq_none_iff.1 (Option.map_eq_none_iff.1 hnone)
      rw [getElem?_append_right hge] at hy
      rw [mem_singleton.1 (mem_of_getElem? hy)]
      exact ⟨_, _, refl_of (R b) _⟩
  refine keeps_bind_gives hadd fun _ s1 h1 => ?_
  obtain rfl := gives_set.1 h1
  have hfresh : (s.builds ++ [fresh])[c]? = some fresh := by simp [c]
  exact keeps_bind_at (relates_onMakefile_at hfresh (.inr (hstart _ _ _ _))) fun _ =>
    keeps_modify fun _ => Run.relates_of_makefiles rfl

end RunM

namespace Run

/-- The build whose makefiles the next step reads. -/
def Reads (s : Run) (b : Nat) : Prop :=
  ∃ m x, s.doing = some (.parse m) ∧ s.makes[m]? = some x ∧ x.build = b

/-- **What is kept of one makefile is kept of all of them**, in every step, but for the makefile
that the step reads. -/
theorem step_relates (schedule : Schedule) (s : Run)
    (hstart : ∀ b w cwd c, R b (.blank cwd c) ((MakeM.start c).run ⟨w, .blank cwd c⟩).2.makefile)
    (hgoal : ∀ b goal, Keeps (fun s s' => R b s.makefile s'.makefile) (MakeM.mention goal))
    (hown : ∀ b t, s.doing.bind Action.subject = some (b, t) → MakeM.Handles (R b) t) :
    Relates R s.Reads s (s.step schedule) := by
  refine frame_step schedule s (fun a ha => ?_) (frame_turn schedule s fun _ _ =>
    relates_of_makefiles rfl)
  rw [ha] at hown
  refine frame_perform_at (fun b t h => RunM.tends_relates (hown b t h).toTends) (fun r hr => ?_)
    (fun r error _ => RunM.frame_nextLine r error s)
      (fun b goal => RunM.relates_onMakefile (.inr (hgoal b goal)))
    (fun m hm => ?_) (fun m _ _ _ => RunM.relates_newBuild hstart m)
    fun _ _ _ _ _ _ _ _ => relates_of_makefiles rfl
  · exact RunM.frame_runRecipe (RunM.handles_relates (hown _ _ (by rw [hr]; rfl))) s
  · exact RunM.frame_parseMakefiles fun x _ hx =>
      RunM.relates_onMakefile (.inl ⟨m, x, by rw [ha, hm], hx, rfl⟩)

end Run

end Rebuild
