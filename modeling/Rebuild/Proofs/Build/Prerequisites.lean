import Rebuild.Proofs.Build.Sources
/-!
# Prerequisites come first

A recipe is under way from the moment it is begun until its last line has ended. As long as it is,
every prerequisite that is not weak is a target that is over and has not failed
(`Course.prerequisites_made`), however many jobs run at a time, in whatever order they end, and
whether or not the build keeps going after a failure. So the recipe of a rule with a prerequisite
that failed is never started.
-/

namespace Rebuild

open List

/-- A target is over, and has not failed. -/
def Run.Made (s : Run) (b : Nat) (t : Text) : Prop :=
  ∃ w, s.work b t = some w ∧ w.progress = .finished ∧ w.error = false

/-- A thread of the recipe of a rule: it goes on after a line that ended well, or one of its lines
is to be started, waits for a free place or runs. -/
def Thread.isCooking (r : RuleAt) : Thread → Prop
  | .next r' error => r' = r ∧ error = false
  | .command r' _ => r' = r
  | _ => False

/-- The recipe of a rule is under way: this is what is being done, or it waits in a queue, or a job
runs for it. -/
def Run.Cooks (s : Run) (r : RuleAt) : Prop :=
  s.outcome = none ∧ ∃ τ : Thread, τ.isCooking r ∧
    ((∃ a, .action a ∈ s.stack ∧ a.post = .own τ) ∨ ∃ d ∈ s.loop.duties, d.post = .own τ)

variable {s : Run} {h : List Deed} {r : RuleAt} {L : Ledger}

theorem Complete.made {x : RuleWork} (hc : Complete h s.view r x) (he : x.error = false) {d : Text}
    (hd : (d, false) ∈ x.deps) : s.Made r.build d := by
  rcases hc (d, false) hd with ⟨wd, hwd, hf, hminds⟩ | ⟨-, hminds⟩
  · refine ⟨wd, hwd, hf, ?_⟩
    by_contra hne
    have : x.error = true := hminds (by simpa using hne)
    simp [he] at this
  · have : x.error = true := hminds
    simp [he] at this

theorem mem_actions {frames : List Frame} {a : Action} (ha : .action a ∈ frames) :
    a ∈ actions frames := by
  induction frames with
  | nil => cases ha
  | cons f rest ih =>
    rcases mem_cons.1 ha with rfl | hrest
    · exact mem_cons_self
    · cases f with
      | action a' => exact mem_cons_of_mem _ (ih hrest)
      | guard g => exact ih hrest

/-- What is being done, waits in a queue or runs is a thread. -/
theorem Ledger.mem_threads (L : Ledger) {τ : Thread}
    (hτ : (∃ a, .action a ∈ s.stack ∧ a.post = .own τ) ∨ ∃ d ∈ s.loop.duties, d.post = .own τ) :
    τ ∈ (L.posts s.view.stack s.view.queue).map s.view.thread := by
  refine Multiset.mem_map.2 ⟨.own τ, ?_, rfl⟩
  rcases hτ with ⟨a, ha, hp⟩ | ⟨d, hd, hp⟩
  · refine Multiset.mem_add.2 (.inl (Multiset.mem_add.2 (.inl ?_)))
    exact hp ▸ Multiset.mem_coe.2 (mem_map.2 ⟨a, mem_actions ha, rfl⟩)
  · refine Multiset.mem_add.2 (.inl (Multiset.mem_add.2 (.inr ?_)))
    exact hp ▸ Multiset.mem_map.2 ⟨d, Multiset.mem_coe.2 hd, rfl⟩

/-- What is known of a rule whose recipe is under way: its prerequisites are accounted for, and the
lines that are left are among those it was given. -/
theorem Balanced.cooking_lines (hB : Balanced h s.view L) (hr : s.Cooks r) :
    ∃ w x lines, s.work r.build r.target = some w ∧ w.rules[r.rule]? = some x ∧ x.error = false ∧
      Complete h s.view r x ∧ Given h r lines ∧ x.lines ⊆ lines := by
  obtain ⟨b, t, i⟩ := r
  obtain ⟨-, τ, hτ, hpost⟩ := hr
  have hthread := L.mem_threads hpost
  have howner : τ.owner = some (b, t) := by
    cases τ with
    | next => obtain ⟨rfl, -⟩ := hτ; rfl
    | command => obtain rfl : _ = RuleAt.mk b t i := hτ; rfl
    | _ => exact hτ.elim
  obtain ⟨-, w, hw, -, σ, hS, hpurse⟩ := hB.accounts.stages hthread howner
  have hmem := hpurse ▸ mem_purse.2 ⟨hthread, howner⟩
  cases τ with
  | next r' e =>
    obtain ⟨rfl, rfl⟩ := hτ
    obtain ⟨j, x, hx, hok, ⟨⟩, hσ⟩ := hS.of_mem hmem nofun
    rw [hσ] at hok
    obtain ⟨-, he, hcomplete, lines, hgiven, hlines, -⟩ := hok
    exact ⟨w, x, lines, hw, hx, he, hcomplete, hgiven, hlines ▸ subset_append_right _ _⟩
  | command r' line =>
    obtain rfl : r' = ⟨b, t, i⟩ := hτ
    obtain ⟨j, x, hx, hok, ⟨⟩, hσ⟩ := hS.of_mem hmem nofun
    rw [hσ] at hok
    obtain ⟨-, he, hcomplete, lines, hgiven, hlines, -⟩ := hok
    refine ⟨w, x, lines, hw, hx, he, hcomplete, hgiven, fun l hl => ?_⟩
    rw [hlines]
    exact mem_append_right _ (mem_cons_of_mem _ hl)
  | _ => exact hτ.elim

/-- A rule whose recipe runs has all its prerequisites accounted for. -/
theorem Balanced.complete_of_cooks (hB : Balanced h s.view L) (hr : s.Cooks r) :
    ∃ w x lines, s.work r.build r.target = some w ∧ w.rules[r.rule]? = some x ∧ x.error = false ∧
      Complete h s.view r x ∧ Given h r lines := by
  obtain ⟨w, x, lines, hw, hx, he, hcomplete, hgiven, -⟩ := hB.cooking_lines hr
  exact ⟨w, x, lines, hw, hx, he, hcomplete, hgiven⟩

/-- **The prerequisites of a recipe come first.** While the recipe of a rule is under way, every
prerequisite of the rule that is not weak is over and has not failed. These are all those that the
makefile gives to the rule of a double-colon target, or to all rules of any other target. -/
theorem Course.prerequisites_made {w : World} {args : List Text} {env : Env} {cwd : Text}
    (hc : Course (.init w args env cwd) h s) (hr : s.Cooks r) :
    ∃ work x ref mk, s.work r.build r.target = some work ∧ work.rules[r.rule]? = some x ∧
      x.rule = some ref ∧ s.makefile? r.build = some mk ∧ mk.hasCommands ref = true ∧
      ref ∈ (mk.targetAt r.target).rules ∧ (∀ d, (d, false) ∈ x.deps → s.Made r.build d) ∧
      ∀ p ∈ mk.strongPrereqs (mk.targetAt r.target) ref, s.Made r.build (properName p) := by
  have hrun : ¬ s.Broken := Run.not_broken hr.1
  obtain ⟨L, hB⟩ := hc.balanced.resolve_left hrun
  have hS := hc.sourced.resolve_left hrun
  obtain ⟨work, x, lines, hw, hx, he, hcomplete, hgiven⟩ := hB.complete_of_cooks hr
  obtain ⟨work', p, ref, mk, hw', hp, href, hmk, hcommands⟩ := hS.given r lines hgiven
  obtain rfl : work' = work := Option.some.inj (hw'.symm.trans hw)
  have hpx : p = (x.rule, x.deps) := by
    simpa [Work.sources, hx] using hp.symm
  obtain ⟨mk', hmk', hsource⟩ := hS.source hw (mem_of_getElem? hp)
  obtain rfl : mk' = mk := Option.some.inj (hmk'.symm.trans hmk)
  obtain ⟨hmem, hdeps⟩ := hsource.deps ref href hcommands
  rw [hpx] at href hdeps
  exact ⟨work', x, ref, mk', hw, hx, href, hmk, hcommands, hmem,
    fun d hd => hcomplete.made he hd, fun q hq => hcomplete.made he (hdeps q hq)⟩

/-- A makefile with a target `a`, which needs `b`; each has a recipe of one line. -/
def Sample.makefile : Text := "a: b\n\tx\n\nb:\n\ty\n"

/-- A run that is about to make the default target of a makefile, with two jobs at a time. -/
def Sample.start (makefile : Text) : Run :=
  .init (.fresh ⟨[(["w"], .dir (.ofInt 1)),
      (["w", "m"], .file (.ofInt 1) makefile false)], .ofInt 1, .ofInt 1000⟩
    "/w" [("SHELL", "/bin/sh"), ("PATH", "/bin")] [])
    ["-f", "m", "-j2"] [] "/w"

/-- A run that is about to make `a`, with two jobs at a time. -/
def Sample.run : Run := start makefile

/-- Is the recipe of a rule about to go on? -/
def Run.goesOn (s : Run) (r : RuleAt) : Bool :=
  match s.outcome, s.stack with
  | none, .action (.nextLine r' false) :: _ => r' == r
  | _, _ => false

theorem Run.cooks_of_goesOn (hs : s.goesOn r = true) : s.Cooks r := by
  unfold Run.goesOn at hs
  split at hs
  · rename_i r' rest ho hstack
    refine ⟨ho, .next r' false, ⟨by simpa using hs, rfl⟩, .inl ⟨.nextLine r' false, ?_, rfl⟩⟩
    rw [hstack]
    exact mem_cons_self
  · cases hs

/-- When the recipe of `a` is about to begin, `b` is made. -/
theorem prerequisites_made_sample :
    ∃ s, Sample.run.steps Run.allDone 34 = s ∧ s.Cooks ⟨0, "a", 0⟩ ∧
      ∃ work x ref mk, s.work 0 "a" = some work ∧ work.rules[0]? = some x ∧
        x.rule = some ref ∧ s.makefile? 0 = some mk ∧ mk.hasCommands ref = true ∧
        ref ∈ (mk.targetAt "a").rules ∧ (∀ d, (d, false) ∈ x.deps → s.Made 0 d) ∧
        ∀ p ∈ mk.strongPrereqs (mk.targetAt "a") ref, s.Made 0 (properName p) := by
  have hgoes : (Sample.run.steps Run.allDone 34).goesOn ⟨0, "a", 0⟩ = true := by
    decide +kernel
  have hc := (Course.start : Course Sample.run [] Sample.run).steps Run.allDone 34
  refine ⟨_, rfl, ?_⟩
  generalize Sample.run.deeds Run.allDone 34 [] = h at hc
  generalize Sample.run.steps Run.allDone 34 = s at hgoes hc
  have hcooks := Run.cooks_of_goesOn hgoes
  exact ⟨hcooks, Course.prerequisites_made hc hcooks⟩

end Rebuild
