import Rebuild.Proofs.Build.Once
import Rebuild.Proofs.Build.Restart
/-!
# The recipes of a target, in turn

The recipes of one target are never under way at the same time, and they are taken up in the order
of its rules, however many jobs run at a time and in whatever order prerequisites and jobs end
(`Course.recipes_in_turn`). When a recipe is taken up, those of the target that were taken up before
it are over and belong to earlier rules (`Balanced.in_turn`). The rules are those that the makefile
has, in its order (`Makefile.Lists`), and one is left out only for an error, or because its recipe
is spared (`LeftOut`).
-/

namespace Rebuild

open List

variable {τ : Thread} {rest : List Frame} {u : Work}

variable {s s' : Run} {h : List Deed} {d : Deed} {b i j : Nat} {t : Text} {r : RuleAt} {L : Ledger}
  {w : Work} {σ : Nat → Stage} {mk : Makefile} {x : RuleWork} {a : Action}

/-! ## One at a time -/

/-- A thread of the recipe of a rule: the recipe is about to be taken up or to go on, or one of its
lines is to be started, waits for a free place or runs. -/
def Thread.isOf (r : RuleAt) : Thread → Prop
  | .recipe r' | .next r' _ | .command r' _ => r' = r
  | _ => False

/-- The recipe of a rule is under way: it was taken up and is not over, or it has a thread. -/
def Run.UnderWay (h : List Deed) (s : Run) (r : RuleAt) : Prop :=
  (0 < recipeRuns h r ∧ ¬ Over h r) ∨ s.outcome = none ∧ ∃ τ : Thread, τ.isOf r ∧
    ((∃ a, .action a ∈ s.stack ∧ a.post = .own τ) ∨ ∃ d ∈ s.loop.duties, d.post = .own τ)

/-- A recipe that was taken up was so just now, or before. -/
theorem recipeRuns_pos (hr : 0 < recipeRuns (d :: h) r) :
    d.action = .recipe r ∨ 0 < recipeRuns h r := by
  rw [recipeRuns_cons] at hr
  split at hr
  · rename_i hrecipe
    unfold Action.isRecipe at hrecipe
    split at hrecipe
    · rename_i r' ha
      exact .inl (by rw [ha, eq_of_beq hrecipe])
    · cases hrecipe
  · exact .inr hr

theorem Thread.isOf.owner (hτ : τ.isOf r) : τ.owner = some (r.build, r.target) := by
  cases τ with
  | recipe | next | command =>
    obtain rfl : _ = r := hτ
    rfl
  | _ => exact hτ.elim

namespace Stages

theorem one_active (hS : Stages h s.view b t w σ) (hi : i < w.rules.length)
    (hj : j < w.rules.length)
    (hci : (σ i).isActive = true) (hcj : (σ j).isActive = true) : i = j := by
  cases hs : w.serial with
  | true =>
    exact (hS.single hs).one i j hi.le hj.le (Stage.isCurrent_of_isActive hci)
      (Stage.isCurrent_of_isActive hcj)
  | false => exact (hS.several hs).one i j hi hj hci hcj

theorem active_of_mem (hS : Stages h s.view b t w σ) (hτ : τ ∈ w.purse b t σ)
    (hr : τ.isOf ⟨b, t, i⟩) : i < w.rules.length ∧ (σ i).isActive = true := by
  cases τ with
  | recipe | next | command =>
    obtain rfl : _ = RuleAt.mk b t i := hr
    obtain ⟨_, x, hx, -, ⟨⟩, hσ⟩ := hS.of_mem hτ nofun
    exact ⟨(List.getElem?_eq_some_iff.1 hx).1, by rw [hσ]; rfl⟩
  | _ => exact hr.elim

/-- A rule whose recipe was taken up is active, or nothing more happens to it and the recipe is
over. -/
theorem active_of_taken (hS : Stages h s.view b t w σ) (hx : w.rules[i]? = some x)
    (hr : 0 < recipeRuns h ⟨b, t, i⟩) : (σ i).isActive = true ∨ σ i = .out ∧ Over h ⟨b, t, i⟩ := by
  have hok := hS.rule i x hx
  cases hσ : σ i with
  | fresh | gather | ready | closed =>
    rw [hσ] at hok
    exact absurd hok.1.2.2 hr.ne'
  | out =>
    rw [hσ] at hok
    exact .inr ⟨rfl, (hok.1.resolve_right fun hz => hr.ne' hz.1).2⟩
  | _ => exact .inl rfl

end Stages

/-- **A recipe waits for its turn.** When a recipe is taken up, those of the target that were taken
up before are over, and belong to earlier rules. -/
theorem Balanced.in_turn (hB : Balanced h s.view L)
    (hs : s.stack = .action (.recipe ⟨b, t, j⟩) :: rest)
    (hi : ∀ w, s.work b t = some w → i < w.rules.length) (hr : 0 < recipeRuns h ⟨b, t, i⟩) :
    i < j ∧ Over h ⟨b, t, i⟩ := by
  obtain ⟨w, x, σ, hw, hS, hx, hσ⟩ := hB.stage_of_recipe hs
  have hin := hi w hw
  have hjn := of_getElem?_eq_some hx
  have hactive : (σ j).isActive = true := by
    rw [hσ]
    rfl
  have hne : i ≠ j := by
    rintro rfl
    exact hr.ne' (hB.recipeRuns_eq_zero hs)
  rcases hS.active_of_taken (getElem?_eq_getElem hin) hr with hc | ⟨hout, hover⟩
  · exact absurd (hS.one_active hin hjn hc hactive) hne
  · have hle : i ≤ j := hS.past i hin (by rw [hout]; rfl) j (.inr ⟨hjn, hactive⟩)
    exact ⟨lt_of_le_of_ne hle hne, hover⟩

/-! ## The rules of the makefile -/

/-- The rules that a target is worked on with are all that its makefile has for it: none at all,
each of a double-colon target in their order, or for any other target a single one, which has the
recipe if there is any. -/
inductive Makefile.Lists (mk : Makefile) (t : Text) : List (Option RuleRef) → Prop
  | none (empty : (mk.targetAt t).rules = []) : Lists mk t []
  | each (double : mk.isDoubleColon (mk.targetAt t) = .ok true) :
      Lists mk t ((mk.targetAt t).rules.map some)
  | together {rule : Option RuleRef} (single : mk.isDoubleColon (mk.targetAt t) = .ok false)
      (recipe : (mk.targetAt t).rules.filter mk.hasCommands = rule.toList) : Lists mk t [rule]

section

variable {plan : List (Option RuleRef × List (Text × Bool))}

theorem Makefile.Plans.lists (hp : mk.Plans (mk.targetAt t).rules plan) :
    mk.Lists t (plan.map Prod.fst) := by
  cases hp with
  | each double =>
    rw [map_map]
    exact .each (RunM.isDoubleColon_ok.2 double)
  | together single recipe => exact .together (RunM.isDoubleColon_ok.2 single) recipe

/-- The rules of a plan are rules of the target. -/
theorem Makefile.Plans.mem {rules : List RuleRef} {ref : RuleRef} (hp : mk.Plans rules plan)
    (href : some ref ∈ plan.map Prod.fst) : ref ∈ rules := by
  cases hp with
  | each =>
    rw [map_map] at href
    obtain ⟨ref', hmem, ⟨⟩⟩ := mem_map.1 href
    exact hmem
  | together single recipe =>
    obtain rfl := mem_singleton.1 href
    have hmem : ref ∈ rules.filter mk.hasCommands := by
      rw [recipe]
      exact mem_singleton_self ref
    exact (mem_filter.1 hmem).1

/-- A target that is worked on with a recipe has no other rules in its makefile. -/
theorem Makefile.Planned.lists {ref : RuleRef} (hp : mk.Planned t plan)
    (href : some ref ∈ plan.map Prod.fst) (hc : mk.hasCommands ref = true) :
    mk.Lists t (plan.map Prod.fst) := by
  obtain ⟨rules, hplans, -, hall⟩ := hp
  have hwhole := hall ⟨ref, hplans.mem href, hc⟩
  rw [hwhole] at hplans
  exact hplans.lists

end

/-- A target is begun. -/
def Deed.Begins (d : Deed) (b : Nat) (t : Text) : Prop :=
  d.before.work b t = none ∧ (d.after.work b t).isSome

/-- The rules that a target is worked on with are all that its makefile has after a deed; there are
none after an error. -/
def Deed.Lists (d : Deed) (b : Nat) (t : Text) (w : Work) : Prop :=
  (w.rules = [] ∧ w.error = true) ∨
    ∃ mk, d.after.makefile? b = some mk ∧ mk.Lists t (w.rules.map (·.rule))

/-- A target that is begun has all rules of its makefile, or an error. -/
theorem Run.Begins.lists (hb : s.Begins s' b t w) : Deed.Lists ⟨a, s, s'⟩ b t w := by
  obtain ⟨-, stack, ρ, avoidLoop, report, rest, -, -, hprep | ⟨hnil, -, hempty⟩⟩ := hb
  · obtain ⟨mk, hmk, hplans⟩ := hprep.plans
    have hlists := hplans.lists
    rw [map_map] at hlists
    exact .inr ⟨mk, hmk, hlists⟩
  · cases he : w.error with
    | true => exact .inl ⟨hnil, he⟩
    | false =>
      obtain ⟨mk, hmk, hrules⟩ := hempty he
      exact .inr ⟨mk, hmk, by rw [hnil]; exact .none hrules⟩

/-! ## Recipes that are not run -/

/-- A target was asked for as one of the makefiles of its build. -/
def AsMakefile (h : List Deed) (b : Nat) (t : Text) : Prop :=
  ∃ d ∈ h, ∃ stack report, d.action = .make b t stack (.makefiles b) true report

/-- The recipe of a rule was taken up and found not to be wanted: the rule has none, it is up to
date, or it has a double colon and no prerequisites and its target is a makefile, which would be
made anew each time it was read. -/
def Spared (h : List Deed) (r : RuleAt) : Prop :=
  ∃ d ∈ h, d.action = .recipe r ∧
    d.after.stack.head? = some (.action (.recipeDone r.build r.target false)) ∧
    ∃ w x mk, d.before.work r.build r.target = some w ∧ w.rules[r.rule]? = some x ∧
      d.before.makefile? r.build = some mk ∧
      (x.rule.any mk.hasCommands = false ∨ mk.UpToDate r.target x ∨
        x.rule.any mk.doubleColon = true ∧ x.deps = [] ∧ AsMakefile h r.build r.target)

/-- The recipe of a rule was taken up, and could not be read. -/
def Unread (h : List Deed) (r : RuleAt) : Prop :=
  ∃ d ∈ h, d.action = .recipe r ∧
    d.after.stack.head? = some (.action (.recipeDone r.build r.target true))

/-- Why the recipe of a rule of a target is not started. -/
inductive LeftOut (h : List Deed) (s : Run) (r : RuleAt) (w : Work) (x : RuleWork) : Prop
  | error (runs : recipeRuns h r = 0) (why : x.error = true ∨
      s.view.keep r.build = false ∧ (w.error = true ∨ s.view.failed r.build = true))
  | unread (unread : Unread h r)
  | spared (spared : Spared h r)

/-- What is known of the recipes that were taken up, and of the rules of targets. -/
structure Run.Tidy (h : List Deed) (s : Run) : Prop where
  known : ∀ r, 0 < recipeRuns h r → ∃ w, s.work r.build r.target = some w ∧ r.rule < w.rules.length
  taken : ∀ r, 0 < recipeRuns h r → (∃ lines, Given h r lines) ∨ Unread h r ∨ Spared h r
  loops : ∀ b t w, s.work b t = some w → ∀ x ∈ w.rules, x.avoidLoop = true → AsMakefile h b t
  barren : ∀ b t w, s.work b t = some w → w.rules = [] → w.progress = .finished
  begun : ∀ b t w, s.work b t = some w → ∃ d ∈ h, d.Begins b t ∧ d.Lists b t w

theorem Work.rules_eq {α : Type} (f : (Option RuleRef × List (Text × Bool)) × Bool → α)
    (hp : u.plan = w.plan) : (u.rules.map fun x => f ((x.rule, x.deps), x.avoidLoop)) =
      w.rules.map fun x => f ((x.rule, x.deps), x.avoidLoop) := by
  simpa [plan, Function.comp_def] using congrArg (List.map f) hp

namespace Run.Tidy

variable {h' : List Deed}

theorem kept_known (hk : s.Kept s')
    (hr : ∃ w, s.work r.build r.target = some w ∧ r.rule < w.rules.length) :
    ∃ w, s'.work r.build r.target = some w ∧ r.rule < w.rules.length := by
  obtain ⟨w, hw, hlt⟩ := hr
  obtain ⟨w', hw', hplan, -⟩ := hk.work _ _ w hw
  exact ⟨w', hw', hlt.trans_eq (Work.length_eq hplan).symm⟩

section

variable (hT : s.Tidy h) (hk : s.Kept s') {w' : Work} (hw' : s'.work b t = some w')
include hT hk hw'

/-- A target without rules stays over. -/
theorem kept_barren (hnil : w'.rules = []) : w'.progress = .finished := by
  cases hw : s.work b t with
  | none =>
    obtain ⟨-, stack, ρ, avoidLoop, report, rest, -, -, hprep | ⟨-, hf, -⟩⟩ :=
      hk.begun b t w' hw hw'
    · exact absurd hnil hprep.ne_nil
    · exact hf
  | some w =>
    obtain ⟨w'', hw'', hplan, hsame⟩ := hk.work b t w hw
    cases hw''.symm.trans hw'
    have hlen : w.rules.length = 0 := by rw [← Work.length_eq hplan, hnil, length_nil]
    have hf := hT.barren b t w hw (length_eq_zero_iff.1 hlen)
    rw [hsame hf]
    exact hf

variable (hpast : ∀ d ∈ h, d ∈ h')
  (hdone : ∀ a rest, s.stack = .action a :: rest → (⟨a, s, s'⟩ : Deed) ∈ h')
include hpast hdone

/-- A target that avoids loops was asked for as a makefile. -/
theorem kept_loops (x : RuleWork) (hx : x ∈ w'.rules) (hloop : x.avoidLoop = true) :
    AsMakefile h' b t := by
  cases hw : s.work b t with
  | none =>
    obtain ⟨-, stack, ρ, avoidLoop, report, rest, hs, hmakefile, hprep | ⟨hnil, -⟩⟩ :=
      hk.begun b t w' hw hw'
    · obtain ⟨rule, deps, stack', rfl⟩ := hprep.fresh x hx
      obtain rfl : avoidLoop = true := hloop
      obtain rfl := hmakefile rfl
      exact ⟨_, hdone _ _ hs, stack, report, rfl⟩
    · simp [hnil] at hx
  | some w =>
    obtain ⟨w'', hw'', hplan, -⟩ := hk.work b t w hw
    cases hw''.symm.trans hw'
    have hloops : w'.rules.map (·.avoidLoop) = w.rules.map (·.avoidLoop) :=
      Work.rules_eq (·.2) hplan
    obtain ⟨y, hy, e⟩ := mem_map.1 (hloops ▸ mem_map_of_mem hx)
    obtain ⟨d, hd, hmake⟩ := hT.loops b t w hw y hy (e.trans hloop)
    exact ⟨d, hpast d hd, hmake⟩

/-- A target was begun with all rules of its makefile. -/
theorem kept_begun : ∃ d ∈ h', d.Begins b t ∧ d.Lists b t w' := by
  cases hw : s.work b t with
  | none =>
    have hb := hk.begun b t w' hw hw'
    obtain ⟨stack, ρ, avoidLoop, report, rest, hs, -⟩ := hb.asked
    exact ⟨_, hdone _ _ hs, ⟨hw, Option.isSome_iff_exists.2 ⟨w', hw'⟩⟩, hb.lists⟩
  | some w =>
    obtain ⟨w'', hw'', hplan, hsame⟩ := hk.work b t w hw
    cases hw''.symm.trans hw'
    obtain ⟨d, hd, hbegins, hlists⟩ := hT.begun b t w hw
    refine ⟨d, hpast d hd, hbegins, ?_⟩
    rcases hlists with ⟨hnil, he⟩ | ⟨mk, hmk, hlists⟩
    · rw [hsame (hT.barren b t w hw hnil)]
      exact .inl ⟨hnil, he⟩
    · have hrules : w'.rules.map (·.rule) = w.rules.map (·.rule) := Work.rules_eq (·.1.1) hplan
      exact .inr ⟨mk, hmk, hrules ▸ hlists⟩

end

/-- A recipe that is taken up is started, cannot be read or is spared. -/
theorem takes (hT : s.Tidy h) (hm : Move h s s')
    (hs : s.stack = .action (.recipe r) :: rest) :
    (∃ lines, Given (⟨.recipe r, s, s'⟩ :: h) r lines) ∨
      Unread (⟨.recipe r, s, s'⟩ :: h) r ∨ Spared (⟨.recipe r, s, s'⟩ :: h) r := by
  have hkept := hm.kept
  obtain ⟨frames, s1, gives, rfl⟩ := hm.stepped.gives hs rfl hm.runs
  obtain ⟨as, h2, rfl⟩ := gives.of_pure
  rcases RunM.runRecipe_cases h2 with ⟨rfl, w, x, mk, hw, hx, hmk, hwhy⟩ | rfl |
    ⟨rfl, w, x, -, -, hw, hx, -⟩
  · refine .inr (.inr ⟨_, mem_cons_self, rfl, rfl, w, x, mk, hw, hx, hmk, ?_⟩)
    rcases hwhy with hnone | ⟨ref, href, hloop | ⟨s2, s3, e, hneed⟩⟩
    · exact .inl hnone
    · simp only [Bool.and_eq_true, List.isEmpty_iff] at hloop
      obtain ⟨d, hd, hmake⟩ := hT.loops _ _ w hw x (mem_of_getElem? hx) hloop.2
      exact .inr (.inr ⟨by simpa [href] using hloop.1.1, hloop.1.2, d, mem_cons_of_mem _ hd, hmake⟩)
    · exact .inr (.inl ((RunM.need_gives (by rw [e]; exact hmk) href hneed).1 rfl))
  · exact .inr (.inl ⟨_, mem_cons_self, rfl, rfl⟩)
  · obtain ⟨w', hw', hlt⟩ := kept_known hkept ⟨w, hw, (List.getElem?_eq_some_iff.1 hx).1⟩
    exact .inl ⟨_, _, mem_cons_self, rfl, rfl, w', _, hw', getElem?_eq_getElem hlt, rfl⟩

end Run.Tidy

section Courses

variable {world : World} {args : List Text} {env : Env} {cwd : Text}

section

variable (hc : Course (.init world args env cwd) h s)
include hc

/-- **Recipes that were taken up, and rules that were not**, all through a run that has not ended
with an error. -/
theorem Course.tidy : s.Broken ∨ s.Tidy h := by
  refine hc.invariant ?_ (fun {h s s' a rest} hT hm hstack => ?_) fun {h s s'} hT hm hd => ?_
  · refine ⟨fun r hr => absurd hr (lt_irrefl 0), fun r hr => absurd hr (lt_irrefl 0), ?_, ?_, ?_⟩
    all_goals exact fun b t w hw => nomatch hw
  · obtain ⟨L, hB⟩ := hm.balanced
    have hdone : ∀ a' rest', s.stack = .action a' :: rest' →
        (⟨a', s, s'⟩ : Deed) ∈ (⟨a, s, s'⟩ :: h : List Deed) := by
      intro a' rest' hs
      obtain ⟨⟨⟩, -⟩ := List.cons.inj (hs.symm.trans hstack)
      exact mem_cons_self
    have hpast : ∀ d ∈ h, d ∈ (⟨a, s, s'⟩ :: h : List Deed) := fun d => mem_cons_of_mem _
    refine ⟨fun r hr => ?_, fun r hr => ?_, fun b t w hw => hT.kept_loops hm.kept hw hpast hdone,
      fun b t w hw => hT.kept_barren hm.kept hw,
      fun b t w hw => hT.kept_begun hm.kept hw hpast hdone⟩
    · refine Run.Tidy.kept_known hm.kept ?_
      rcases recipeRuns_pos hr with rfl | hr
      · obtain ⟨w, x, σ, hw, -, hx, -⟩ := hB.stage_of_recipe hstack
        exact ⟨w, hw, (List.getElem?_eq_some_iff.1 hx).1⟩
      · exact hT.known r hr
    · rcases recipeRuns_pos hr with rfl | hr
      · exact hT.takes hm hstack
      · rcases hT.taken r hr with ⟨lines, d, hd, hp⟩ | ⟨d, hd, hp⟩ | ⟨d, hd, ha, hhead, w, x, mk,
          hw, hx, hmk, hwhy⟩
        · exact .inl ⟨lines, d, mem_cons_of_mem _ hd, hp⟩
        · exact .inr (.inl ⟨d, mem_cons_of_mem _ hd, hp⟩)
        · refine .inr
            (.inr ⟨d, mem_cons_of_mem _ hd, ha, hhead, w, x, mk, hw, hx, hmk, hwhy.imp_right ?_⟩)
          exact Or.imp_right fun ⟨hdc, hdeps, d', hd', hmake⟩ =>
            ⟨hdc, hdeps, d', mem_cons_of_mem _ hd', hmake⟩
  · have hdone : ∀ a rest, s.stack = .action a :: rest → (⟨a, s, s'⟩ : Deed) ∈ h := by
      intro a rest hs
      simp [Run.doing, hm.goes, hs] at hd
    exact ⟨fun r hr => Run.Tidy.kept_known hm.kept (hT.known r hr), hT.taken,
      fun b t w hw => hT.kept_loops hm.kept hw (fun _ => id) hdone,
      fun b t w hw => hT.kept_barren hm.kept hw,
      fun b t w hw => hT.kept_begun hm.kept hw (fun _ => id) hdone⟩

/-- A run that is about to take up a recipe has done with those of the target that it took up
before. -/
theorem Course.in_turn (ho : s.outcome = none)
    (hs : s.stack = .action (.recipe ⟨b, t, j⟩) :: rest) (hr : 0 < recipeRuns h ⟨b, t, i⟩) :
    i < j ∧ Over h ⟨b, t, i⟩ := by
  obtain ⟨L, hB⟩ := hc.balanced.resolve_left (Run.not_broken ho)
  obtain ⟨w, hw, hlt⟩ := (hc.tidy.resolve_left (Run.not_broken ho)).known _ hr
  refine hB.in_turn hs (fun w' hw' => ?_) hr
  cases hw'.symm.trans hw
  exact hlt

/-- Of the recipes of a target at most one was taken up and is not over. -/
theorem Course.one_taken
    (hi : 0 < recipeRuns h ⟨b, t, i⟩ ∧ ¬ Over h ⟨b, t, i⟩)
    (hj : 0 < recipeRuns h ⟨b, t, j⟩ ∧ ¬ Over h ⟨b, t, j⟩) : i = j := by
  induction hc with
  | start => exact absurd hi.1 (lt_irrefl 0)
  | @act h s a schedule hc doing ih =>
    obtain ⟨ho, rest, hs⟩ := Run.doing_eq_some doing
    have hover : ∀ {r}, ¬ Over (⟨a, s, s.step schedule⟩ :: h) r → ¬ Over h r :=
      fun hn ⟨d, hd, hp⟩ => hn ⟨d, mem_cons_of_mem _ hd, hp⟩
    -- a recipe that is taken up now is the only one that is not over
    have hone : ∀ {i j}, a = .recipe ⟨b, t, j⟩ →
      0 < recipeRuns (⟨a, s, s.step schedule⟩ :: h) ⟨b, t, i⟩ →
        ¬ Over h ⟨b, t, i⟩ → i = j := by
      intro i j ha hr hn
      rcases recipeRuns_pos hr with ha' | hr
      · cases ha.symm.trans ha'
        rfl
      · exact absurd (hc.in_turn ho (ha ▸ hs) hr).2 hn
    rcases recipeRuns_pos hi.1 with ha | hir
    · exact (hone ha hj.1 (hover hj.2)).symm
    · rcases recipeRuns_pos hj.1 with ha | hjr
      · exact hone ha hi.1 (hover hi.2)
      · exact ih ⟨hir, hover hi.2⟩ ⟨hjr, hover hj.2⟩
  | pass _ _ _ ih => exact ih hi hj

theorem Course.one_at_work (ho : s.outcome = none)
    (hτ : τ.isOf ⟨b, t, i⟩)
    (hpost : (∃ a, .action a ∈ s.stack ∧ a.post = .own τ) ∨ ∃ d ∈ s.loop.duties, d.post = .own τ)
    (hj : s.UnderWay h ⟨b, t, j⟩) : i = j := by
  obtain ⟨L, hB⟩ := hc.balanced.resolve_left (Run.not_broken ho)
  have hT := hc.tidy.resolve_left (Run.not_broken ho)
  obtain ⟨-, w, hw, -, σ, hS, hpurse⟩ := hB.accounts.stages (L.mem_threads hpost) hτ.owner
  have hmem : ∀ {k τ}, τ.isOf ⟨b, t, k⟩ →
      ((∃ a, .action a ∈ s.stack ∧ a.post = .own τ) ∨ ∃ d ∈ s.loop.duties, d.post = .own τ) →
      k < w.rules.length ∧ (σ k).isActive = true := by
    intro k τ hτ hpost
    refine hS.active_of_mem ?_ hτ
    rw [Work.purse, ← hpurse]
    exact mem_purse.2 ⟨L.mem_threads hpost, hτ.owner⟩
  obtain ⟨hin, hci⟩ := hmem hτ hpost
  obtain ⟨hjn, hcj⟩ : j < w.rules.length ∧ (σ j).isActive = true := by
    rcases hj with ⟨hr, hn⟩ | ⟨-, τ', hτ', hpost'⟩
    · obtain ⟨w', hw', hlt⟩ := hT.known _ hr
      cases hw'.symm.trans hw
      exact ⟨hlt, (hS.active_of_taken (getElem?_eq_getElem hlt) hr).resolve_right
        fun hout => hn hout.2⟩
    · exact hmem hτ' hpost'
  exact hS.one_active hin hjn hci hcj

end

/-- **The recipes of a target run in turn.** At most one of them is under way; when one is taken up,
those taken up before are over and belong to earlier rules. The rules are all that the makefile has
when the target is begun, in its order, or none after an error, and as long as one has a recipe,
they are all that it has now. Once the target is over, the recipe of each rule was started, or left
out for a reason. -/
theorem Course.recipes_in_turn (hc : Course (.init world args env cwd) h s) (b : Nat) (t : Text) :
    (∀ i j, s.UnderWay h ⟨b, t, i⟩ → s.UnderWay h ⟨b, t, j⟩ → i = j) ∧
    (∀ later d earlier i j, h = later ++ d :: earlier → d.action = .recipe ⟨b, t, j⟩ →
      0 < recipeRuns earlier ⟨b, t, i⟩ → i < j ∧ Over earlier ⟨b, t, i⟩) ∧
    (¬ s.Broken → ∀ w, s.work b t = some w →
      (∃ d ∈ h, d.Begins b t ∧ d.Lists b t w) ∧
      (∃ mk, s.makefile? b = some mk ∧ ∀ ref, some ref ∈ w.rules.map (·.rule) →
        mk.hasCommands ref = true → mk.Lists t (w.rules.map (·.rule))) ∧
      (w.progress = .finished → ∀ i x, w.rules[i]? = some x →
        (∃ lines, Given h ⟨b, t, i⟩ lines) ∨ LeftOut h s ⟨b, t, i⟩ w x)) := by
  refine ⟨fun i j hi hj => ?_, fun later d earlier i j hh hd hr => ?_, fun hrun w hw =>
    ⟨?_, ?_, fun hf i x hx => ?_⟩⟩
  · rcases hi with hi | ⟨ho, τ, hτ, hpost⟩
    · rcases hj with hj | ⟨ho, τ, hτ, hpost⟩
      · exact hc.one_taken hi hj
      · exact (hc.one_at_work ho hτ hpost (.inl hi)).symm
    · exact hc.one_at_work ho hτ hpost hj
  · subst hh
    obtain ⟨hc', hdoing, -⟩ := hc.split
    obtain ⟨ho, rest, hs⟩ := Run.doing_eq_some hdoing
    exact hc'.in_turn ho (hd ▸ hs) hr
  · exact (hc.tidy.resolve_left hrun).begun b t w hw
  · obtain ⟨mk, hmk, -, hplanned⟩ := (hc.sourced.resolve_left hrun).works b t w hw
    refine ⟨mk, hmk, fun ref href hcommands => ?_⟩
    have hsources : w.sources.map Prod.fst = w.rules.map (·.rule) := map_map
    rcases hplanned with hnil | hplanned
    · simp [hnil] at href
    · rw [← hsources] at href ⊢
      exact hplanned.lists href hcommands
  · obtain ⟨L, hB⟩ := hc.balanced.resolve_left hrun
    have hlost : ¬ L.lost b t := by
      intro hl
      obtain ⟨-, -, w', hw', hworking⟩ := hB.accounts.lost b t hl
      cases hw'.symm.trans hw
      cases hworking.symm.trans hf
    rcases hB.accounts.staged b t w hw hlost with ⟨hworking, -⟩ | ⟨-, -, hE⟩
    · cases hworking.symm.trans hf
    rcases hE.runs i x hx with hone | ⟨hzero, hwhy⟩
    · refine ((hc.tidy.resolve_left hrun).taken ⟨b, t, i⟩ (by omega)).imp_right ?_
      exact fun h => h.elim .unread .spared
    · exact .inr (.error hzero hwhy)

end Courses

/-- A recipe that goes on, or has a line that is started, is under way. -/
theorem Run.Cooks.underWay (hr : s.Cooks r) : s.UnderWay h r := by
  obtain ⟨ho, τ, hτ, hpost⟩ := hr
  refine .inr ⟨ho, τ, ?_, hpost⟩
  cases τ with
  | next => exact hτ.1
  | command => exact hτ
  | _ => exact hτ.elim

/-- A makefile with two rules for `a`, of which the first needs `b`. -/
def Sample.doubled : Text := "a:: b\n\tx\n\na::\n\ty\n\nb:\n\tz\n"

/-- While the recipe of the second rule for `a` is under way, that of the first is not, though it
was taken up, and both rules are those that the makefile had when `a` was begun. -/
theorem recipes_in_turn_doubled : ∃ h s, Course (Sample.start Sample.doubled) h s ∧
    s.UnderWay h ⟨0, "a", 1⟩ ∧ recipeRuns h ⟨0, "a", 0⟩ = 1 ∧
    ¬ s.UnderWay h ⟨0, "a", 0⟩ ∧ ∃ w, s.work 0 "a" = some w ∧ w.rules.length = 2 ∧
      ∃ d ∈ h, d.Begins 0 "a" ∧ d.Lists 0 "a" w := by
  obtain ⟨h, s, hc, hgoes, hfirst, hwork⟩ := Course.of_steps (Sample.start Sample.doubled)
    (P := fun h s => s.goesOn ⟨0, "a", 1⟩ = true ∧ recipeRuns h ⟨0, "a", 0⟩ = 1 ∧
      (s.work 0 "a").map (·.rules.length) = some 2) 47 (by decide +kernel)
  obtain ⟨w, hw, hlen⟩ := Option.map_eq_some_iff.1 hwork
  have hcooks := Run.cooks_of_goesOn hgoes
  obtain ⟨hone, -, hrest⟩ := Course.recipes_in_turn hc 0 "a"
  refine ⟨h, s, hc, hcooks.underWay, hfirst, fun hzero => ?_, w, hw, hlen, ?_⟩
  · cases hone 0 1 hzero hcooks.underWay
  · exact (hrest (Run.not_broken hcooks.1) w hw).1

end Rebuild
