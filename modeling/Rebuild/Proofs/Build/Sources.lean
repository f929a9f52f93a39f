import Rebuild.Proofs.Build.Settle
/-!
# Where rules come from

The rules that a target is worked on with are read off its makefile when it is begun. All through
the run they stay what the makefile says (`Course.sourced`): a rule with a recipe is one of the
rules of the target and has all prerequisites that the makefile wants done before its recipe, and no
rule has a prerequisite that the makefile does not name. A recipe that was started is one that the
makefile has.
-/

namespace Rebuild

/-- A rule with its prerequisites is as the makefile has it for the target. -/
structure Makefile.Source (mk : Makefile) (t : Text) (p : Option RuleRef × List (Text × Bool)) :
    Prop where
  deps : ∀ r, p.1 = some r → mk.hasCommands r = true → r ∈ (mk.targetAt t).rules ∧
    ∀ q ∈ mk.strongPrereqs (mk.targetAt t) r, (properName q, false) ∈ p.2
  only : ∀ d ∈ p.2, ∃ r ∈ (mk.targetAt t).rules, ∃ q ∈ mk.prereqs r, d.1 = properName q

section

variable {mk mk' : Makefile} {t : Text} {p : Option RuleRef × List (Text × Bool)}
  {F : Text → Prop}

theorem Makefile.recipeCount_pos {x : Target} {r : RuleRef} (hr : r ∈ x.rules)
    (hc : mk.hasCommands r = true) : 0 < mk.recipeCount x :=
  List.countP_pos_iff.2 ⟨r, hr, hc⟩

/-- A target is worked on as its makefile has it. Rules that were found for it since are left out,
which cannot be if one of its rules has a recipe. -/
def Makefile.Planned (mk : Makefile) (t : Text)
    (plan : List (Option RuleRef × List (Text × Bool))) : Prop :=
  ∃ rules, mk.Plans rules plan ∧ rules <+: (mk.targetAt t).rules ∧
    ((∃ r ∈ rules, mk.hasCommands r = true) → rules = (mk.targetAt t).rules)

namespace Makefile.Planned

variable {plan : List (Option RuleRef × List (Text × Bool))}

theorem stays (hp : mk.Planned t plan) (h : mk.Stays F (fun _ => False) mk') :
    mk'.Planned t plan := by
  obtain ⟨rules, hplans, hrules, hall⟩ := hp
  refine ⟨rules, hplans.of_same h.same, hrules.trans (h.more t), fun ⟨r, hr, hc⟩ => ?_⟩
  rw [h.hasCommands_eq] at hc
  have e := hall ⟨r, hr, hc⟩
  rw [e, h.rules t (Makefile.recipeCount_pos (e ▸ hr) hc)]

theorem source (h : mk.Planned t plan) (hp : p ∈ plan) : mk.Source t p := by
  obtain ⟨rules, hplans, hrules, hall⟩ := h
  cases hplans with
  | each double =>
    obtain ⟨r, hr, rfl⟩ := List.mem_map.1 hp
    refine ⟨fun r' hr' hc => ?_, fun d hd => ?_⟩
    · cases hr'
      refine ⟨hrules.subset hr, fun q hq => List.mem_map.2 ⟨q, ?_, rfl⟩⟩
      rw [hall ⟨r, hr, hc⟩] at double
      simpa only [Makefile.strongPrereqs, RunM.isDoubleColon_ok.2 double] using hq
    · obtain ⟨q, hq, rfl⟩ := List.mem_map.1 hd
      exact ⟨r, hrules.subset hr, q, hq, rfl⟩
  | @together rule single recipe =>
    cases List.mem_singleton.1 hp
    refine ⟨fun r hr hc => ?_, fun d hd => ?_⟩
    · obtain ⟨hmem, -⟩ := List.mem_filter.1 (recipe ▸ Option.mem_toList.2 hr)
      obtain rfl := hall ⟨r, hmem, hc⟩
      exact ⟨hmem, fun q hq => RunM.strong_mem_gathered (RunM.isDoubleColon_ok.2 single) hq⟩
    · obtain ⟨r, hr, hd⟩ := RunM.mem_gathered.1 hd
      obtain ⟨q, hq, rfl⟩ := List.mem_map.1 hd
      exact ⟨r, hrules.subset hr, q, hq, rfl⟩

end Makefile.Planned

end

/-- The rules of all targets are as the makefiles have them, and the recipes that were started
are those of the makefiles. -/
structure Run.Sourced (h : List Deed) (s : Run) : Prop where
  works : ∀ b t w, s.work b t = some w →
    ∃ mk, s.makefile? b = some mk ∧ mk.finished = true ∧ (w.rules = [] ∨ mk.Planned t w.sources)
  given : ∀ r lines, Given h r lines → ∃ w p ref mk, s.work r.build r.target = some w ∧
    w.sources[r.rule]? = some p ∧ p.1 = some ref ∧ s.makefile? r.build = some mk ∧
    mk.hasCommands ref = true

variable {s s' : Run} {h : List Deed} {r : RuleAt}

/-- The lines of a recipe are read off the makefile of its rule, in which what is known of other
targets has stayed. -/
def RunM.ReadLines (r : RuleAt) (ref : RuleRef) (s s' : Run) : Prop :=
  ∃ s₁ s₂ lines, Run.SettlesBut r.build r.target s s₁ ∧
    Gives (onMakefile r.build (Recipe.lines r.target ref)) s₁ lines s₂ ∧
    Gives (onRule r fun x => { x with lines := lines }) s₂ () s'

/-- A recipe is not run: the rule has none, a loop is avoided, or there is no need. -/
def RunM.Spares (r : RuleAt) (s : Run) : Prop :=
  ∃ w x mk, s.work r.build r.target = some w ∧ w.rules[r.rule]? = some x ∧
  s.makefile? r.build = some mk ∧
    (x.rule.any mk.hasCommands = false ∨ ∃ ref, x.rule = some ref ∧
      ((mk.doubleColon ref && x.deps.isEmpty && x.avoidLoop) = true ∨
        ∃ s₁ s₂, s₁.makefile? = s.makefile? ∧ Gives (need r x (mk.doubleColon ref)) s₁ none s₂))

/-- A recipe is spared, cannot be read, or is started; then it is that of a rule with commands. -/
theorem RunM.runRecipe_cases {as : List Action} (hg : Gives (runRecipe r) s as s') :
    (as = [.recipeDone r.build r.target false] ∧ Spares r s) ∨
    as = [.recipeDone r.build r.target true] ∨
    (as = [.nextLine r false] ∧ ∃ w x ref mk, s.work r.build r.target = some w ∧
      w.rules[r.rule]? = some x ∧ x.rule = some ref ∧ s.makefile? r.build = some mk ∧
      mk.hasCommands ref = true ∧ ReadLines r ref s s') := by
  obtain ⟨x, w, hw, hrule, hg⟩ := hg.of_ruleWork
  extract_lets done go at hg
  split at hg
  · cases hg
  obtain ⟨_, s1, h1, hg⟩ := hg.of_bind
  have e1 : s1.makefile? = s.makefile? := (sameMakefiles_onWork _ _ _).of_gives h1
  obtain ⟨y, hb, hg⟩ := hg.of_build
  have hmk : s.makefile? r.build = some y.makefile := by
    rw [← e1]
    simp [Run.makefile?, hb]
  obtain ⟨w2, -, hg⟩ := hg.of_work
  split at hg
  · rename_i hnone
    obtain ⟨_, s2, -, hg⟩ := hg.of_bind
    refine .inl ⟨(gives_pure.1 hg).1.symm, w, x, _, hw, hrule, hmk, .inl ?_⟩
    cases hx : x.rule with
    | none => rfl
    | some ref => simpa [hx, Option.filter] using hnone
  rename_i ref hcommands
  obtain ⟨href, hcommands⟩ := Option.filter_eq_some_iff.1 hcommands
  extract_lets indent doubleColon subject at hg
  split at hg
  · rename_i hloop
    obtain ⟨_, s2, -, hg⟩ := hg.of_bind
    exact .inl ⟨(gives_pure.1 hg).1.symm, w, x, _, hw, hrule, hmk, .inr ⟨ref, href, .inl hloop⟩⟩
  obtain ⟨why, s2, h2, hg⟩ := hg.of_bind
  cases why with
  | none =>
    exact .inl ⟨(gives_pure.1 hg).1.symm, w, x, _, hw, hrule, hmk,
      .inr ⟨ref, href, .inr ⟨s1, s2, e1, h2⟩⟩⟩
  | some why =>
    obtain ⟨_, s3, h3, hg⟩ := hg.of_bind
    obtain ⟨_, s4, h4, hg⟩ := hg.of_bind
    obtain ⟨_, s5, h5, hg⟩ := hg.of_bind
    obtain ⟨outcome, s6, h6, hg⟩ := hg.of_bind
    cases outcome with
    | none => exact .inr (.inl (gives_pure.1 hg).1.symm)
    | some lines =>
      obtain ⟨_, h7, rfl⟩ := hg.of_pure
      refine .inr
        (.inr ⟨rfl, w, x, ref, _, hw, hrule, href, hmk, hcommands, s5, s6, lines, ?_, ?_, h7⟩)
      · have r1 : Run.SettlesBut r.build r.target s s1 := (frame_onRule r _).of_gives h1
        have r2 : Run.SettlesBut r.build r.target s1 s2 := (keeps_need _ _ _).of_gives h2
        have r3 : Run.SettlesBut r.build r.target s2 s3 := (frame_remark _).of_gives h3
        have r4 : Run.SettlesBut r.build r.target s3 s4 := (handles_settles _ _).remake.of_gives h4
        have hnote : Keeps (Run.SettlesBut r.build r.target)
            (onWork r.build r.target fun w => { w with didAnything := true }) :=
          frame_onWork _ _ fun _ => rfl
        exact r1.trans (r2.trans (r3.trans (r4.trans (hnote.of_gives h5))))
      · rcases gives_tryCatch.1 h6 with h6 | ⟨e, s8, -, h6⟩
        · obtain ⟨_, h8, hlines⟩ := h6.of_pure
          cases hlines
          exact h8
        · split at h6
          · obtain ⟨_, s9, -, h6⟩ := h6.of_bind
            cases h6
          · cases h6

theorem Stepped.begins {rest : List Frame} (hst : Stepped s s') (hb : ¬ s'.Broken)
    (hs : s.stack = .action (.recipe r) :: rest)
    (hhead : s'.stack.head? = some (.action (.nextLine r false))) :
    ∃ w x ref mk s1, s.work r.build r.target = some w ∧ w.rules[r.rule]? = some x ∧
    x.rule = some ref ∧
      s.makefile? r.build = some mk ∧ mk.hasCommands ref = true ∧ RunM.ReadLines r ref s s1 ∧
      s'.work = s1.work := by
  obtain ⟨frames, s1, gives, rfl⟩ := hst.gives hs rfl hb
  obtain ⟨as, h2, rfl⟩ := gives.of_pure
  rcases RunM.runRecipe_cases h2 with ⟨rfl, -⟩ | rfl | ⟨-, w, x, ref, mk, hw, hx, href,
    hmk, hc, hread⟩
  · cases hhead
  · cases hhead
  · exact ⟨w, x, ref, mk, s1, hw, hx, href, hmk, hc, hread, rfl⟩

namespace Run.Sourced

variable {L : Ledger} {o : Option (Nat × Text)}

/-- Nothing is known of the targets of a build whose makefiles are about to be read. -/
theorem unread {b : Nat} {t : Text} {w : Work} (hB : Balanced h s.view L)
    (hw : s.work b t = some w) : ¬ s.Reads b := by
  rintro ⟨m, x, hdoing, hx, rfl⟩
  obtain ⟨-, rest, hs⟩ := Run.doing_eq_some hdoing
  obtain ⟨x', hx', -, hno⟩ := hB.admits (.parse m)
    (by rw [show s.view.stack = _ from hs]; exact List.mem_cons_self)
  cases hx'.symm.trans hx
  exact absurd (hw.symm.trans (hno t)) (Option.some_ne_none w)

/-- A rule that a target is worked on with is as the makefile has it. -/
theorem source {b : Nat} {t : Text} {w : Work} {p : Option RuleRef × List (Text × Bool)}
    (hS : s.Sourced h)
    (hw : s.work b t = some w) (hp : p ∈ w.sources) :
    ∃ mk, s.makefile? b = some mk ∧ mk.Source t p := by
  obtain ⟨mk, hmk, -, hnil | hplanned⟩ := hS.works b t w hw
  · simp [Work.sources, hnil] at hp
  · exact ⟨mk, hmk, hplanned.source hp⟩

section

variable (hS : s.Sourced h) (hB : Balanced h s.view L) (hk : s.Kept s')
  (hs : s.Settles o s.Reads s')
include hS hB hk hs

/-- What is known of rules is kept by a step. -/
theorem kept_works (b : Nat) (t : Text) (w' : Work) (hw' : s'.work b t = some w') :
    ∃ mk, s'.makefile? b = some mk ∧ mk.finished = true ∧
    (w'.rules = [] ∨ mk.Planned t w'.sources) := by
  cases hw : s.work b t with
  | none =>
    obtain ⟨⟨mk, hmk, hf⟩, stack, ρ, avoidLoop, report, rest, hstack, -, hrules⟩ :=
      hk.begun b t w' hw hw'
    have hread : ¬ s.Reads b := by
      rintro ⟨m, x, hdoing, -⟩
      obtain ⟨-, rest', hs'⟩ := doing_eq_some hdoing
      cases hstack.symm.trans hs'
    obtain ⟨mk', hmk', hstays⟩ := hs b mk hread hmk hf
    refine ⟨mk', hmk', by rw [hstays.same]; exact hf, ?_⟩
    rcases hrules with hprep | ⟨hnil, -⟩
    · obtain ⟨mk1, hmk1, hplans⟩ := hprep.plans
      cases hmk1.symm.trans hmk'
      exact .inr ⟨_, hplans, List.prefix_rfl, fun _ => rfl⟩
    · exact .inl hnil
  | some w =>
    obtain ⟨w'', hw'', hplan, -⟩ := hk.work b t w hw
    cases hw''.symm.trans hw'
    obtain ⟨mk, hmk, hf, hplanned⟩ := hS.works b t w hw
    obtain ⟨mk', hmk', hstays⟩ := hs b mk (unread hB hw) hmk hf
    rw [Work.sources_eq hplan, ← List.length_eq_zero_iff, Work.length_eq hplan,
      List.length_eq_zero_iff]
    exact ⟨mk', hmk', by rw [hstays.same]; exact hf, hplanned.imp_right (·.stays hstays)⟩

/-- What is known of a recipe is kept by a step. -/
theorem kept_given
    (hr : ∃ w p ref mk, s.work r.build r.target = some w ∧ w.sources[r.rule]? = some p ∧
      p.1 = some ref ∧ s.makefile? r.build = some mk ∧ mk.hasCommands ref = true) :
    ∃ w p ref mk, s'.work r.build r.target = some w ∧ w.sources[r.rule]? = some p ∧
      p.1 = some ref ∧ s'.makefile? r.build = some mk ∧ mk.hasCommands ref = true := by
  obtain ⟨w, p, ref, mk, hw, hp, href, hmk, hc⟩ := hr
  obtain ⟨w', hw', hplan, -⟩ := hk.work _ _ w hw
  obtain ⟨mk1, hmk1, hf, -⟩ := hS.works _ _ w hw
  obtain rfl : mk1 = mk := Option.some.inj (hmk1.symm.trans hmk)
  obtain ⟨mk', hmk', hstays⟩ := hs _ mk1 (unread hB hw) hmk hf
  exact ⟨w', p, ref, mk', hw', Work.sources_eq hplan ▸ hp, href, hmk',
    by rw [hstays.hasCommands_eq]; exact hc⟩

/-- A step that does no action leaves rules as the makefiles have them. -/
theorem of_idle : s'.Sourced h where
  works := hS.kept_works hB hk hs
  given r lines hg := hS.kept_given hB hk hs (hS.given r lines hg)

end

theorem of_action {a : Action} {rest : List Frame} (hS : s.Sourced h) (hB : Balanced h s.view L)
    (hst : Stepped s s') (hstack : s.stack = .action a :: rest) (hk : s.Kept s') (hb : ¬ s'.Broken)
    (hs : s.Settles o s.Reads s') : s'.Sourced (⟨a, s, s'⟩ :: h) where
  works := hS.kept_works hB hk hs
  given r lines hg := by
    refine hS.kept_given hB hk hs ?_
    obtain ⟨d, hd, hrecipe, hhead, hlines⟩ := hg
    rcases List.mem_cons.1 hd with rfl | hd
    · -- the recipe is started in this very step
      have ha : a = .recipe r := hrecipe
      subst ha
      obtain ⟨w, x, ref, mk, _, hw, hx, href, hmk, hc, -⟩ := hst.begins hb hstack hhead
      exact ⟨w, (x.rule, x.deps), ref, mk, hw, by simp [Work.sources, hx], href, hmk, hc⟩
    · exact hS.given r lines ⟨d, hd, hrecipe, hhead, hlines⟩

end Run.Sourced

/-- **Rules are those of the makefiles**, all through a run that has not ended with an error. -/
theorem Course.sourced {w : World} {args : List Text} {env : Env} {cwd : Text}
    (hc : Course (.init w args env cwd) h s) : s.Broken ∨ s.Sourced h := by
  refine hc.invariant ?_ (fun hS hm hstack => ?_) fun hS hm _ => ?_
  · refine ⟨fun b t w hw => ?_, fun r lines ⟨d, hd, _⟩ => absurd hd List.not_mem_nil⟩
    cases hw
  · obtain ⟨L, hB⟩ := hm.balanced
    exact hS.of_action hB hm.stepped hstack hm.kept hm.runs hm.settles
  · obtain ⟨L, hB⟩ := hm.balanced
    exact hS.of_idle hB hm.kept hm.settles

end Rebuild
