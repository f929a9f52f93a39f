import Rebuild.Proofs.Build.Target
/-!
# Asking for a target

What becomes of a request for a target: one that is done is answered at once, one that is being
worked on keeps the request, and any other is begun. A target that is begun is looked for; one
that cannot be found, or has no rules, is over at once. The rules of any other are as the makefile
has them (`Makefile.Plans`) and are still to be seen to. No target is begun before all is read.
-/

namespace Rebuild

/-- The work on a target whose rules are to be seen to. -/
def Work.begun (ρ : Reply) (serial : Bool) (indent : Text) (rules : List RuleWork) : Work :=
  ⟨.working, [ρ], false, false, serial, indent, rules, List.range rules.length, rules.length, false⟩

/-- The work on a target without rules is over. -/
def Work.barren (error serial : Bool) (indent : Text) : Work :=
  ⟨.finished, [], error, false, serial, indent, [], [], 0, false⟩

/-- What is put into the queue when a target is begun. -/
def Work.firstDuties (b : Nat) (t : Text) (serial : Bool) (n : Nat) : List Duty :=
  if serial then [] else (List.range n).map fun i => .task (.resolve ⟨b, t, i⟩)

/-- All of the makefile of a build was read. -/
def Run.HasRead (s : Run) (b : Nat) : Prop := ∃ mk, s.makefile? b = some mk ∧ mk.finished = true

theorem Run.HasRead.there {s : Run} {b : Nat} (h : s.HasRead b) : (s.view.boss b).isSome := by
  obtain ⟨mk, hmk, -⟩ := h
  obtain ⟨y, hy, -⟩ := Option.map_eq_some_iff.1 hmk
  simp [Run.view, hy]

/-- The rules of a target are as its makefile has them, and not begun. -/
structure Prepared (s : Run) (b : Nat) (t : Text) (avoidLoop : Bool) (rules : List RuleWork) :
    Prop where
  plans : ∃ mk, s.makefile? b = some mk ∧
    mk.Plans (mk.targetAt t).rules (rules.map fun x => (x.rule, x.deps))
  fresh : ∀ x ∈ rules, ∃ rule deps stack, x = RunM.newRuleWork rule deps stack avoidLoop

theorem Prepared.ne_nil {s : Run} {b : Nat} {t : Text} {avoidLoop : Bool} {rules : List RuleWork}
    (h : Prepared s b t avoidLoop rules) : rules ≠ [] := by
  rintro rfl
  obtain ⟨mk, -, hplans⟩ := h.plans
  exact hplans.ne_nil rfl

/-- What becomes of a request for a target, with what is to be done at once. -/
inductive Asked (s s' : Run) (b : Nat) (t : Text) (ρ : Reply) (avoidLoop : Bool) :
    List Action → Prop
  | answered {w : Work} (known : s.view.work b t = some w) (ended : w.progress = .finished)
      (view : s'.view = s.view) : Asked s s' b t ρ avoidLoop [.reply b t ρ w.error w.didAnything]
  | joined {w : Work} (known : s.view.work b t = some w) (working : w.progress = .working)
      (view : s'.view = s.view.put b t { w with replies := w.replies ++ [ρ] }) :
      Asked s s' b t ρ avoidLoop []
  | barren {error serial : Bool} {indent : Text} (new : s.view.work b t = none)
      (read : s.HasRead b)
      (empty : error = false → ∃ mk, s'.makefile? b = some mk ∧ (mk.targetAt t).rules = [])
      (view : s'.view = (s.view.put b t (.barren error serial indent)).later
        [.task (.reply b t ρ error false)]) : Asked s s' b t ρ avoidLoop []
  | begun {serial : Bool} {indent : Text} {rules : List RuleWork} (new : s.view.work b t = none)
      (read : s.HasRead b) (prepared : Prepared s' b t avoidLoop rules)
      (view : s'.view = (s.view.put b t (.begun ρ serial indent rules)).later
        (Work.firstDuties b t serial rules.length)) :
      Asked s s' b t ρ avoidLoop (if serial then [.recipeDone b t false] else [])

namespace RunM

variable {s s' : Run} {b : Nat} {t : Text} {as : List Action} {α : Type} {x : MakeM α} {a : α}
  {stack : List Text} {avoidLoop serial report : Bool} {ρ : Reply}

/-! ## The makefile of a build -/

theorem onMakefile_gives (h : Gives (onMakefile b x) s a s') :
    ∃ y mk, s.builds[b]? = some y ∧ Gives x ⟨s.world, y.makefile⟩ a ⟨s'.world, mk⟩ ∧
      s' = { s with
        world := s'.world
        builds := s.builds.modify b fun y => { y with makefile := mk } } := by
  obtain ⟨y, hy, -⟩ := Gives.of_build h
  obtain ⟨hr, rfl⟩ := Prod.mk.inj ((onMakefile_run x hy).symm.trans h)
  exact ⟨y, (x.run ⟨s.world, y.makefile⟩).2.makefile, hy, Prod.ext hr rfl, rfl⟩

theorem onMakefile_makefile (h : Gives (onMakefile b x) s a s') :
    ∃ mk mk', s.makefile? b = some mk ∧ s'.makefile? b = some mk' ∧
      Gives x ⟨s.world, mk⟩ a ⟨s'.world, mk'⟩ := by
  obtain ⟨y, mk, hy, hx, e⟩ := onMakefile_gives h
  refine ⟨y.makefile, mk, by simp [Run.makefile?, hy], ?_, hx⟩
  rw [e]
  simp [Run.makefile?, hy]

/-- A target is looked for in a makefile of which all was read; anything else ends the run. -/
theorem hasRead_of_resolve {failure : Option Error} (hb : (s.view.boss b).isSome)
    (h : Gives (tryCatch (do onMakefile b (MakeM.resolve t stack false); return none) fun e =>
      if e.isComplaint then return some e else throw e) s failure s') : s.HasRead b := by
  obtain ⟨m, hm⟩ := Option.isSome_iff_exists.1 hb
  obtain ⟨y, hy, -⟩ := Option.map_eq_some_iff.1 hm
  by_contra hno
  have hf : y.makefile.finished = false := by simpa [Run.HasRead, Run.makefile?, hy] using hno
  obtain ⟨k, hfails⟩ := MakeM.resolve_breaks (s := ⟨s.world, y.makefile⟩) hf t stack false
  have hrun := onMakefile_run (MakeM.resolve t stack false) hy
  rw [hfails] at hrun
  rcases gives_tryCatch.1 h with h | ⟨e, s1, he, h⟩
  · obtain ⟨_, h, -⟩ := h.of_pure
    cases h.symm.trans hrun
  · cases he.of_pure.symm.trans hrun
    cases h

/-- The rules of a target are read off the makefile in which they are then found. -/
theorem ruleWorks_prepared {rules : List RuleWork}
    (h : Gives (onMakefile b (ruleWorks t stack avoidLoop)) s rules s') :
    Prepared s' b t avoidLoop rules := by
  obtain ⟨mk, mk', -, hmk', hx⟩ := onMakefile_makefile h
  obtain ⟨hplans, hfresh⟩ := ruleWorks_gives hx
  have hm : Mentions ⟨s.world, mk⟩ ⟨s'.world, mk'⟩ :=
    (keeps_ruleWorks MakeM.keeps_mention_mentions t stack avoidLoop).of_gives hx
  have htarget : mk'.targetAt t = mk.targetAt t := hm.targetAt t
  obtain ⟨names, hsame⟩ := hm
  have hsame : mk' = { mk with targets := mk.targets ++ names.map .new } := hsame
  refine ⟨⟨mk', hmk', ?_⟩, fun x hx => ?_⟩
  · rw [htarget]
    exact hplans.of_same (by rw [hsame])
  · obtain ⟨rule, deps, e⟩ := hfresh x hx
    exact ⟨rule, deps, stack, e⟩

/-- The rules of all targets of a makefile are the same. -/
def SameRulesIn (s s' : Session) : Prop :=
  ∀ n, (s'.makefile.targetAt n).rules = (s.makefile.targetAt n).rules

instance : VariableFrame SameRulesIn where
  refl _ _ := rfl
  trans _ _ _ h₁ h₂ n := (h₂ n).trans (h₁ n)
  world _ _ _ := rfl
  scopes _ _ _ := rfl

/-- The rules of all targets are the same. -/
def SameRules (s s' : Run) : Prop :=
  ∀ b n, (s'.makefile? b).map (fun mk => (mk.targetAt n).rules) =
    (s.makefile? b).map fun mk => (mk.targetAt n).rules

instance : IsPreorder Run SameRules where
  refl _ _ _ := rfl
  trans _ _ _ h₁ h₂ b n := (h₂ b n).trans (h₁ b n)

theorem sameRules_of_sameMakefiles {x : RunM α} (h : Keeps SameMakefiles x) :
    Keeps SameRules x := fun s b n => by rw [show Run.makefile? _ = _ from h s]

theorem sameRules_onMakefile (hx : Keeps SameRulesIn x) (b : Nat) :
    Keeps SameRules (onMakefile b x) := by
  refine keeps_onMakefile_of b fun {s y} hy b' n => ?_
  simp only [Run.makefile?, List.getElem?_modify]
  by_cases hb : b = b'
  · subst hb
    simp only [hy, if_true, Option.map_eq_map, Option.map_some, Option.some.injEq]
    exact hx ⟨s.world, y.makefile⟩ n
  · simp [hb]

/-- The end of a target is noted without regard to rules. -/
theorem sameRules_notifyDone (b : Nat) (t : Text) : Keeps SameRules (notifyDone b t) := by
  have hlook : Keeps SameRules (onMakefile b do
      let found ← MakeM.firstFile [t]
      MakeM.onTarget t fun x => { x with mtime := some (found.map (·.2)) }) := by
    refine sameRules_onMakefile (keeps_bind (MakeM.keeps_firstFile _) fun found => ?_) b
    refine keeps_modify fun s n => ?_
    rcases Makefile.targetAt_mapTarget s.makefile (f := fun x =>
      { x with mtime := some (found.map (·.2)) }) (fun _ => rfl) t n with h | h <;> rw [h]
  refine keeps_bind (keeps_work b t) fun w => keeps_when (keeps_throw _) fun _ => ?_
  refine keeps_bind (keeps_target b t) fun x => keeps_when hlook fun _ => ?_
  exact keeps_bind (sameRules_of_sameMakefiles (sameMakefiles_onWork b t _)) fun _ =>
    keeps_forM fun r => sameRules_of_sameMakefiles (sameMakefiles_defer b _)

/-- The work on a target of which only the file was looked for ends at once. -/
theorem notifyDone_barren {error : Bool} {indent : Text} {u : Unit} {v : View}
    (e : s.view = v.put b t ⟨.working, [ρ], error, false, serial, indent, [], [], 0, false⟩)
    (h : Gives (notifyDone b t) s u s') :
    s'.view = (v.put b t (.barren error serial indent)).later
      [.task (.reply b t ρ error false)] := by
  obtain ⟨w, hw, -, e'⟩ := notifyDone_view h
  rw [e, View.put_work_self] at hw
  cases hw
  rw [e', e, View.put_put]
  rfl

/-- A target that nobody asked for before is begun. -/
theorem beginTarget_asked (hb : (s.view.boss b).isSome)
    (hnew : s.view.work b t = none)
    (h : Gives (beginTarget b t stack ρ avoidLoop report serial) s as s') :
    Asked s s' b t ρ avoidLoop as := by
  obtain ⟨_, s1, h1, hlook⟩ := h.of_bind
  have e1 := setWork_view h1 hb
  obtain ⟨failure, s2, h2, hgo⟩ := hlook.of_bind
  have hread : s.HasRead b := by
    have hmakefiles : s1.makefile? = s.makefile? := (sameMakefiles_onBuild (f := fun x =>
      { x with works := putWork t _ x.works }) b fun _ => rfl).of_gives h1
    have hread := hasRead_of_resolve (by rw [e1]; exact hb) h2
    rwa [Run.HasRead, hmakefiles] at hread
  have hresolve : Keeps SameView (onMakefile b (MakeM.resolve t stack false)) :=
    keeps_onMakefile (MakeM.sameHabits_resolve t stack false) b
  have e2 : s2.view = s1.view := by
    refine (keeps_tryCatch (keeps_return hresolve) fun e => ?_).of_gives
      h2
    split
    · exact keeps_pure _
    · exact keeps_throw _
  cases failure with
  | some e =>
    obtain ⟨s3, e3, h⟩ := hgo.of_when (keeps_print _)
    obtain ⟨s4, e4, h⟩ := h.of_onWork_put ((e3.trans e2).trans e1)
    obtain ⟨_, h5, rfl⟩ := h.of_pure
    have hdone := notifyDone_barren e4 h5
    refine .barren hnew hread ?_ hdone
    nofun
  | none =>
    obtain ⟨x, s3, hx, h⟩ := hgo.of_bind
    obtain ⟨y, hy, hx⟩ := hx.of_build
    cases hx
    have hmk : s2.makefile? b = some y.makefile := by simp [Run.makefile?, hy]
    rw [e1] at e2
    split at h
    · obtain ⟨_, h4, rfl⟩ := h.of_pure
      refine .barren hnew hread (fun _ => ?_) (notifyDone_barren e2 h4)
      have hsame := (sameRules_notifyDone b t).of_gives h4 b t
      rw [hmk] at hsame
      obtain ⟨mk', hmk', hr'⟩ := Option.map_eq_some_iff.1 hsame
      exact ⟨mk', hmk', hr'.trans (List.isEmpty_iff.1 ‹_›)⟩
    obtain ⟨rules, s4, h4, h⟩ := h.of_bind
    obtain ⟨⟨mk', hmk', hplans⟩, hfresh⟩ := ruleWorks_prepared h4
    have e4 : s4.view = s2.view := (keeps_onMakefile
      (keeps_ruleWorks MakeM.keeps_mention t stack avoidLoop).sameHabits b).of_gives h4
    obtain ⟨_, s5, h5, h⟩ := h.of_bind
    obtain ⟨w, hw, e5⟩ := onWork_view h5
    rw [e4, e2, View.put_work_self] at hw
    cases hw
    rw [e4, e2, View.put_put] at e5
    have hbegun : ∀ {s6 : Run}, SameMakefiles s5 s6 →
        s6.view = s5.view.later (Work.firstDuties b t serial rules.length) →
        Asked s s6 b t ρ avoidLoop (if serial then [.recipeDone b t false] else []) := by
      intro s6 hm e6
      have hm4 := (sameMakefiles_onWork b t _).of_gives h5
      refine .begun hnew hread ⟨⟨mk', ?_, hplans⟩, hfresh⟩ (by rw [e6, e5]; rfl)
      rw [hm, hm4]
      exact hmk'
    split at h
    · rename_i hserial
      cases h
      have := hbegun (refl_of _ _) (by simp [Work.firstDuties, hserial])
      simpa [hserial] using this
    · rename_i hserial
      obtain ⟨_, h6, rfl⟩ := h.of_pure
      have := hbegun ((keeps_forM fun i => sameMakefiles_defer b _).of_gives h6)
        (by rw [forM_defer_view h6]; simp [Work.firstDuties, hserial])
      simpa [hserial] using this

theorem makeTarget_asked
    (h : Gives (makeTarget b t stack ρ avoidLoop report) s as s') :
    Asked s s' b t ρ avoidLoop as := by
  obtain ⟨serial, s1, h1, h⟩ := h.of_bind
  obtain ⟨hb, -, rfl⟩ := gives_isSerial h1
  obtain ⟨o, s1, h1, hgo⟩ := h.of_bind
  obtain ⟨-, ho, rfl⟩ := gives_work?.1 h1
  cases o with
  | none => exact beginTarget_asked hb ho hgo
  | some w =>
    dsimp only at hgo
    split at hgo
    · rename_i hp
      cases hgo
      exact .answered ho hp rfl
    · rename_i hp
      split at hgo
      · cases hgo
      · obtain ⟨_, s1, h1, h⟩ := hgo.of_bind
        obtain ⟨w1, hw1, e1⟩ := onWork_view h1
        rw [ho] at hw1
        cases hw1
        cases h
        exact .joined ho hp e1

end RunM

end Rebuild
