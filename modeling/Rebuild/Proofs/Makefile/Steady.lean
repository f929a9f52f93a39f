import Rebuild.Proofs.Makefile.Frame
/-!
# What statements leave alone

Whatever a makefile says, it cannot change how its make behaves: whether it goes on after an error,
is silent, or only prints. Nor do statements look for the files of targets: as long as a makefile is
read, nothing is noted about the file of a target. Nor can they end the reading, or have a rule
searched whose patterns have no stem. Every statement keeps all of this (`Steady`), and so does
reading a whole makefile with all that it includes, at every level.
-/

namespace Rebuild

open List

variable {mk : Makefile} {f : Target → Target} {b : Below}

variable {α : Type} {R : Session → Session → Prop} (name : Text) (p : Pattern) (weak : Bool)
  (path : Text)

/-! ## Targets of a makefile -/

namespace Makefile

theorem target?_mapTarget (hf : ∀ t, (f t).name = t.name) (n t : Text) :
    (mk.mapTarget n f).target? t = (mk.target? t).map fun x => if t = n then f x else x := by
  unfold target? mapTarget
  rw [find?_map]
  have hp : ((fun x : Target => x.name == t) ∘ fun x => if (x.name == n) = true then f x else x)
      = fun x => x.name == t := by
    funext x
    simp only [Function.comp_apply]
    split
    · rw [hf]
    · rfl
  rw [hp]
  cases hx : mk.targets.find? fun x => x.name == t with
  | none => rfl
  | some x =>
    have hn : x.name = t := by simpa using find?_some hx
    simp [hn]

/-- Changing a target changes no other. -/
theorem targetAt_mapTarget_of_ne (hf : ∀ t, (f t).name = t.name) {n t : Text} (h : t ≠ n) :
    (mk.mapTarget n f).targetAt t = mk.targetAt t := by
  unfold targetAt
  rw [target?_mapTarget hf]
  simp [h]

/-- A target that is there is changed, any other is as new as before. -/
theorem targetAt_mapTarget (mk : Makefile) (hf : ∀ t, (f t).name = t.name) (n t : Text) :
    (mk.mapTarget n f).targetAt t = f (mk.targetAt t) ∨
      (mk.mapTarget n f).targetAt t = mk.targetAt t := by
  unfold targetAt
  rw [target?_mapTarget hf]
  cases mk.target? t with
  | none => exact .inr rfl
  | some x =>
    by_cases h : t = n
    · exact .inl (by simp [h])
    · exact .inr (by simp [h])

theorem targetAt_append_new (n t : Text) :
    ({ mk with targets := mk.targets ++ [.new n] } : Makefile).targetAt t = mk.targetAt t := by
  unfold targetAt target?
  rw [find?_append]
  cases ht : mk.targets.find? fun x => x.name == t with
  | some x => rfl
  | none =>
    by_cases hn : n = t
    · subst hn
      simp [Target.new]
    · simp [Target.new, hn]

end Makefile

/-! ## Steady makefiles -/

/-- The same is known about the file of a target. -/
def Target.SameFile (t t' : Target) : Prop :=
  t'.found = t.found ∧ t'.mtime = t.mtime ∧ t'.remade = t.remade

namespace Makefile

variable {mk' : Makefile}

/-- The patterns of the rules that are searched have a stem. -/
def StemRules (mk : Makefile) : Prop :=
  ∀ id ∈ mk.implicit, id < mk.patternRules.length ∧
  ∀ p ∈ (mk.patternRuleAt id).targets, p.isPattern = true

/-- The habits are the same, and whether all was read, and what is known of the files of targets.
The rules that are searched go on having stems. -/
structure Steady (mk mk' : Makefile) : Prop where
  habits : mk'.habits = mk.habits
  finished : mk'.finished = mk.finished
  files : ∀ n, (mk.targetAt n).SameFile (mk'.targetAt n)
  stems : mk.StemRules → mk'.StemRules

/-- All that being steady is about. -/
def basis (mk : Makefile) := (mk.habits, mk.finished, mk.targets, mk.implicit, mk.patternRules)

theorem steady_of_basis (h : mk'.basis = mk.basis) : mk.Steady mk' := by
  simp only [basis, Prod.mk.injEq] at h
  obtain ⟨hhabits, hfinished, htargets, himplicit, hrules⟩ := h
  refine ⟨hhabits, hfinished, fun n => ?_, fun hs => ?_⟩
  · unfold targetAt target?
    rw [htargets]
    exact ⟨rfl, rfl, rfl⟩
  · unfold StemRules patternRuleAt
    rwa [himplicit, hrules]

theorem steady_append_new (mk : Makefile) (name : Text) :
    mk.Steady { mk with targets := mk.targets ++ [.new name] } := by
  refine ⟨rfl, rfl, fun n => ?_, id⟩
  rw [targetAt_append_new]
  exact ⟨rfl, rfl, rfl⟩

theorem steady_mapTarget (mk : Makefile) (name : Text)
    (hn : ∀ t, (f t).name = t.name) (h : ∀ t : Target, t.SameFile (f t)) :
    mk.Steady (mk.mapTarget name f) := by
  refine ⟨rfl, rfl, fun n => ?_, id⟩
  rcases mk.targetAt_mapTarget hn name n with e | e
  · rw [e]
    exact h _
  · rw [e]
    exact ⟨rfl, rfl, rfl⟩

/-- A further pattern rule is none of those that are searched. -/
theorem steady_append_patternRule (mk : Makefile) (r : PatternRule) :
    mk.Steady { mk with patternRules := mk.patternRules ++ [r] } := by
  refine ⟨rfl, rfl, fun _ => ⟨rfl, rfl, rfl⟩, fun hs id hid => ?_⟩
  obtain ⟨hlt, hstem⟩ := hs id hid
  refine ⟨by simpa using Nat.lt_succ_of_lt hlt, ?_⟩
  simpa [patternRuleAt, getElem?_append_left hlt] using hstem

theorem steady_append_implicit {n : Nat} (hn : n < mk.patternRules.length)
    (hstem : ∀ p ∈ (mk.patternRuleAt n).targets, p.isPattern = true) :
    mk.Steady { mk with implicit := mk.implicit ++ [n] } := by
  refine ⟨rfl, rfl, fun _ => ⟨rfl, rfl, rfl⟩, fun hs id hid => ?_⟩
  rcases mem_append.1 hid with hid | hid
  · exact hs id hid
  · cases mem_singleton.1 hid
    exact ⟨hn, hstem⟩

theorem steady_addPatternCommand (mk : Makefile) (n : Nat) (e : Expansion) :
    mk.Steady (mk.addPatternCommand n e) := by
  refine ⟨rfl, rfl, fun _ => ⟨rfl, rfl, rfl⟩, fun hs id hid => ?_⟩
  obtain ⟨hlt, hstem⟩ := hs id hid
  refine ⟨by simpa [addPatternCommand] using hlt, ?_⟩
  simp only [patternRuleAt, addPatternCommand, getD_eq_getElem?_getD, getElem?_modify,
    getElem?_eq_getElem hlt, Option.map_eq_map, Option.map_some, Option.getD_some] at hstem ⊢
  split <;> exact hstem

end Makefile

/-- The makefile of a session is kept steady. -/
def Steady (s s' : Session) : Prop := s.makefile.Steady s'.makefile

instance : VariableFrame Steady where
  refl _ := Makefile.steady_of_basis rfl
  trans _ _ _ h₁ h₂ := by
    refine ⟨h₂.habits.trans h₁.habits, h₂.finished.trans h₁.finished,
      fun n => ?_, h₂.stems ∘ h₁.stems⟩
    obtain ⟨a₁, b₁, c₁⟩ := h₁.files n
    obtain ⟨a₂, b₂, c₂⟩ := h₂.files n
    exact ⟨a₂.trans a₁, b₂.trans b₁, c₂.trans c₁⟩
  world _ _ := Makefile.steady_of_basis rfl
  scopes _ _ := Makefile.steady_of_basis rfl

/-- The habits of the makefile are the same. -/
def SameHabits (s s' : Session) : Prop := s'.makefile.habits = s.makefile.habits

instance : VariableFrame SameHabits where
  refl _ := rfl
  trans _ _ _ h₁ h₂ := h₂.trans h₁
  world _ _ := rfl
  scopes _ _ := rfl

theorem Keeps.sameHabits {x : MakeM α} (h : Keeps Steady x) : Keeps SameHabits x :=
  fun s => (h s).habits

namespace MakeM

theorem keeps_update {f : Makefile → Makefile} (h : ∀ mk : Makefile, mk.Steady (f mk)) :
    Keeps Steady (update f) :=
  keeps_modify fun s => h s.makefile

theorem keeps_elsewhere {f : Makefile → Makefile} (h : ∀ mk, (f mk).basis = mk.basis) :
    Keeps Steady (update f) :=
  keeps_update fun mk => Makefile.steady_of_basis (h mk)

theorem keeps_onTarget (hn : ∀ t, (f t).name = t.name)
    (h : ∀ t : Target, t.SameFile (f t)) : Keeps Steady (onTarget name f) :=
  keeps_update fun mk => mk.steady_mapTarget name hn h

/-- Mentioning a target does nothing but to add it. -/
theorem keeps_mention_of [IsPreorder Session R]
    (h : ∀ s name, R s { s with makefile.targets := s.makefile.targets ++ [.new name] })
    (name : Text) : Keeps R (mention name) := by
  unfold mention
  dsimp only
  split
  · exact keeps_throw _
  split
  · exact keeps_throw _
  refine keeps_bind (keeps_return keeps_get) fun mk => ?_
  split
  · exact keeps_return (keeps_modify fun s => h s _)
  · exact keeps_pure _

theorem keeps_mention : Keeps Steady (mention name) :=
  keeps_mention_of (fun s n => s.makefile.steady_append_new n) name

theorem keeps_newRule (r : Rule) : Keeps Steady (newRule r) :=
  keeps_bind keeps_makefile fun _ => keeps_return (keeps_elsewhere fun _ => rfl)

theorem keeps_newPatternRule (r : PatternRule) : Keeps Steady (newPatternRule r) :=
  keeps_bind keeps_makefile fun _ =>
    keeps_return (keeps_update fun mk => mk.steady_append_patternRule r)

theorem keeps_addRule (r : RuleRef) : Keeps Steady (addRule name r) := by
  refine keeps_bind keeps_makefile fun mk => ?_
  extract_lets t add check
  have hadd : ∀ u, Keeps Steady (add u) :=
    fun _ => keeps_onTarget _ (fun _ => rfl) fun _ => ⟨rfl, rfl, rfl⟩
  have hcheck : ∀ u, Keeps Steady (check u) := by
    intro u
    unfold check
    split
    · split
      · split
        · exact keeps_bind (keeps_throw _) hadd
        · exact hadd ()
      · exact keeps_bind (keeps_throw _) hadd
    · exact hadd ()
  split
  · split
    · exact keeps_bind (keeps_throw _) hcheck
    · exact hcheck ()
  · exact hcheck ()

theorem keeps_foundTarget : Keeps Steady (foundTarget name) := by
  refine keeps_bind (keeps_onScopes _) fun goal => keeps_bind keeps_makefile fun mk => ?_
  split
  · exact keeps_bind (keeps_elsewhere fun _ => rfl) fun _ => keeps_onScopes _
  · exact keeps_pure _

theorem keeps_patternScope : Keeps Steady (patternScope p) := by
  refine keeps_bind keeps_makefile fun mk => ?_
  split
  · exact keeps_return (keeps_elsewhere fun _ => rfl)
  · exact keeps_pure _

end MakeM

namespace Execute

open MakeM

theorem keeps_wildcard : Keeps Steady (wildcard name) := by
  unfold wildcard
  split
  · refine keeps_bind keeps_world fun w => keeps_bind keeps_makefile fun mk => ?_
    split
    · exact keeps_pure _
    · exact keeps_throw _
  · exact keeps_pure _

theorem keeps_addToTargets (id : Nat) (targets : List Text) :
    Keeps Steady (addToTargets id targets) :=
  keeps_forM fun t => keeps_bind (keeps_mention t) fun name => keeps_addRule name _

theorem keeps_command (current : CurrentRule) (e : Expansion) :
    Keeps Steady (command weak current e) := by
  cases current with
  | unset => exact keeps_throw _
  | dropped =>
    cases weak with
    | true => exact keeps_throw _
    | false => exact keeps_pure _
  | named n =>
    cases weak with
    | true => exact keeps_throw _
    | false => exact keeps_elsewhere (f := (·.addCommand n e)) fun _ => rfl
  | pattern n =>
    cases weak with
    | true => exact keeps_throw _
    | false => exact keeps_update fun mk => mk.steady_addPatternCommand n e

theorem keeps_tableOf : Keeps Steady (tableOf p) := by
  unfold tableOf
  split
  · exact keeps_patternScope p
  · refine keeps_bind (keeps_ofExcept _) fun t => ?_
    exact keeps_return (keeps_mention t)

theorem keeps_clearSearch : Keeps Steady clearSearch := by
  refine keeps_bind keeps_makefile fun mk => ?_
  split
  · exact keeps_pure _
  · exact keeps_throw _
  · exact keeps_throw _

theorem keeps_setExport (names : List Text) (yes : Bool) : Keeps Steady (setExport names yes) :=
  keeps_forM fun _ => keeps_elsewhere fun _ => rfl

theorem keeps_listMakefile : Keeps Steady (listMakefile path) := by
  refine keeps_bind (keeps_onScopes _) fun r => ?_
  split
  · exact keeps_pure _
  · exact keeps_onScopes _
  · exact keeps_throw _

theorem keeps_includeFile (hx : ∀ weak stmts, Keeps Steady (b.execute weak stmts))
    (path : Text) (required weak : Bool) :
    Keeps Steady (includeFile b path required weak) := by
  unfold includeFile
  by_cases hm : Glob.hasMagic path = true
  · simp only [hm, if_true]
    exact keeps_throw _
  simp only [hm]
  refine keeps_bind (keeps_elsewhere fun _ => rfl) fun _ => keeps_bind keeps_makefile fun mk => ?_
  refine keeps_bind keeps_world fun w => ?_
  split
  · refine keeps_bind (keeps_act _) fun stmts => keeps_bind (keeps_listMakefile path) fun _ => ?_
    refine keeps_bind (hx weak stmts) fun _ => keeps_bind (keeps_mention path) fun name => ?_
    exact keeps_onTarget _ (fun _ => rfl) fun _ => ⟨rfl, rfl, rfl⟩
  · exact keeps_pure _

variable (hb : b.KeepsFrame Steady)

include hb

theorem keeps_value (e : Expansion) : Keeps Steady (value b e) := Evaluate.keeps_expansion hb _ _ e

theorem keeps_words (e : Expansion) : Keeps Steady (words b e) := keeps_return (keeps_value hb e)

theorem keeps_names (e : Expansion) : Keeps Steady (names b e) := keeps_return (keeps_words hb e)

theorem keeps_weakRule (targets deps : Expansion) (dc : Bool) (current : CurrentRule) :
    Keeps Steady (weakRule b targets deps dc current) := by
  refine keeps_bind (keeps_words hb deps) fun ds => ?_
  split
  · exact keeps_pure _
  refine keeps_bind (keeps_names hb targets) fun ts => keeps_bind (keeps_newRule _) fun id => ?_
  refine keeps_return (keeps_forM fun t => ?_)
  refine keeps_bind (keeps_mention t) fun name => ?_
  exact keeps_bind (keeps_addRule name _) fun _ => keeps_foundTarget t

theorem keeps_rule (targets deps : Expansion) (dc : Bool) :
    Keeps Steady (rule b targets deps dc) := by
  refine keeps_bind (keeps_names hb targets) fun ts => ?_
  refine keeps_bind (keeps_mapM fun t => keeps_bind (keeps_wildcard t) fun files =>
    keeps_mapM fun f => keeps_ofExcept _) fun patterns => ?_
  dsimp only
  split
  · exact keeps_pure _
  split
  · exact keeps_throw _
  rename_i first rest _ hmixed
  refine keeps_bind (keeps_names hb deps) fun ds => ?_
  refine keeps_bind (keeps_mapM keeps_wildcard) fun ds => ?_
  split
  · rename_i hfirst
    refine keeps_bind (keeps_mapM fun d => keeps_ofExcept _) fun prereqs s => ?_
    refine keeps_bind_gives (keeps_newPatternRule _ s) fun n s1 hn => ?_
    cases hn
    refine keeps_bind_gives (Makefile.steady_append_implicit (by simp) ?_)
      fun _ _ _ => keeps_pure _ _
    simpa [Makefile.patternRuleAt, hfirst] using hmixed
  · refine keeps_bind (keeps_newRule _) fun id => ?_
    refine keeps_bind (keeps_mapM fun p => keeps_ofExcept _) fun ts => ?_
    refine keeps_bind (keeps_addToTargets id ts) fun _ => ?_
    exact keeps_return (keeps_foundTarget _)

theorem keeps_staticRule (targets pattern deps : Expansion) (dc : Bool) :
    Keeps Steady (staticRule b targets pattern deps dc) := by
  refine keeps_bind (keeps_names hb targets) fun ts => ?_
  refine keeps_bind (keeps_mapM keeps_wildcard) fun ts => ?_
  dsimp only
  split
  · exact keeps_pure _
  refine keeps_bind (keeps_names hb pattern) fun ps => ?_
  split
  · refine keeps_bind (keeps_ofExcept _) fun p => keeps_bind (keeps_names hb deps) fun ds => ?_
    refine keeps_bind (keeps_mapM fun d => keeps_bind (keeps_wildcard d) fun files =>
      keeps_mapM fun f => keeps_ofExcept _) fun prereqs => ?_
    refine keeps_bind (keeps_newPatternRule _) fun id => ?_
    refine keeps_bind (keeps_forM fun t => ?_) fun _ =>
      keeps_return (keeps_foundTarget _)
    refine keeps_bind (keeps_ofExcept _) fun q => ?_
    split
    · exact keeps_throw _
    split
    · exact keeps_throw _
    · exact keeps_bind (keeps_mention t) fun name => keeps_addRule name _
  · exact keeps_throw _

theorem keeps_append (k : ScopeName) (name : Text) (origin : Origin) (value : Text) :
    Keeps Steady (append b k name origin value) := by
  refine keeps_bind (keeps_onScopes _) fun r => ?_
  cases r with
  | done => exact keeps_pure _
  | evaluate old e =>
    exact keeps_bind (Evaluate.keeps_expansion hb _ _ e) fun _ => keeps_onScopes _

theorem keeps_assignIn (a : Assignment) (name : Text) (k : ScopeName) :
    Keeps Steady (assignIn b a name k) := by
  unfold assignIn
  split
  · exact keeps_append hb _ _ _ _
  · refine keeps_bind keeps_makefile fun mk => ?_
    split
    · exact keeps_onScopes _
    · exact keeps_pure _
  · exact keeps_onScopes _
  · refine keeps_bind (keeps_reading _) fun e => ?_
    exact keeps_bind (keeps_value hb e) fun _ => keeps_onScopes _

theorem keeps_assign (a : Assignment) : Keeps Steady (assign b a) := by
  have hin (name : Text) (tables : List ScopeName) :
      Keeps Steady (tables.forM (assignIn b a name)) :=
    keeps_forM fun k => keeps_assignIn hb a name k
  refine keeps_bind (keeps_value hb _) fun name => ?_
  dsimp only
  split
  · exact keeps_throw _
  split
  · exact hin name _
  · refine keeps_bind (keeps_names hb _) fun ts => ?_
    refine keeps_bind (keeps_mapM fun t => keeps_ofExcept _) fun ps => ?_
    exact keeps_bind (keeps_mapM keeps_tableOf) fun tables => hin name tables

theorem keeps_condition (c : Condition) : Keeps Steady (condition b c) := by
  cases c with
  | equal loc l r expected =>
    exact keeps_bind (keeps_value hb l) fun _ => keeps_return (keeps_value hb r)
  | defined loc e expected =>
    refine keeps_bind (keeps_value hb e) fun name => keeps_bind keeps_makefile fun mk => ?_
    split <;> exact keeps_pure _
  | otherwise loc => exact keeps_pure _

theorem keeps_vpath (e : Expansion) : Keeps Steady (vpath b e) := by
  refine keeps_bind (keeps_names hb e) fun ns => ?_
  split
  · exact keeps_elsewhere fun _ => rfl
  · refine keeps_bind (keeps_ofExcept _) fun p => ?_
    split
    · exact keeps_clearSearch
    · dsimp only
      split
      · exact keeps_elsewhere fun _ => rfl
      · exact keeps_pure _

variable (hx : ∀ weak stmts, Keeps Steady (b.execute weak stmts))

include hx

set_option linter.unusedSectionVars false

mutual

theorem keeps_statement (weak : Bool) (current : CurrentRule) :
    ∀ s, Keeps Steady (statement b weak current s)
  | .rule ts ds dc => by
    unfold statement
    split
    · exact keeps_weakRule hb ts ds dc current
    · exact keeps_rule hb ts ds dc
  | .staticRule ts p ds dc => by
    unfold statement
    split
    · exact keeps_throw _
    · exact keeps_staticRule hb ts p ds dc
  | .command e => keeps_return (keeps_command weak current e)
  | .assign a => keeps_return (keeps_assign hb a)
  | .block loc gs _ => keeps_groups weak current loc 0 gs
  | .includes e required weakly =>
    keeps_bind (keeps_words hb e) fun _ =>
      keeps_return (keeps_forM fun f => keeps_includeFile hx f required weakly)
  | .vpath e => keeps_return (keeps_vpath hb e)
  | .exports e assigned => by
    unfold statement
    split
    · exact keeps_bind (keeps_value hb e) fun _ =>
        keeps_return (keeps_setExport _ _)
    · refine keeps_bind (keeps_words hb e) fun ns => ?_
      split
      · exact keeps_throw _
      · exact keeps_return (keeps_setExport _ _)
  | .unexports e =>
    keeps_bind (keeps_words hb e) fun _ => keeps_return (keeps_setExport _ _)
  | .empty e => by
    refine keeps_bind (keeps_value hb e) fun s => ?_
    split
    · exact keeps_throw _
    · exact keeps_pure _

theorem keeps_groups (weak : Bool) (current : CurrentRule) (loc : Location) (i : Nat) :
    ∀ gs, Keeps Steady (groups b weak current loc i gs)
  | [] => keeps_pure _
  | .mk c body :: rest => by
    refine keeps_bind (keeps_condition hb c) fun yes => ?_
    split
    · exact keeps_bind (keeps_log _ _) fun _ => keeps_statements weak current body
    · exact keeps_groups weak current loc (i + 1) rest

theorem keeps_statements (weak : Bool) (current : CurrentRule) :
    ∀ ss, Keeps Steady (statements b weak current ss)
  | [] => keeps_pure _
  | s :: rest =>
    keeps_bind (keeps_statement weak current s) fun current => keeps_statements weak current rest

end

end Execute

namespace Below

/-- `eval` keeps what statements one level down keep. -/
theorem keeps_eval [VariableFrame R] (hx : ∀ weak stmts, Keeps R (b.execute weak stmts))
    {x : MakeM Text} (sc : Scope) (loc : Option Location) (h : Keeps R x) :
    Keeps R (Evaluate.evalOf b sc loc x) := by
  refine keeps_bind MakeM.keeps_makefile fun mk => ?_
  split
  · exact keeps_throw _
  · refine keeps_bind h fun s => keeps_bind (MakeM.keeps_reading _) fun stmts => ?_
    exact keeps_return (hx false stmts)

theorem keeps_execute_steady (n : Nat) (weak : Bool) (stmts : List Statement) :
    Keeps Steady ((levels n).execute weak stmts) := by
  suffices h : (levels n).KeepsFrame Steady ∧
      ∀ weak stmts, Keeps Steady ((levels n).execute weak stmts) from h.2 weak stmts
  induction n with
  | zero =>
    have hx : ∀ weak stmts, Keeps Steady ((levels 0).execute weak stmts) :=
      fun _ _ => keeps_throw _
    exact ⟨⟨fun _ _ _ => keeps_throw _, fun _ sc loc h => keeps_eval hx sc loc h⟩, hx⟩
  | succ n ih =>
    have hx : ∀ weak stmts, Keeps Steady ((levels (n + 1)).execute weak stmts) :=
      fun weak stmts => keeps_map (Execute.keeps_statements ih.1 ih.2 weak .unset stmts)
    exact ⟨⟨fun sc setting e => Evaluate.keeps_expansion ih.1 sc setting e,
      fun _ sc loc h => keeps_eval hx sc loc h⟩, hx⟩

theorem keepsFrame_steady (n : Nat) : (levels n).KeepsFrame Steady where
  expand sc setting e := by
    cases n with
    | zero => exact keeps_throw _
    | succ n => exact Evaluate.keeps_expansion (keepsFrame_steady n) sc setting e
  eval _ sc loc h := keeps_eval (keeps_execute_steady n) sc loc h

theorem keepsFrame_sameHabits (n : Nat) : (levels n).KeepsFrame SameHabits where
  expand sc setting e := ((keepsFrame_steady n).expand sc setting e).sameHabits
  eval _ sc loc h :=
    keeps_eval (fun weak stmts => (keeps_execute_steady n weak stmts).sameHabits) sc loc h

end Below

namespace MakeM

theorem keeps_expand_steady (sc : Scope) (setting : List Text) (e : Expansion) :
    Keeps Steady (expand sc setting e) :=
  keeps_expand Below.keepsFrame_steady sc setting e

theorem keeps_execute (stmts : List Statement) : Keeps Steady (execute weak stmts) :=
  keeps_below fun n => Below.keeps_execute_steady n weak stmts

theorem keeps_includeFile (required weak : Bool) : Keeps Steady (includeFile path required weak) :=
  keeps_below fun n => Execute.keeps_includeFile (Below.keeps_execute_steady n) path required weak

theorem keeps_globalValue : Keeps Steady (globalValue name) := by
  refine keeps_bind (keeps_onScopes _) fun v => ?_
  cases v with
  | none => exact keeps_pure _
  | some v => exact keeps_return (keeps_expand_steady _ _ _)

theorem keeps_markExplicit : Keeps Steady markExplicit := by
  refine keeps_bind keeps_makefile fun mk => keeps_forM fun t => ?_
  refine keeps_bind (keeps_onTarget _ (fun _ => rfl) fun _ => ⟨rfl, rfl, rfl⟩) fun _ =>
    keeps_forM fun r => ?_
  refine keeps_bind keeps_makefile fun mk => keeps_forM fun p => ?_
  exact keeps_bind (keeps_mention p) fun name => keeps_onTarget _ (fun _ => rfl)
    fun _ => ⟨rfl, rfl, rfl⟩

/-- Finishing a makefile marks it as read, and is steady from then on. -/
theorem keeps_finish [IsPreorder Session R]
    (hread : ∀ s : Session, R s { s with makefile := { s.makefile with finished := true } })
    (hsteady : ∀ s s', Steady s s' → R s s') : Keeps R finish := by
  refine keeps_bind (keeps_modify hread) fun _ => ?_
  suffices hthen : Keeps Steady _ from fun s => hsteady _ _ (hthen s)
  refine keeps_bind (keeps_globalValue _) fun v => ?_
  extract_lets goal rest
  have hrest : ∀ u, Keeps Steady (rest u) := by
    intro u
    refine keeps_bind (keeps_globalValue _) fun vpath => ?_
    refine keeps_bind (keeps_elsewhere fun _ => rfl) fun _ =>
      keeps_bind keeps_markExplicit fun _ => ?_
    refine keeps_bind (keeps_mention _) fun serial => keeps_bind (keeps_targetAt _) fun t => ?_
    refine keeps_when (keeps_elsewhere fun _ => rfl) fun _ =>
      keeps_bind (keeps_globalValue _) fun v => ?_
    cases v with
    | none => exact keeps_pure _
    | some name => exact keeps_elsewhere fun _ => rfl
  split
  · exact keeps_when (keeps_throw _) hrest
  · exact hrest ()

theorem sameHabits_finish :
    Keeps SameHabits finish := keeps_finish (fun _ => rfl) fun _ _ h => h.habits

theorem keeps_setGlobal (flavor : Flavor) (origin : Origin) (value : Text) :
    Keeps Steady (setGlobal name flavor origin value) :=
  keeps_onScopes _

theorem keeps_start (c : Config) : Keeps Steady (start c) := by
  refine keeps_bind (keeps_onScopes _) fun _ => keeps_bind keeps_makefile fun mk => ?_
  refine keeps_bind (keeps_setGlobal _ _ _ _) fun _ => ?_
  refine keeps_bind (keeps_setGlobal _ _ _ _) fun _ => ?_
  refine keeps_bind (keeps_setGlobal _ _ _ _) fun _ => ?_
  extract_lets rest passed
  have hpassed : ∀ u, Keeps Steady (passed u) := by
    refine fun _ => keeps_when (keeps_setGlobal _ _ _ _) fun _ => ?_
    refine keeps_bind (keeps_setGlobal _ _ _ _) fun _ => ?_
    refine keeps_bind (keeps_setGlobal _ _ _ _) fun _ => ?_
    refine keeps_bind (keeps_elsewhere fun _ => rfl) fun _ => ?_
    refine keeps_bind (keeps_setGlobal _ _ _ _) fun _ => ?_
    refine keeps_bind (keeps_setGlobal _ _ _ _) fun _ => ?_
    exact keeps_forM fun p => keeps_setGlobal _ _ _ _
  split
  · exact keeps_bind (keeps_setGlobal _ _ _ _) hpassed
  · exact hpassed ()

end MakeM

end Rebuild
