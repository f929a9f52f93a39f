import Rebuild.Proofs.Build.Step
/-!
# The history of a run

A run that has come to a state has done actions on its way. Its history holds them, the latest
first, each with the states before and after it. What the recipe of a rule was given, how its lines
ended, which prerequisites were refused and which targets failed is read off the history.
-/

namespace Rebuild

/-- An action that was done, with the states before and after it. -/
structure Deed where
  action : Action
  before : Run
  after : Run

/-- The action that the next step does. -/
def Run.doing (s : Run) : Option Action :=
  match s.outcome, s.stack with
  | none, .action a :: _ => some a
  | _, _ => none

/-- A run has come from one state to another, in any number of steps and with any schedule for each
of them; it has done these actions. -/
inductive Course (s₀ : Run) : List Deed → Run → Prop
  | start : Course s₀ [] s₀
  | act {h : List Deed} {s : Run} {a : Action} (schedule : Schedule) (course : Course s₀ h s)
      (doing : s.doing = some a) : Course s₀ (⟨a, s, s.step schedule⟩ :: h) (s.step schedule)
  | pass {h : List Deed} {s : Run} (schedule : Schedule) (course : Course s₀ h s)
      (doing : s.doing = none) : Course s₀ h (s.step schedule)

/-- The actions that a run does in a number of steps, before those of its history. -/
def Run.deeds (schedule : Nat → Schedule) : Nat → Run → List Deed → List Deed
  | 0, _, h => h
  | n + 1, s, h =>
    match s.outcome with
    | some _ => h
    | none =>
      let s' := s.step (schedule n)
      s'.deeds schedule n (s.doing.elim h fun a => ⟨a, s, s'⟩ :: h)

theorem Course.steps {s0 s : Run} {h : List Deed} (hc : Course s0 h s) (schedule : Nat → Schedule)
    (n : Nat) : Course s0 (s.deeds schedule n h) (s.steps schedule n) := by
  induction n generalizing s h with
  | zero => exact hc
  | succ n ih =>
    unfold Run.steps Run.deeds
    cases s.outcome with
    | some o => exact hc
    | none =>
      dsimp only
      cases hd : s.doing with
      | none => exact ih (.pass (schedule n) hc hd)
      | some a => exact ih (.act (schedule n) hc hd)

/-- What holds of the first steps of a run, given by evaluation. -/
theorem Course.of_steps (s0 : Run) {P : List Deed → Run → Prop} (n : Nat)
    (hP : P (s0.deeds Run.allDone n []) (s0.steps Run.allDone n)) : ∃ h s, Course s0 h s ∧ P h s :=
  ⟨_, _, Course.start.steps Run.allDone n, hP⟩

/-- Does the last deed pass a test that also sees the deeds before it? -/
def lastDeed (P : Deed → List Deed → Bool) : List Deed → Bool
  | [] => false
  | d :: h => P d h

/-- What holds of the last deed in them. -/
theorem Course.of_last (s0 : Run) (P : Deed → List Deed → Bool) (n : Nat)
    (hP : lastDeed P (s0.deeds Run.allDone n []) = true) :
    ∃ h d s, Course s0 (d :: h) s ∧ P d h = true := by
  obtain ⟨h, s, hc, hP⟩ := Course.of_steps s0 (P := fun h _ => lastDeed P h = true) n hP
  cases h with
  | nil => cases hP
  | cons d h => exact ⟨h, d, s, hc, hP⟩

/-- A run has come to every one of its deeds. -/
theorem Course.split {s0 s : Run} {d : Deed} {later earlier : List Deed}
    (hc : Course s0 (later ++ d :: earlier) s) : Course s0 earlier d.before ∧
      d.before.doing = some d.action ∧ ∃ schedule, d.after = d.before.step schedule := by
  generalize hh : later ++ d :: earlier = h at hc
  induction hc generalizing later with
  | start => exact absurd hh (List.append_ne_nil_of_right_ne_nil _ (List.cons_ne_nil _ _))
  | act schedule course doing ih =>
    cases later with
    | nil =>
      cases hh
      exact ⟨course, doing, schedule, rfl⟩
    | cons d' later => exact ih (List.cons.inj hh).2
  | pass _ _ _ ih => exact ih hh

/-! ## Recipes -/

/-- How a line of the recipe of a rule ended, if the action tells that. -/
def Action.exitOf (r : RuleAt) : Action → List (RecipeLine × Int)
  | .exit (.recipe r' line) code => if r' = r then [(line, code)] else []
  | _ => []

/-- Is the action to run the recipe of a rule? -/
def Action.isRecipe (r : RuleAt) : Action → Bool
  | .recipe r' => r' == r
  | _ => false

/-- The lines of the recipe of a rule that have ended, with their exit codes. -/
def exits : List Deed → RuleAt → List (RecipeLine × Int)
  | [], _ => []
  | d :: h, r => exits h r ++ d.action.exitOf r

/-- How often the recipe of a rule was taken up. -/
def recipeRuns (h : List Deed) (r : RuleAt) : Nat := h.countP fun d => d.action.isRecipe r

/-- All lines that have ended were successful, or their failure is ignored. -/
def Fine (h : List Deed) (r : RuleAt) : Prop := ∀ p ∈ exits h r, p.2 = 0 ∨ p.1.ignore = true

/-- The recipe of a rule was started with these lines. -/
def Given (h : List Deed) (r : RuleAt) (lines : List RecipeLine) : Prop :=
  ∃ d ∈ h, d.action = .recipe r ∧ d.after.stack.head? = some (.action (.nextLine r false)) ∧
    ∃ w x, d.after.work r.build r.target = some w ∧ w.rules[r.rule]? = some x ∧ x.lines = lines

/-- The recipe of a rule was not needed. -/
def Passed (h : List Deed) (r : RuleAt) : Prop :=
  ∃ d ∈ h, d.action = .recipe r ∧
    d.after.stack.head? = some (.action (.recipeDone r.build r.target false))

/-- The recipe of a rule was not needed, or it was started and every one of its lines ended
well. -/
def Concluded (h : List Deed) (r : RuleAt) : Prop :=
  Passed h r ∨ ∃ lines, Given h r lines ∧ (exits h r).map (·.1) = lines ∧ Fine h r

/-- The recipe of a rule is over: it was taken up, or went on after a line, and was done. -/
def Over (h : List Deed) (r : RuleAt) : Prop :=
  ∃ d ∈ h, (d.action = .recipe r ∨ ∃ error, d.action = .nextLine r error) ∧
    ∃ error, d.after.stack.head? = some (.action (.recipeDone r.build r.target error))

/-- A recipe of a target has failed. -/
def Failed (h : List Deed) (b : Nat) (t : Text) : Prop := ∃ d ∈ h, d.action = .recipeDone b t true

/-- A prerequisite of a rule was not made, since a recipe had failed before. -/
def Refused (h : List Deed) (r : RuleAt) (name : Text) : Prop :=
  ∃ d ∈ h, ∃ weak, d.action = .startDep r name weak ∧ d.before.view.failed r.build = true

@[simp] theorem exits_cons (h : List Deed) (d : Deed) (r : RuleAt) :
    exits (d :: h) r = exits h r ++ d.action.exitOf r := rfl

theorem recipeRuns_cons (h : List Deed) (d : Deed) (r : RuleAt) :
    recipeRuns (d :: h) r = recipeRuns h r + if d.action.isRecipe r then 1 else 0 :=
  List.countP_cons

/-- An action that does not belong to a target is neither a recipe of it nor the end of a line. -/
theorem Action.foreign {a : Action} {r : RuleAt}
    (ha : ∀ τ, a.post = .own τ → τ.owner ≠ some (r.build, r.target)) :
    a.exitOf r = [] ∧ a.isRecipe r = false := by
  cases a with
  | exit e code =>
    refine ⟨?_, rfl⟩
    cases e with
    | outside => rfl
    | recipe r' line =>
      have hne : r' ≠ r := by
        rintro rfl
        exact ha _ rfl rfl
      simp [exitOf, hne]
  | recipe r' =>
    refine ⟨rfl, ?_⟩
    have hne : r' ≠ r := by
      rintro rfl
      exact ha _ rfl rfl
    simp [isRecipe, hne]
  | _ => exact ⟨rfl, rfl⟩

end Rebuild
