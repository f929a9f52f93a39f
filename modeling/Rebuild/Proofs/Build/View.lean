import Rebuild.Build.Run
import Rebuild.Proofs.Computation
import Mathlib.Data.Multiset.MapFold
import Mathlib.Algebra.Order.Group.Multiset
import Mathlib.Logic.Function.Basic
/-!
# What a run shows of its work

A run holds much that its course does not depend on: the world, the texts of the makefiles, the
order of the queues. Its view keeps the rest: the work on every target, which builds have failed,
what is being done, and what waits or runs, in no order. Every operation of the run on its state
is an operation on the view, so that a step is described once, on views.
-/

namespace Rebuild

/-- What waits in a queue, or runs: a task, or a job whose exit code someone is told. -/
inductive Duty where
  | task (a : Action)
  | job (e : ExitTo)

/-- A thing in a queue as a duty. -/
def Duty.ofPending : Pending Action ExitTo → Duty
  | .task a => .task a
  | .launch _ e _ _ => .job e

/-- What waits or runs in a context. -/
def Context.duties (x : Context Action ExitTo) : List Duty :=
  x.pending.map .ofPending ++ x.running.map fun r => .job r.answer

/-- What waits or runs in a loop. -/
def Loop.duties (l : Loop Action ExitTo) : List Duty := l.contexts.flatMap (·.duties)

/-- What a run shows of its work. -/
structure View where
  stack : List Frame
  /-- What waits or runs, in whatever context. -/
  queue : Multiset Duty
  work : Nat → Text → Option Work
  failed : Nat → Bool
  keep : Nat → Bool
  /-- The make of a build. -/
  boss : Nat → Option Nat
  make : Nat → Option Make
  /-- How many jobs each context allows. -/
  jobs : List Int
  /-- The context of each build. -/
  home : Nat → Option Nat

namespace Run

/-- The work on a target of a build. -/
def work (s : Run) (b : Nat) (t : Text) : Option Work :=
  (s.builds[b]?).bind fun x => x.works.lookup t

/-- The makefile of a build. -/
def makefile? (s : Run) (b : Nat) : Option Makefile := (s.builds[b]?).map (·.makefile)

/-- The view of a run. -/
def view (s : Run) : View where
  stack := s.stack
  queue := s.loop.duties
  work := s.work
  failed b := (s.builds[b]?).elim false (·.failed)
  keep b := (s.builds[b]?).elim false (·.makefile.habits.keepGoing)
  boss b := (s.builds[b]?).map (·.make)
  make m := s.makes[m]?
  jobs := s.loop.contexts.map (·.jobs)
  home b := (s.builds[b]?).map (·.context)

end Run

variable (w : Work) (i : Nat) (f : RuleWork → RuleWork)

namespace Work

/-- Change the work on a rule. -/
def onRule (w : Work) (i : Nat) (f : RuleWork → RuleWork) : Work :=
  { w with rules := w.rules.modify i f }

@[simp] theorem onRule_onRule (g : RuleWork → RuleWork) :
    (w.onRule i f).onRule i g = w.onRule i (g ∘ f) := by
  simp [onRule, List.modify_modify_eq]

@[simp] theorem onRule_id : w.onRule i id = w := by
  simp [onRule, List.modify_id]

theorem onRule_rule : (w.onRule i f).rules[i]? = w.rules[i]?.map f := by
  simp [onRule]

@[simp] theorem onRule_serial : (w.onRule i f).serial = w.serial := rfl

/-- Only what becomes of the rule at hand matters. -/
theorem onRule_congr {w : Work} {i : Nat} {x : RuleWork} {f g : RuleWork → RuleWork}
    (hx : w.rules[i]? = some x) (h : f x = g x) : w.onRule i f = w.onRule i g := by
  unfold onRule
  congr 1
  apply List.ext_getElem?
  intro j
  rw [List.getElem?_modify, List.getElem?_modify]
  by_cases hj : i = j
  · subst hj
    simp [hx, h]
  · simp [hj]

end Work

variable (v : View) (b : Nat) (t : Text) (c : Bool)

namespace View

/-- Set the work on a target. -/
def put (v : View) (b : Nat) (t : Text) (w : Work) : View :=
  { v with work := Function.update v.work b (Function.update (v.work b) t (some w)) }

/-- Put duties into the queue. -/
def later (v : View) (ds : List Duty) : View := { v with queue := v.queue + (ds : Multiset Duty) }

/-- A recipe of a build has failed. -/
def fail (v : View) (b : Nat) : View := { v with failed := Function.update v.failed b true }

/-- A recipe of a build may have failed. -/
def failIf (v : View) (b : Nat) (c : Bool) : View := if c then v.fail b else v

/-- Is a build made one job at a time? -/
def serial (v : View) (b : Nat) : Bool := (v.home b).elim false fun c => v.jobs.getD c 1 == 1

@[simp] theorem put_work_self (w : Work) : (v.put b t w).work b t = some w := by
  simp [put]

theorem put_work_of_ne {b b' : Nat} {t t' : Text} (h : (b', t') ≠ (b, t)) :
    (v.put b t w).work b' t' = v.work b' t' := by
  unfold put
  by_cases hb : b' = b
  · subst hb
    have ht : t' ≠ t := fun ht => h (by rw [ht])
    simp [Function.update_of_ne ht]
  · simp [Function.update_of_ne hb]

@[simp] theorem put_put (w w' : Work) : (v.put b t w).put b t w' = v.put b t w' := by
  simp [put]

@[simp] theorem failIf_false : v.failIf b false = v := rfl

@[simp] theorem failIf_true : v.failIf b true = v.fail b := rfl

@[simp] theorem failIf_work : (v.failIf b c).work = v.work := by
  cases c <;> rfl

@[simp] theorem failIf_keep : (v.failIf b c).keep = v.keep := by
  cases c <;> rfl

@[simp] theorem failIf_failed_self : (v.failIf b c).failed b = (v.failed b || c) := by
  cases c <;> simp [fail]

@[simp] theorem failIf_put (b' : Nat) (t : Text) (w : Work) (c : Bool) :
    (v.failIf b c).put b' t w = (v.put b' t w).failIf b c := by
  cases c <;> rfl

@[simp] theorem put_keep (w : Work) : (v.put b t w).keep = v.keep := rfl

@[simp] theorem put_failed (w : Work) : (v.put b t w).failed = v.failed := rfl

@[simp] theorem later_nil : v.later [] = v := by
  simp [later]

@[simp] theorem later_later (ds es : List Duty) : (v.later ds).later es = v.later (ds ++ es) := by
  simp only [later, add_assoc, Multiset.coe_add]

theorem put_eq_self {b : Nat} {t : Text} {w : Work} (h : v.work b t = some w) :
    v.put b t w = v := by
  unfold put
  rw [← h]
  simp

end View

end Rebuild
