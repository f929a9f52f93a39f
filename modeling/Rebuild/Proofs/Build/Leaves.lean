import Rebuild.Proofs.Build.Step
/-!
# What turns leave

A turn of a target takes up one thread of the target, and leaves threads of the target only: one
action that follows at once, or duties for later (`Turn.leaves`). The target goes on with the same
rules in the same way until it is over, and tells that to those who asked for it (`Turn.goesOn`).
-/

namespace Rebuild

open List

variable {a : Action} {l : RecipeLine} {i : Nat} {keep : Bool} {f : RuleWork → RuleWork}

/-- An action that relies on nothing. -/
def Action.isPlain : Action → Bool
  | .resolve _ | .resolved .. | .startDep .. | .recipe _ | .recipeDone .. | .nextLine .. | .exit ..
  | .start .. => true
  | _ => false

theorem Action.admits_of_isPlain (h : a.isPlain = true) (v : View) : v.Admits a := by
  cases a with
  | make | reply | proceed | parse => cases h
  | _ => trivial

/-- May an action wait in a queue? -/
def Action.isLate : Action → Bool
  | .resolved .. | .parse _ => false
  | _ => true

theorem Action.of_command_post {r : RuleAt}
    (h : a.post = .own (.command r l)) :
    a.isPlain = true ∧ a.isLate = true := by
  cases a with
  | make b t stack ρ => cases ρ <;> cases h
  | reply b t ρ => cases ρ <;> cases h
  | exit | start => exact ⟨rfl, rfl⟩
  | _ => cases h

/-- A duty of a target that relies on nothing. -/
def Duty.IsFree (b : Nat) (t : Text) (p : Duty) : Prop :=
  (∃ τ, p.post = .own τ ∧ τ.owner = some (b, t)) ∧
    ∀ a, p = .task a → (∀ v : View, v.Admits a) ∧ a.isLate = true

/-- What a target leaves to be done: one action at once, which is not to make a prerequisite, as
long as it is not over, or else duties for later. -/
inductive Leaves (b : Nat) (t : Text) : List Action → List Duty → Bool → Prop
  | act {a : Action} {τ : Thread} (plain : a.isPlain = true) (post : a.post = .own τ)
      (owner : τ.owner = some (b, t)) (past : ∀ r d weak, τ ≠ .dep r d weak) :
      Leaves b t [a] [] false
  | defer {late : List Duty} {ends : Bool} (free : ∀ p ∈ late, p.IsFree b t) :
      Leaves b t [] late ends

section Turns

variable {v : View} {b : Nat} {t : Text} {w u : Work} {act : Action} {τ : Thread} {j : Nat}
  {now : List Action} {late : List Duty} {weak error did stop fails ends : Bool}

theorem Duty.isFree_task (hpost : act.post = .own τ) (ho : τ.owner = some (b, t))
    (hadm : ∀ v : View, v.Admits act) (hlate : act.isLate = true) : (Duty.task act).IsFree b t :=
  ⟨⟨τ, hpost, ho⟩, fun _ e => by cases e; exact ⟨hadm, hlate⟩⟩

/-- To ask for a prerequisite relies on nothing. -/
theorem Duty.isFree_make {name : Text} {stack : List Text} :
    (Duty.task (.make b name stack (.dependent ⟨b, t, i⟩ weak) false true)).IsFree b t :=
  isFree_task rfl rfl (fun _ => ⟨trivial, rfl, nofun⟩) rfl

theorem Sees.leaves (hs : Sees b t i w u now late) : Leaves b t now late false := by
  cases hs with
  | first => exact .defer (forall_mem_singleton.2 Duty.isFree_make)
  | all =>
    exact .defer (forall_mem_map.2 fun _ _ => Duty.isFree_task rfl rfl (fun _ => trivial) rfl)
  | none | ready => exact .act rfl rfl rfl nofun

theorem Hears.leaves (hh : Hears keep b t i weak error did w u now late) :
    Leaves b t now late false := by
  cases hh with
  | walk => exact .defer (forall_mem_singleton.2 Duty.isFree_make)
  | more => exact .defer (forall_mem_nil _)
  | stop | last | ready => exact .act rfl rfl rfl nofun

theorem Next.leaves (hn : Next stop b t w u late ends) : Leaves b t [] late ends := by
  cases hn with
  | start => exact .defer (forall_mem_singleton.2 (Duty.isFree_task rfl rfl (fun _ => trivial) rfl))
  | closes | idle | wait => exact .defer (forall_mem_nil _)

theorem leaves_line
    (h : now.map Action.post ++ late.map Duty.post = [.own (.command ⟨b, t, j⟩ l)]) :
    Leaves b t now late false := by
  cases now with
  | nil =>
    obtain ⟨p, rfl, hp⟩ := map_eq_singleton_iff.1 h
    refine .defer (forall_mem_singleton.2 ⟨⟨_, hp, rfl⟩, fun a e => ?_⟩)
    subst e
    obtain ⟨hplain, hlate⟩ := Action.of_command_post hp
    exact ⟨Action.admits_of_isPlain hplain, hlate⟩
  | cons a rest =>
    obtain ⟨ha, hrest⟩ := List.cons.inj h
    obtain ⟨hnow, hlate⟩ := append_eq_nil_iff.1 hrest
    rw [map_eq_nil_iff.1 hnow, map_eq_nil_iff.1 hlate]
    exact .act (Action.of_command_post ha).1 ha rfl nofun

section

variable (ht : Turn v b t w act u now late fails ends)
include ht

/-- An action on a target takes up a thread of that target. -/
theorem Turn.owner : ∃ τ, act.post = .own τ ∧ τ.owner = some (b, t) := by
  cases ht <;> exact ⟨_, rfl, rfl⟩

theorem Turn.leaves : Leaves b t now late ends := by
  cases ht with
  | see sees | go _ _ _ sees => exact sees.leaves
  | hear _ _ _ hears | shun _ hears => exact hears.leaves
  | turn _ _ next | free _ _ next => exact next.leaves
  | line _ _ starts => exact leaves_line starts
  | halt | queue | last => exact .defer (forall_mem_nil _)
  | _ => exact .act rfl rfl rfl nofun

/-- An action on a target leaves nothing but threads of that target. -/
theorem Turn.posts {p : Post}
    (hp : p ∈ now.map Action.post ++ late.map Duty.post) :
    ∃ τ, p = .own τ ∧ τ.owner = some (b, t) := by
  cases ht.leaves with
  | act _ post owner => exact ⟨_, (mem_singleton.1 hp).trans post, owner⟩
  | defer free =>
    obtain ⟨q, hq, rfl⟩ := mem_map.1 hp
    exact (free q hq).1

/-- At most one action follows at once, which is not to make a prerequisite, and none if the target
is over. -/
theorem Turn.follows :
    now = [] ∨ ends = false ∧ ∃ a τ, now = [a] ∧ a.isPlain = true ∧ a.post = .own τ ∧
      ∀ r d weak, τ ≠ .dep r d weak := by
  cases ht.leaves with
  | act plain post _ past => exact .inr ⟨rfl, _, _, rfl, plain, post, past⟩
  | defer => exact .inl rfl

end

/-- Only a line of a recipe starts a make. -/
theorem Turn.of_start {args : List Text} {env : Env} {cwd : Text} {e : ExitTo}
    (ht : Turn v b t w act u [.start args env cwd e] late fails ends) :
    ∃ r, act = .nextLine r false := by
  generalize hnow : [Action.start args env cwd e] = now at ht
  cases ht with
  | line => exact ⟨_, rfl⟩
  | see sees | go _ _ _ sees => cases sees <;> cases hnow
  | hear _ _ _ hears | shun _ hears => cases hears <;> cases hnow
  | _ => cases hnow

/-- What a turn puts into the queue relies on nothing. -/
theorem Turn.defers (ht : Turn v b t w act u now late fails ends)
    (ha : Duty.task a ∈ late) : (∀ v : View, v.Admits a) ∧ a.isLate = true := by
  cases ht.leaves with
  | act => cases ha
  | defer free => exact (free _ ha).2 a rfl

/-- The rules of a target with their prerequisites. -/
def Work.sources (w : Work) : List (Option RuleRef × List (Text × Bool)) :=
  w.rules.map fun x => (x.rule, x.deps)

/-- What the rules of a target are begun with: these, and whether they avoid loops. -/
def Work.plan (w : Work) : List ((Option RuleRef × List (Text × Bool)) × Bool) :=
  w.rules.map fun x => ((x.rule, x.deps), x.avoidLoop)

theorem Work.length_eq (hp : u.plan = w.plan) : u.rules.length = w.rules.length := by
  simpa [plan] using congrArg List.length hp

theorem Work.sources_eq (h : u.plan = w.plan) : u.sources = w.sources := by
  simpa [plan, sources, Function.comp_def] using congrArg (List.map Prod.fst) h

theorem Work.plan_onRule (w : Work) (i : Nat)
    (hf : ∀ x, ((f x).rule, (f x).deps, (f x).avoidLoop) = (x.rule, x.deps, x.avoidLoop)) :
    (w.onRule i f).plan = w.plan :=
  map_modify_of_eq (fun x => by simpa [and_assoc] using hf x) w.rules i

/-- The target goes on with the same rules in the same way, or is over and is told to no one
more. -/
structure Work.GoesOn (w u : Work) (ends : Bool) : Prop where
  plan : u.plan = w.plan
  serial : u.serial = w.serial
  progress : u.progress = if ends then .finished else w.progress
  replies : u.replies = if ends then [] else w.replies

theorem Work.goesOn_onRule (w : Work) (i : Nat)
    (hf : ∀ x, ((f x).rule, (f x).deps, (f x).avoidLoop) = (x.rule, x.deps, x.avoidLoop)) :
    w.GoesOn (w.onRule i f) false :=
  ⟨w.plan_onRule i hf, rfl, rfl, rfl⟩

theorem Sees.goesOn (hs : Sees b t i w u now late) : w.GoesOn u false := by
  cases hs <;> exact w.goesOn_onRule i fun _ => rfl

theorem Hears.goesOn (hh : Hears keep b t i weak error did w u now late) : w.GoesOn u false := by
  cases hh <;> exact w.goesOn_onRule i fun _ => rfl

theorem Next.goesOn (hn : Next stop b t w u late ends) : w.GoesOn u ends := by
  cases hn <;> exact ⟨rfl, rfl, rfl, rfl⟩

theorem Turn.goesOn (ht : Turn v b t w act u now late fails ends) : w.GoesOn u ends := by
  cases ht with
  | see sees => exact sees.goesOn
  | go _ _ _ sees =>
    obtain ⟨hplan, hserial, hprogress, hreplies⟩ := sees.goesOn
    exact ⟨hplan, hserial, hprogress, hreplies⟩
  | hear _ _ _ hears | shun _ hears => exact hears.goesOn
  | turn _ _ next | free _ _ next =>
    obtain ⟨hplan, hserial, hprogress, hreplies⟩ := next.goesOn
    exact ⟨hplan, hserial, hprogress, hreplies⟩
  | refuse | needless | unreadable | begin | line =>
    exact ⟨w.plan_onRule _ fun _ => rfl, rfl, rfl, rfl⟩
  | _ => exact ⟨rfl, rfl, rfl, rfl⟩

end Turns

end Rebuild
