import Rebuild.Proofs.Build.Course
import Rebuild.Proofs.Build.Frame
/-!
# Runs as activities

Whatever a run does, it uses its event loop as an activity does: its actions only ask for contexts
and put things into queues, and its turns take what waits, report the jobs that are done, and answer
them one after the other. So every run conserves (`event_loop_conserves`), and what is called in
the activity is what the run does, in the same order.
-/

namespace Rebuild

open List Loop

variable {s s' : Run} {h : List Deed} {α : Type} {b : Nat}

/-- Something was asked of a loop. -/
def Loop.Event.IsRequest {τ κ : Type} : Loop.Event τ κ → Prop
  | .deferred _ _ => True
  | _ => False

theorem Loop.called_of_requests {τ κ : Type} {ds : List (Loop.Event τ κ)}
    (hds : ∀ e ∈ ds, e.IsRequest) : called ds = [] := by
  refine filterMap_eq_nil_iff.2 fun e he => ?_
  cases e with
  | deferred => rfl
  | _ => exact (hds _ he).elim

/-- Nothing is done to the event loop but that things are asked of it. -/
def Run.Asks (s s' : Run) : Prop :=
  LeadsTo Event.IsRequest (s.world, s.loop) (s'.world, s'.loop)

/-- The event loop is left alone. -/
theorem Run.asks_of_loop (hl : s'.loop = s.loop) : s.Asks s' := by
  intro es batch ha
  rw [hl]
  exact ⟨[], forall_mem_nil _, by simpa using ha.world s'.world⟩

instance : JobFrame Run.Asks where
  refl s := refl_of (LeadsTo _) (s.world, s.loop)
  trans _ _ _ h₁ h₂ := trans_of (LeadsTo _) h₁ h₂
  world _ _ _ := Run.asks_of_loop rfl
  builds _ _ _ _ := Run.asks_of_loop rfl
  work _ _ _ _ _ := Run.asks_of_loop rfl
  makes _ _ _ _ := Run.asks_of_loop rfl
  shared _ _ hjobs es _ ha := ⟨[], forall_mem_nil _, by simpa using ha.shared hjobs⟩
  defer _ c p _ hl es _ ha := ⟨[.deferred c p], forall_mem_singleton.2 trivial, ha.defer hl⟩
  stack _ _ _ := Run.asks_of_loop rfl
  outcome _ _ := Run.asks_of_loop rfl

namespace Run

theorem asks_onMakefile (b : Nat) (x : MakeM α) : Keeps Asks (RunM.onMakefile b x) :=
  RunM.keeps_onMakefile_of b fun _ => asks_of_loop rfl

/-- Actions only ask. -/
theorem asks_perform (a : Action) : Keeps Asks (perform a) :=
  frame_perform_blind asks_onMakefile (fun _ _ _ _ _ => asks_of_loop rfl)
    (fun _ => RunM.frame_newBuild asks_onMakefile (fun _ _ => asks_of_loop rfl)
      fun _ _ _ => asks_of_loop rfl)
    fun _ _ _ _ _ _ _ _ => asks_of_loop rfl

/-- What is being done below the last guard is dropped altogether, or stays. -/
theorem unwind_stack (e : Error) (top : List Frame) {base : List Frame}
    (hbase : ∀ f ∈ base, ∃ a, f = .action a) (s : Run) :
    (unwind e (top ++ base) s).Broken ∨
      ∃ top', (unwind e (top ++ base) s).stack = top' ++ base := by
  induction top generalizing e s with
  | nil =>
    rw [nil_append, unwind_actions e hbase]
    exact .inl ⟨e, rfl⟩
  | cons f rest ih =>
    cases f with
    | action a => exact ih e s
    | guard g =>
      rw [cons_append]
      unfold unwind
      split
      · split
        · rename_i frames s1 _
          exact .inr ⟨frames ++ rest, (append_assoc ..).symm⟩
        · exact ih _ _
      · exact ih e s

end Run

/-- The action by which the callback of a job is invoked. -/
def Run.callback : Action ⊕ Running ExitTo → Action
  | .inl a => a
  | .inr r => .exit r.answer r.code

/-- The frames of jobs that were reported together and are not answered yet. -/
def Run.batchFrames (batch : List (Running ExitTo)) : List Frame :=
  batch.map fun r => .action (callback (.inr r))

/-- A run is an activity: at the bottom of what is being done are the jobs that were reported
together and are not answered yet, and at the top may be a task that was just taken. What was called
before was done, in this order. -/
def Run.Active (h : List Deed) (s : Run) : Prop :=
  ∃ es batch, Activity es s.world s.loop batch ∧
  (s.Broken ∨ ∃ (due : Option Action) (top : List Frame),
    s.stack = due.toList.map .action ++ (top ++ batchFrames batch) ∧
    ((called es).map callback).Sublist (h.reverse.map (·.action) ++ due.toList))

namespace Run

theorem batchFrames_actions (batch : List (Running ExitTo)) :
    ∀ f ∈ batchFrames batch, ∃ a, f = .action a := by
  intro f hf
  obtain ⟨r, -, rfl⟩ := mem_map.1 hf
  exact ⟨_, rfl⟩

/-- Doing the first thing that is to be done above a base leaves the base, unless it ends the
run. -/
theorem doNow_stack (x : RunM (List Frame)) (top : List Frame) {base : List Frame}
    (hbase : ∀ f ∈ base, ∃ a, f = .action a) (s : Run) :
    (doNow x (top ++ base) s).Broken ∨ ∃ top', (doNow x (top ++ base) s).stack = top' ++ base := by
  unfold doNow
  split
  · exact .inr ⟨_, (append_assoc ..).symm⟩
  · exact unwind_stack _ top hbase _

/-- **A step that does an action**: what is asked is part of the activity, and the callback of a job
is invoked where it is the job's turn. -/
theorem Active.step_of_action {a : Action} (hs : s.Active h) (hdoing : s.doing = some a)
    (schedule : Schedule) : (s.step schedule).Active (⟨a, s, s.step schedule⟩ :: h) := by
  obtain ⟨ho, rest, hstack⟩ := doing_eq_some hdoing
  obtain ⟨es, batch, ha, hs⟩ := hs
  obtain ⟨due, top, hframes, hcalled⟩ := hs.resolve_left (not_broken ho)
  have hstep : s.step schedule = doNow (perform a) rest s := by rw [step, ho, hstack]
  have hasks : s.Asks (s.step schedule) := hstep ▸ frame_doNow rest (asks_perform a s)
  -- what is below the action stays, with the jobs that are still to be answered
  have hgo {es' : List (Loop.Event Action ExitTo)} {batch' : List (Running ExitTo)}
      {u : List Frame} (ha' : Activity es' s.world s.loop batch')
      (hrest : rest = u ++ batchFrames batch')
      (hcalled' : ((called es').map callback).Sublist (h.reverse.map (·.action) ++ [a])) :
      (s.step schedule).Active (⟨a, s, s.step schedule⟩ :: h) := by
    obtain ⟨ds, hds, ha'⟩ := hasks _ _ ha'
    refine ⟨_, _, ha', ?_⟩
    rw [called, filterMap_append, ← called, ← called, called_of_requests hds, append_nil]
    rw [hstep, hrest]
    refine (doNow_stack (perform a) u (batchFrames_actions batch') s).imp_right ?_
    rintro ⟨top'', htop⟩
    exact ⟨none, top'', htop, by simpa using hcalled'⟩
  rw [hstack] at hframes
  cases due with
  | some a' =>
    cases hframes
    exact hgo ha rfl hcalled
  | none =>
    have hmore :=
      (hcalled.trans (by simp)).trans (sublist_append_left (h.reverse.map (·.action)) [a])
    cases top with
    | cons f top =>
      cases hframes
      exact hgo ha rfl hmore
    | nil =>
      cases batch with
      | nil => cases hframes
      | cons r batch =>
        cases hframes
        refine hgo (u := []) ha.answer rfl ?_
        rw [called, filterMap_append, map_append, ← called]
        exact Sublist.append (by simpa using hcalled) (.refl _)

/-- **A turn of the event loop**: what waits is taken, or jobs that are done are reported. -/
theorem turn_active {es : List (Loop.Event Action ExitTo)} (ha : Activity es s.world s.loop [])
    (hstack : s.stack = [])
    (hcalled : ((called es).map callback).Sublist (h.reverse.map (·.action)))
    (schedule : Schedule) :
    (turn schedule s).Active h := by
  have hidle {s' : Run} (hl : s'.loop = s.loop) (hw : s'.world = s.world) (hs : s'.stack = []) :
      s'.Active h :=
    ⟨es, [], by rwa [hl, hw], .inr ⟨none, [], hs, by simpa using hcalled⟩⟩
  unfold turn
  split
  · exact hidle rfl rfl hstack
  · split
    · unfold report
      split
      · exact hidle rfl rfl hstack
      · rename_i jobs l _ hreport
        have hreported := (ha.reorder (schedule.perm s.loop.live)).report (s.doneAmong schedule)
        rw [show ({ s.loop with live := schedule.order s.loop.live } : Loop Action ExitTo).report
          (s.doneAmong schedule) = _ from hreport] at hreported
        refine ⟨_, jobs, hreported, .inr ⟨none, [], rfl, ?_⟩⟩
        rw [called, filterMap_append, map_append, ← called]
        simpa using hcalled
    · split
      · exact hidle rfl rfl hstack
      · exact ⟨es, [], ha, .inl ⟨_, rfl⟩⟩
  · split
    · exact hidle rfl rfl hstack
    · rename_i todo w l hadvance
      obtain ⟨ds, hds, ha⟩ := ha.advance hadvance
      refine ⟨_, [], ha, .inr ⟨todo, [], (append_nil _).symm, ?_⟩⟩
      rw [called, filterMap_append, map_append, ← called, ← called, hds]
      have htodo : (todo.toList.map Sum.inl).map callback = todo.toList := by cases todo <;> rfl
      rw [htodo]
      exact hcalled.append (.refl _)

/-- **A step that does no action**: a turn of the event loop, or a guard that is left. -/
theorem Active.step_of_idle (hs : s.Active h) (hdoing : s.doing = none) (schedule : Schedule) :
    (s.step schedule).Active h := by
  unfold step
  split
  · exact hs
  rename_i ho
  obtain ⟨es, batch, ha, hs⟩ := hs
  obtain ⟨due, top, hframes, hcalled⟩ := hs.resolve_left (not_broken ho)
  split
  · rename_i hstack
    simp [doing, ho, hstack] at hdoing
  · -- a guard is part of what callbacks have started
    rename_i g rest hstack
    rw [hstack] at hframes
    cases due with
    | some a => cases hframes
    | none =>
      cases top with
      | nil => cases batch <;> cases hframes
      | cons f top =>
        cases hframes
        exact ⟨es, batch, ha, .inr ⟨none, top, rfl, hcalled⟩⟩
  · rename_i hstack
    rw [hstack] at hframes
    obtain rfl : due = none := by
      cases due with
      | none => rfl
      | some a => cases hframes
    obtain ⟨-, hbatch⟩ := append_eq_nil_iff.1 (append_eq_nil_iff.1 hframes.symm).2
    obtain rfl : batch = [] := map_eq_nil_iff.1 hbatch
    exact turn_active ha hstack (by simpa using hcalled) schedule

end Run

/-- **Every run is an activity.** -/
theorem Course.active {w : World} {args : List Text} {env : Env} {cwd : Text}
    (hc : Course (.init w args env cwd) h s) : s.Active h := by
  induction hc with
  | start => exact ⟨[], [], .empty w, .inr ⟨none, [.action _], rfl, .refl _⟩⟩
  | act schedule _ doing ih => exact ih.step_of_action doing schedule
  | pass schedule _ doing ih => exact ih.step_of_idle doing schedule

end Rebuild
