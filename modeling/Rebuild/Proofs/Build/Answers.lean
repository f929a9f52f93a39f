import Rebuild.Proofs.Build.Nesting
/-!
# Who asks is told

Whoever asks for a target is kept among those who wait for it, or is told. This module says, step by
step, what becomes of those who ask (`Talk`), and derives that the books on them are right all
through a run: whoever has asked was told, is about to be told, or waits (`Course.answers`). From
the same steps it follows that whoever asks belongs where they ask (`Course.nested`).
-/

namespace Rebuild

open List Run Rebuild.Action Duty
open Multiset (mem_add filterMap_add notMem_zero mem_coe filterMap_coe coe_add)

variable {s s' : Run} {a : Action} {rest frames : List Frame} {b : Nat} {t : Text} {h : List Deed}
  {spent new : Multiset Action} {ρ : Reply}

/-- Who asks for a target by an action. -/
def Action.asker (b : Nat) (t : Text) : Action → Option Reply
  | .make b' t' _ ρ _ _ => if (b', t') = (b, t) then some ρ else none
  | _ => none

/-- Who is told about a target by an action. -/
def Action.told (b : Nat) (t : Text) : Action → Option Reply
  | .reply b' t' ρ _ _ => if (b', t') = (b, t) then some ρ else none
  | _ => none

/-- The action that waits in a queue. -/
def Duty.task? : Duty → Option Action
  | .task a => some a
  | .job _ => none

/-- What a run is to do, now or later. -/
def Run.tasks (s : Run) : Multiset Action :=
  (actions s.stack : Multiset Action) + s.view.queue.filterMap task?

/-- Those who wait for a target. -/
def Run.replies (s : Run) (b : Nat) (t : Text) : Multiset Reply :=
  ((s.work b t).elim [] (·.replies) : List Reply)

/-- Those who have asked for a target. -/
def askers (h : List Deed) (b : Nat) (t : Text) : Multiset Reply :=
  (h.filterMap fun d => d.action.asker b t : List Reply)

/-- Those who were told about a target. -/
def answered (h : List Deed) (b : Nat) (t : Text) : Multiset Reply :=
  (h.filterMap fun d => d.action.told b t : List Reply)

/-- What a step does with what is to be done: it spends some of it and adds other. Whoever asks by
what is spent is told by what is new, or waits; and so does whoever waited. -/
structure Talk (s s' : Run) (spent new : Multiset Action) : Prop where
  mine : ∀ a ∈ spent, a ∈ s.tasks
  tasks : s'.tasks + spent = s.tasks + new
  books : ∀ b t, new.filterMap (told b t) + s'.replies b t =
    s.replies b t + spent.filterMap (asker b t)
  seats : (∀ a ∈ spent, s.Seated a) →
    ∀ a ∈ new, (∃ b t ρ error did, a = .reply b t ρ error did) ∨ s'.Seated a

/-! ## What is to be done -/

section Tasks

variable {w : Work}

theorem Run.mem_tasks : a ∈ s.tasks ↔ a ∈ actions s.stack ∨ task a ∈ s.view.queue := by
  unfold tasks
  rw [mem_add, mem_coe, Multiset.mem_filterMap]
  refine or_congr_right ⟨?_, fun h => ⟨_, h, rfl⟩⟩
  rintro ⟨d, hd, e⟩
  cases d with
  | task a' =>
    cases e
    exact hd
  | job => cases e

theorem Run.replies_of_work (hw : s.work b t = some w) : s.replies b t = w.replies := by
  unfold replies
  rw [hw]
  rfl

theorem Run.replies_congr (h : s'.work = s.work) : s'.replies = s.replies := by
  funext b t
  unfold replies
  rw [h]

theorem Run.replies_of_new (hw : s.work b t = none) : s.replies b t = 0 := by
  unfold replies
  rw [hw]
  rfl

theorem Run.replies_of_put {b' : Nat} {t' : Text} (hwork : s'.work = (s.view.put b t w).work)
    (hbt : (b, t) ≠ (b', t')) : s'.replies b' t' = s.replies b' t' := by
  unfold replies
  rw [hwork, View.put_work_of_ne _ _ fun e => hbt e.symm]
  rfl

/-- An action is done, and leaves others to be done. -/
theorem Run.tasks_act {ds : List Duty} (hs : actions s.stack = a :: actions rest)
    (hs' : s'.stack = frames ++ rest) (hq : s'.view.queue = s.view.queue + (ds : Multiset Duty)) :
    s'.tasks + {a} =
      s.tasks + ((actions frames : Multiset Action) + (ds.filterMap task? : List Action)) := by
  unfold tasks
  rw [hs, hs', hq, actions_append, filterMap_add, filterMap_coe,
    ← coe_add, ← Multiset.cons_coe, ← Multiset.singleton_add]
  ac_rfl

theorem filterMap_singleton (f : Action → Option Reply) (a : Action) :
    ({a} : Multiset Action).filterMap f = ((f a).toList : List Reply) := by
  cases he : f a with
  | none => exact Multiset.filterMap_cons_none a 0 he
  | some ρ => exact Multiset.filterMap_cons_some f a 0 he

theorem filterMap_eq_zero {f : Action → Option Reply} (new : Multiset Action)
    (h : ∀ a ∈ new, f a = none) : new.filterMap f = 0 := by
  refine Multiset.eq_zero_of_forall_notMem fun ρ hρ => ?_
  obtain ⟨a, ha, e⟩ := (Multiset.mem_filterMap _ _).1 hρ
  simp [h a ha] at e

theorem Action.told_of_isPlain (h : a.isPlain = true) : a.told b t = none := by
  cases a with
  | reply => cases h
  | _ => rfl

theorem Action.told_of_admits (h : ∀ v : View, v.Admits a) : a.told b t = none := by
  cases a with
  | reply =>
    obtain ⟨-, -, w, hw, -⟩ := h .empty
    cases hw
  | _ => rfl

/-- A target that is over tells all who wait for it, and no one else. -/
theorem told_released (w : Work) (b' : Nat) (t' : Text) (error did : Bool) :
    (((w.released b t error did).filterMap task?).filterMap (told b' t') : List Reply) =
      if (b, t) = (b', t') then w.replies else [] := by
  unfold Work.released
  rw [filterMap_filterMap, filterMap_map]
  split
  · rename_i e
    have hall : ∀ ρ ∈ w.replies, ((fun d => (task? d).bind (told b' t')) ∘
        fun ρ => task (.reply b t ρ error did)) ρ = some ρ := fun ρ _ => if_pos e
    rw [filterMap_congr hall, filterMap_some]
  · rename_i e
    refine filterMap_eq_nil_iff.2 fun ρ _ => if_neg e

end Tasks

/-! ## Steps -/

namespace Talk

variable {s1 : Run} {L : Ledger}
  {now : List Action}

/-- A step by which no one asks or is told leaves the books as they are. -/
theorem of_silent (mine : ∀ a ∈ spent, a ∈ s.tasks)
    (tasks : s'.tasks + spent = s.tasks + new) (work : s'.replies = s.replies)
    (asks : ∀ a ∈ spent, ∀ b t, a.asker b t = none) (tells : ∀ a ∈ new, ∀ b t, a.told b t = none)
    (seats : (∀ a ∈ spent, s.Seated a) → ∀ a ∈ new, s'.Seated a) : Talk s s' spent new where
  mine := mine
  tasks := tasks
  books b t := by
    rw [filterMap_eq_zero new fun a ha => tells a ha b t,
      filterMap_eq_zero spent fun a ha => asks a ha b t, work, zero_add, add_zero]
  seats hspent a ha := .inr (seats hspent a ha)

theorem mine_of_stack (hs : actions s.stack = a :: actions rest) :
    ∀ a' ∈ ({a} : Multiset Action), a' ∈ s.tasks := by
  intro a' ha'
  rw [Multiset.mem_singleton.1 ha', mem_tasks, hs]
  exact .inl mem_cons_self

/-- A turn of a target tells those who wait for it if the target is over, and else no one. -/
theorem exists_of_took (hs : s.stack = .action a :: rest)
    (ht : Took s.view b t a now s1.view) (hs' : s' = { s1 with stack := now.map .action ++ rest }) :
    ∃ new, Talk s s' {a} new := by
  obtain ⟨w, u, late, fails, ends, known, turn, -, hwork1, hqueue⟩ := ht.exists_turn
  have hwork : s'.work = (s.view.put b t u).work := by
    rw [hs']
    exact hwork1
  have hacts : actions s.stack = a :: actions rest := by rw [hs, actions_action]
  have hnow : ∀ a' ∈ now, a'.isPlain = true := by
    intro a' ha'
    rcases turn.follows with rfl | ⟨-, a'', τ', rfl, hplain, -⟩
    · cases ha'
    · rw [mem_singleton.1 ha']
      exact hplain
  have hlate : ∀ a' ∈ late.filterMap task?, ∀ v : View, v.Admits a' := by
    intro a' ha'
    obtain ⟨d, hd, e⟩ := mem_filterMap.1 ha'
    cases d with
    | task a'' =>
      cases e
      exact (turn.defers hd).1
    | job => cases e
  refine ⟨_, mine_of_stack hacts, tasks_act hacts (by rw [hs']) (by rw [hs']; exact hqueue),
    fun b' t' => ?_, fun _ a' ha' => ?_⟩
  · have hask : ({a} : Multiset Action).filterMap (asker b' t') = 0 := by
      cases turn <;> rfl
    have hold : s.replies b t = w.replies := replies_of_work known
    rw [hask, add_zero, actions_map, filterMap_append, ← coe_add,
      filterMap_add, filterMap_add,
      filterMap_eq_zero _ fun a' ha' => told_of_isPlain (hnow a' ha'),
      filterMap_eq_zero _ fun a' ha' => told_of_admits (hlate a' ha'), zero_add, zero_add]
    by_cases hbt : (b, t) = (b', t')
    · cases hbt
      have hnew : s'.replies b t = u.replies :=
        replies_of_work (by rw [hwork, View.put_work_self])
      rw [hnew, hold, turn.goesOn.replies]
      cases ends with
      | true =>
        rw [if_pos rfl, filterMap_coe, told_released, if_pos rfl]
        exact add_zero _
      | false => exact zero_add _
    · rw [replies_of_put hwork hbt]
      cases ends with
      | true =>
        rw [if_pos rfl, filterMap_coe, told_released, if_neg hbt]
        exact zero_add _
      | false => exact zero_add _
  · rw [actions_map, filterMap_append, ← coe_add, mem_add, mem_add] at ha'
    rcases ha' with ha' | ha' | ha'
    · exact .inr (seated_of_isPlain (hnow a' ha'))
    · exact .inr (seated_of_admits (hlate a' ha'))
    · cases ends with
      | false => cases ha'
      | true =>
        obtain ⟨d, hd, e⟩ := mem_filterMap.1 (mem_coe.1 ha')
        obtain ⟨ρ, -, rfl⟩ := mem_map.1 hd
        cases e
        exact .inl ⟨_, _, _, _, _, rfl⟩

/-- Who asks for a target is told at once, or later, or waits. -/
theorem exists_of_asked {stack : List Text} {avoidLoop report : Bool}
    (hs : s.stack = .action (.make b t stack ρ avoidLoop report) :: rest)
    (ha : Asked s s1 b t ρ avoidLoop now)
    (hs' : s' = { s1 with stack := now.map .action ++ rest }) :
    ∃ new, Talk s s' {.make b t stack ρ avoidLoop report} new := by
  have hwork : s'.work = s1.view.work := by
    rw [hs']
    rfl
  have hqueue : s'.view.queue = s1.view.queue := by
    rw [hs']
    rfl
  -- Only the books of the target at hand change.
  have htalk : ∀ {D : List Duty} {N : Multiset Action} {u : Work},
      s1.view.queue = s.view.queue + (D : Multiset Duty) →
      (now : Multiset Action) + (D.filterMap task? : List Action) = N →
      s1.view.work = (s.view.put b t u).work →
      N.filterMap (told b t) + u.replies = s.replies b t + {ρ} →
      (∀ b' t', (b, t) ≠ (b', t') → N.filterMap (told b' t') = 0) →
      (∀ a ∈ N, (∃ b t ρ error did, a = .reply b t ρ error did) ∨ s'.Seated a) →
      ∃ new, Talk s s' {.make b t stack ρ avoidLoop report} new := by
    intro D N u hq hnew hw hself hother hseats
    have hself' : s'.replies b t = u.replies :=
      replies_of_work (by rw [hwork, hw, View.put_work_self])
    have hacts : actions s.stack = .make b t stack ρ avoidLoop report :: actions rest := by
      rw [hs, actions_action]
    have htasks := tasks_act hacts (by rw [hs']) (hqueue.trans hq)
    rw [actions_map, hnew] at htasks
    refine ⟨N, mine_of_stack hacts, htasks, fun b' t' => ?_, fun _ => hseats⟩
    rw [filterMap_singleton, asker]
    by_cases hbt : (b, t) = (b', t')
    · cases hbt
      rw [hself', if_pos rfl]
      exact hself
    · rw [hother b' t' hbt, replies_of_put (hwork.trans hw) hbt, if_neg hbt]
      exact (zero_add _).trans (add_zero _).symm
  have hreplied : ∀ error did, ∀ a ∈ ({.reply b t ρ error did} : Multiset Action),
      (∃ b t ρ error did, a = .reply b t ρ error did) ∨ s'.Seated a :=
    fun error did a ha => .inl ⟨_, _, _, _, _, Multiset.mem_singleton.1 ha⟩
  cases ha with
  | @answered w known ended view =>
    refine htalk
      (by rw [view]; exact (add_zero _).symm) (add_zero _)
        (by rw [view, View.put_eq_self _ known]) ?_
      (fun b' t' hbt => by rw [filterMap_singleton, told, if_neg hbt]; rfl) (hreplied _ _)
    rw [filterMap_singleton, told, if_pos rfl, replies_of_work known]
    exact add_comm _ _
  | @joined w known working view =>
    refine htalk
      (by rw [view]; exact (add_zero _).symm) (add_zero _) (by rw [view]) ?_ (fun _ _ _ => rfl)
      fun a ha => absurd ha (notMem_zero a)
    rw [replies_of_work known]
    exact (zero_add _).trans (coe_add w.replies [ρ]).symm
  | @barren error serial indent new _ _ view =>
    refine htalk
      (N := {.reply b t ρ error false}) (by rw [view]; rfl) (zero_add _) (by rw [view]; rfl) ?_
      (fun b' t' hbt => by rw [filterMap_singleton, told, if_neg hbt]; rfl) (hreplied _ _)
    rw [filterMap_singleton, told, if_pos rfl, replies_of_new new, zero_add]
    exact add_zero _
  | @begun serial indent rules new _ _ view =>
    have hplain : ∀ a ∈ ((if serial then [.recipeDone b t false] else [] : List Action) :
        Multiset Action) +
        ((Work.firstDuties b t serial rules.length).filterMap task? : List Action),
        a.isPlain = true := by
      intro a ha
      cases serial with
      | true =>
        obtain rfl : a = .recipeDone b t false := by
          rcases mem_add.1 ha with ha | ha
          · exact mem_singleton.1 (mem_coe.1 ha)
          · cases ha
        rfl
      | false =>
        rcases mem_add.1 ha with ha | ha
        · cases ha
        · obtain ⟨d, hd, e⟩ := mem_filterMap.1 (mem_coe.1 ha)
          obtain ⟨i, -, rfl⟩ := mem_map.1 hd
          cases e
          rfl
    have htold := fun b' t' => filterMap_eq_zero _ fun a ha =>
      told_of_isPlain (b := b') (t := t') (hplain a ha)
    refine htalk
      (by rw [view]; rfl) rfl (by rw [view]; rfl) ?_ (fun b' t' _ => htold b' t')
      fun a ha => .inr (seated_of_isPlain (hplain a ha))
    rw [htold, replies_of_new new]
    rfl

/-- An action other than a turn or a request tells no one. -/
theorem exists_of_other {D : List Duty} (hs : actions s.stack = a :: actions rest)
    (hs' : s' = { s1 with stack := frames ++ rest })
    (hq : s1.view.queue = s.view.queue + (D : Multiset Duty)) (hw : s'.replies = s.replies)
    (ha : ∀ b t, a.asker b t = none)
    (hlater : ∀ d ∈ D, ∃ e code, d = task (.exit e code))
    (hframes : ∀ a' ∈ actions frames, (∀ b t, a'.told b t = none) ∧ (s.Seated a → s1.Seated a')) :
    ∃ new, Talk s s' {a} new := by
  have hlate : ∀ a' ∈ D.filterMap task?, ∃ e code, a' = .exit e code := by
    intro a' ha'
    obtain ⟨d, hd, e⟩ := mem_filterMap.1 ha'
    obtain ⟨e', code, rfl⟩ := hlater d hd
    cases e
    exact ⟨e', code, rfl⟩
  refine ⟨_, of_silent (mine_of_stack hs) (tasks_act hs (by rw [hs']) (by rw [hs']; exact hq)) hw
    (fun a' ha' => ?_) (fun a' ha' => ?_) fun hseat a' ha' => ?_⟩
  · rw [Multiset.mem_singleton.1 ha']
    exact ha
  · rcases mem_add.1 ha' with ha' | ha'
    · exact (hframes a' ha').1
    · obtain ⟨e, code, rfl⟩ := hlate a' ha'
      exact fun _ _ => rfl
  · rcases mem_add.1 ha' with ha' | ha'
    · have hsame : s1.Enlarges .outside s' := by
        rw [hs']
        exact RunFrame.stack s1 _ s1.phase
      exact hsame.seated ((hframes a' ha').2 (hseat a (Multiset.mem_singleton_self a)))
    · obtain ⟨e, code, rfl⟩ := hlate a' ha'
      trivial

/-- Who passes on the thread of a make tells no one. -/
theorem exists_of_passes (hB : Balanced h s.view L) (hs : s.stack = .action a :: rest)
    (hp : Passes s.view a.post now s1.view) (hg : Gives (perform a) s (now.map .action) s1)
    (hs' : s' = { s1 with stack := now.map .action ++ rest }) (ha : ∀ b t, a.asker b t = none)
    (hown : ∀ τ, a.post ≠ .own τ) : ∃ new, Talk s s' {a} new := by
  have hacts : actions s.stack = a :: actions rest := by rw [hs, actions_action]
  have hadm := hB.admits a (by rw [show actions s.view.stack = _ from hacts]; exact mem_cons_self)
  have hask : ∀ b t stack ρ avoidLoop report, a ≠ .make b t stack ρ avoidLoop report := by
    rintro b t stack ρ avoidLoop report rfl
    have hnone : (if (b, t) = (b, t) then some ρ else none) = none := ha b t
    simp at hnone
  have hseats : s.Seated a → ∀ a' ∈ actions (now.map Frame.action), s1.Seated a' :=
    fun hseat => perform_seats hadm hseat hown hg hask
  have hw : s'.replies = s.replies := by
    refine replies_congr ?_
    rw [hs']
    exact hp.work
  generalize hv1 : s1.view = v1 at hp
  cases hp with
  | ask grows | proceed grows =>
    refine exists_of_other hacts hs' (by rw [hv1, grows.queue]; exact (add_zero _).symm) hw ha
      (forall_mem_nil _) fun a' ha' => ⟨?_, fun hseat => hseats hseat a' ha'⟩
    cases mem_singleton.1 ha'
    exact fun _ _ => rfl
  | @exit v2 e code grows =>
    refine exists_of_other hacts hs' ?_ hw ha
      (fun d hd => ⟨e, code, mem_singleton.1 hd⟩) (forall_mem_nil _)
    rw [hv1]
    show v2.queue + _ = _
    rw [grows.queue]

/-- An action that succeeds tells and books what it should. -/
theorem exists_of_does (hB : Balanced h s.view L) (hs : s.stack = .action a :: rest)
    (hd : Does s s1 a frames) (hg : Gives (perform a) s frames s1)
    (hs' : s' = { s1 with stack := frames ++ rest }) : ∃ new, Talk s s' {a} new := by
  have hacts : actions s.stack = a :: actions rest := by rw [hs, actions_action]
  cases hd with
  | took ht => exact exists_of_took hs ht hs'
  | asks calm view =>
    refine exists_of_other hacts hs' (by rw [view]; exact (add_zero _).symm)
      (replies_congr (by rw [hs']; exact congrArg View.work view)) (fun _ _ => rfl)
      (forall_mem_nil _) fun a' ha' => ?_
    cases mem_singleton.1 ha'
    exact ⟨fun _ _ => rfl, fun _ => trivial⟩
  | asked ha => exact exists_of_asked hs ha hs'
  | @told b t ρ error did now make hp =>
    refine exists_of_passes hB hs hp hg hs' (fun _ _ => rfl) fun τ => ?_
    cases ρ with
    | dependent => cases make
    | _ => exact Post.noConfusion
  | proceeds hp => exact exists_of_passes hB hs hp hg hs' (fun _ _ => rfl) fun _ => Post.noConfusion
  | reads hgrow =>
    refine exists_of_other hacts hs' (by rw [hgrow.queue]; exact (add_zero _).symm)
      (replies_congr (by rw [hs']; exact hgrow.work)) (fun _ _ => rfl)
      (forall_mem_nil _) fun a' ha' => ?_
    cases mem_singleton.1 ha'
    exact ⟨fun _ _ => rfl, fun _ => trivial⟩
  | parses hp => exact exists_of_passes hB hs hp hg hs' (fun _ _ => rfl) fun _ => Post.noConfusion
  | starts hgrow started =>
    refine exists_of_other hacts hs' (by rw [hgrow.queue]; exact (add_zero _).symm)
      (replies_congr (by rw [hs']; exact hgrow.work)) (fun _ _ => rfl)
      (forall_mem_nil _) fun a' ha' => ?_
    cases started with
    | quits | there =>
      cases mem_singleton.1 ha'
      exact ⟨fun _ _ => rfl, fun _ => trivial⟩
  | ends state =>
    refine exists_of_other hacts hs' (by rw [state]; exact (add_zero _).symm)
      (replies_congr (by rw [hs', state]; rfl)) (fun _ _ => rfl)
      (forall_mem_nil _) (forall_mem_nil _)

/-- A complaint that a guard answers tells no one. -/
theorem exists_of_complaint {s2 : Run} {g : Guard} {e : Error}
    (hs : s.stack = .action a :: .guard g :: rest) (hmay : a.mayComplain = true)
    (hf : Fails (perform a) s e s1) (hans : Gives (answer e g) s1 frames s2)
    (hs' : s' = { s2 with stack := frames ++ rest }) : ∃ new, Talk s s' {a} new := by
  have hask : ∀ b t, a.asker b t = none := by
    intro b t
    cases a with
    | make => cases hmay
    | _ => rfl
  have hfits : s1.view.queue = s.view.queue ∧ s1.replies = s.replies := by
    rcases complains hmay hf with hgrow | ⟨r, error, w, lines, rfl, hw, e1⟩
    · exact ⟨hgrow.queue, replies_congr hgrow.work⟩
    · refine ⟨by rw [e1]; rfl, ?_⟩
      funext b t
      have hwork : s1.work = _ := congrArg View.work e1
      by_cases hbt : (r.build, r.target) = (b, t)
      · cases hbt
        rw [replies_of_work hw, replies_of_work (by rw [hwork, View.put_work_self])]
        rfl
      · exact replies_of_put hwork hbt
  obtain ⟨hqueue, hreplies⟩ := hfits
  obtain ⟨ds, e2, hds, hframes⟩ := answer_view hans
  refine exists_of_other (by rw [hs]; rfl) hs' ?_ ?_ hask hds fun a' ha' => ?_
  · rw [e2]
    show s1.view.queue + _ = _
    rw [hqueue]
  · rw [← hreplies]
    refine replies_congr ?_
    rw [hs']
    exact congrArg View.work e2
  · obtain ⟨e', code, rfl⟩ := hframes a' ha'
    exact ⟨fun _ _ => rfl, fun _ => trivial⟩

/-- A step that does no action tells no one. -/
theorem exists_of_idle (hst : Stepped s s') (hrun : ¬ s'.Broken)
    (hno : ∀ a rest, s.stack ≠ .action a :: rest) :
    ∃ new, Talk s s' 0 new := by
  have hnone : ∀ {N : Multiset Action}, s'.tasks = s.tasks + N → s'.work = s.work →
      (∀ a ∈ N, ∃ e code, a = .exit e code) → ∃ new, Talk s s' 0 new := by
    intro N htasks hwork hexits
    refine ⟨N, of_silent (fun a ha => absurd ha (notMem_zero a)) (by rw [htasks, add_zero])
      (replies_congr hwork) (fun a ha => absurd ha (notMem_zero a)) (fun a ha => ?_)
      fun _ a ha => ?_⟩
    · obtain ⟨e, code, rfl⟩ := hexits a ha
      exact fun _ _ => rfl
    · obtain ⟨e, code, rfl⟩ := hexits a ha
      trivial
  have hzero : ∀ a ∈ (0 : Multiset Action), ∃ e code, a = exit e code :=
    fun a ha => absurd ha (notMem_zero a)
  cases hst with
  | act stack => exact absurd stack (hno _ _)
  | complaint stack => exact absurd stack (hno _ _)
  | @pop g rest stack state =>
    refine hnone ?_ (by rw [state]; rfl) hzero
    unfold Run.tasks
    rw [state, stack, actions_guard, add_zero]
    rfl
  | @task a queue stack taken view _ =>
    refine hnone ?_ (congrArg View.work view) hzero
    unfold Run.tasks
    rw [show s'.stack = s'.view.stack from rfl, view, taken, stack, filterMap_add, add_zero,
      actions_nil, Multiset.coe_nil, zero_add]
    exact add_comm _ _
  | idle stack view _ =>
    refine hnone ?_ (congrArg View.work view) hzero
    unfold Run.tasks
    rw [show s'.stack = s'.view.stack from rfl, view, add_zero]
    rfl
  | @report jobs queue stack taken view _ =>
    have hjobs : (jobs.map fun j => job j.1).filterMap task? = [] := by
      refine filterMap_eq_nil_iff.2 fun d hd => ?_
      obtain ⟨j, -, rfl⟩ := mem_map.1 hd
      rfl
    have hactions : actions (jobs.map fun j => .action (.exit j.1 j.2)) =
        jobs.map fun j => .exit j.1 j.2 := by
      rw [← actions_map (jobs.map _), map_map]
      rfl
    refine hnone (N := (jobs.map fun j => exit j.1 j.2 : List Action)) ?_
      (congrArg View.work view) fun a ha => ?_
    · unfold Run.tasks
      rw [show s'.stack = s'.view.stack from rfl, view, taken, stack, filterMap_add,
        filterMap_coe, hjobs, hactions, actions_nil, Multiset.coe_nil, add_zero, zero_add]
      exact add_comm _ _
    · obtain ⟨j, -, rfl⟩ := mem_map.1 (mem_coe.1 ha)
      exact ⟨_, _, rfl⟩
  | abort _ outcome => exact absurd ⟨_, outcome⟩ hrun

end Talk

namespace Move

theorem talk_act (hm : Move h s s') (hs : s.stack = .action a :: rest) :
    ∃ new, Talk s s' {a} new := by
  obtain ⟨L, hB⟩ := hm.balanced
  cases hm.stepped.acted hs with
  | gives gives state => exact Talk.exists_of_does hB hs (hB.does_of_gives hs gives) gives state
  | complaint guarded may fails answered state =>
    subst guarded
    exact Talk.exists_of_complaint hs may fails answered state
  | abort _ outcome => exact absurd ⟨_, outcome⟩ hm.runs

theorem talk_pass (hm : Move h s s') (hd : s.doing = none) : ∃ new, Talk s s' 0 new := by
  refine Talk.exists_of_idle hm.stepped hm.runs fun a rest hs => ?_
  unfold doing at hd
  simp [hm.goes, hs] at hd

end Move

/-! ## Runs -/

/-- Makes are in their ranks, and whoever asks belongs where they ask. -/
structure Run.Nested (s : Run) : Prop where
  ranked : s.Ranked .outside
  tasks : ∀ a ∈ s.tasks, s.Seated a
  replies : ∀ b t ρ, ρ ∈ s.replies b t → s.Seats b ρ

namespace Talk

/-- Whoever is kept in the books was there before, or asks now. -/
theorem seated (hT : Talk s s' spent new) (hN : s.Nested)
    (hρ : ρ ∈ new.filterMap (told b t) + s'.replies b t) : s.Seats b ρ := by
  rw [hT.books, mem_add] at hρ
  rcases hρ with hρ | hρ
  · exact hN.replies b t ρ hρ
  · obtain ⟨a, ha, e⟩ := (Multiset.mem_filterMap _ _).1 hρ
    have hseat := hN.tasks a (hT.mine a ha)
    cases a with
    | make b' t' stack ρ' avoidLoop report =>
      have hask : (if (b', t') = (b, t) then some ρ' else none) = some ρ := e
      split at hask
      · rename_i hbt
        cases hbt
        cases hask
        exact hseat
      · cases hask
    | _ => cases e

/-- **A step keeps makes and those who ask in their places.** -/
theorem nested {e : ExitTo} (hT : Talk s s' spent new) (hN : s.Nested) (he : s.Enlarges e s')
    (hr : s'.Ranked .outside) : s'.Nested := by
  refine ⟨hr, fun a ha => ?_, fun b t ρ hρ => ?_⟩
  · have hmem : a ∈ s.tasks + new := by
      rw [← hT.tasks]
      exact mem_add.2 (.inl ha)
    rcases mem_add.1 hmem with hold | hnew
    · exact he.seated (hN.tasks a hold)
    · rcases hT.seats (fun a ha => hN.tasks a (hT.mine a ha)) a hnew with
        ⟨b, t, ρ, error, did, rfl⟩ | hseat
      · refine he.seats (hT.seated hN (t := t) (mem_add.2 (.inl ?_)))
        exact (Multiset.mem_filterMap _ _).2 ⟨_, hnew, if_pos rfl⟩
      · exact hseat
  · exact he.seats (hT.seated hN (mem_add.2 (.inr hρ)))

end Talk

section Courses

variable {w : World} {args : List Text} {env : Env} {cwd : Text}

/-- One deed more counts for what it is. -/
theorem filterMap_deeds_cons (f : Action → Option Reply) (d : Deed) (h : List Deed) :
    (((d :: h).filterMap fun d => f d.action : List Reply) : Multiset Reply) =
      ({d.action} : Multiset Action).filterMap f +
      (h.filterMap fun d => f d.action : List Reply) := by
  rw [← Multiset.coe_singleton, filterMap_coe, coe_add, filterMap_cons]
  cases he : f d.action <;> simp [he]

/-- Those who are about to be told, and those who wait. -/
def Run.unanswered (s : Run) (b : Nat) (t : Text) : Multiset Reply :=
  s.tasks.filterMap (told b t) + s.replies b t

/-- A step tells and books what it should. -/
theorem Talk.unanswered (hT : Talk s s' spent new) (b : Nat)
    (t : Text) : s'.unanswered b t + spent.filterMap (told b t) =
      s.unanswered b t + spent.filterMap (asker b t) := by
  have htasks := congrArg (Multiset.filterMap (told b t)) hT.tasks
  rw [filterMap_add, filterMap_add] at htasks
  calc s'.tasks.filterMap (told b t) + s'.replies b t + spent.filterMap (told b t)
    _ = s'.tasks.filterMap (told b t) + spent.filterMap (told b t) +
        s'.replies b t := by ac_rfl
    _ = s.tasks.filterMap (told b t) +
        (new.filterMap (told b t) + s'.replies b t) := by rw [htasks, add_assoc]
    _ = s.tasks.filterMap (told b t) + s.replies b t + spent.filterMap (asker b t) := by
        rw [hT.books, add_assoc]

/-- **Whoever has asked for a target was told, is about to be told, or waits for it**, all through a
run. -/
theorem Course.answers (hc : Course (.init w args env cwd) h s) :
    s.Broken ∨ ∀ b t, askers h b t = answered h b t + s.unanswered b t := by
  refine hc.invariant (P := fun h s => ∀ b t, askers h b t = answered h b t + s.unanswered b t)
    (fun b t => rfl) (fun {h s s' a rest} ih hm hs b t => ?_) fun {h s s'} ih hm hd b t => ?_
  · obtain ⟨new, hT⟩ := hm.talk_act hs
    have hstep := hT.unanswered b t
    have hold := ih b t
    unfold askers answered at hold ⊢
    rw [filterMap_deeds_cons, filterMap_deeds_cons, hold, add_left_comm,
      add_comm _ (s.unanswered b t), ← hstep]
    ac_rfl
  · obtain ⟨new, hT⟩ := hm.talk_pass hd
    have hstep := hT.unanswered b t
    rw [Multiset.filterMap_zero, Multiset.filterMap_zero, add_zero, add_zero] at hstep
    rw [ih b t, hstep]

/-- **Whoever asks belongs where they ask**, all through a run. -/
theorem Course.nested (hc : Course (.init w args env cwd) h s) : s.Broken ∨ s.Nested := by
  refine hc.invariant (P := fun _ s => s.Nested) ?_ (fun {h s s' a rest} ih hm hs => ?_)
    fun {h s s'} ih hm hd => ?_
  · refine ⟨⟨fun b m hb => ?_, fun b m x r line hb => ?_,
      fun m x r line hx => ?_, fun r line e => ?_⟩,
      fun a ha => ?_, fun b t ρ hρ => absurd hρ (notMem_zero ρ)⟩
    · cases hb
    · cases hb
    · cases hx
    · cases e
    · obtain rfl : a = .start args env cwd .outside := by
        rcases mem_tasks.1 ha with ha | ha
        · exact mem_singleton.1 ha
        · exact absurd ha (notMem_zero _)
      trivial
  · obtain ⟨new, hT⟩ := hm.talk_act hs
    obtain ⟨schedule, rfl⟩ := hm.step
    have he := s.step_enlarges schedule
    have hdoing : s.doing = some a := by
      unfold doing
      rw [hm.goes, hs]
    rw [hdoing] at he
    obtain ⟨L, hB⟩ := hm.balanced
    have hr : s.Ranked a.receiver := by
      refine ⟨ih.ranked.make, ih.ranked.below, ih.ranked.there, fun r line hrec => ?_⟩
      cases a with
      | start args env cwd e =>
        obtain rfl : e = .recipe r line := hrec
        obtain ⟨-, w, hw, -⟩ := (hB.accounts_cons hs).stages
          (Multiset.mem_cons_self _ _) rfl
        exact hB.accounts.seat _ _ w hw
      | _ => cases hrec
    have hr' := he.ranked hr
    exact hT.nested ih he ⟨hr'.make, hr'.below, hr'.there, fun r line e => ExitTo.noConfusion e⟩
  · obtain ⟨new, hT⟩ := hm.talk_pass hd
    obtain ⟨schedule, rfl⟩ := hm.step
    have he := s.step_enlarges schedule
    rw [hd] at he
    exact hT.nested ih he (he.ranked ih.ranked)

end Courses

end Rebuild
