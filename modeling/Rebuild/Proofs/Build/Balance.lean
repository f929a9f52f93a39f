import Rebuild.Proofs.Build.Ledger
/-!
# The balance of a run

What holds of every state that a run comes to (`Balanced`): the accounts of its threads balance;
what it does, what waits in its queues and who waits for targets can rely on what they are for; and
a complaint that a guard answers ends no more than what the guard is around. This module shows how
the balance is kept by actions that pass on the thread of a make or ask for a target.
-/

namespace Rebuild

open List Ledger Rebuild.Action

variable {frames rest : List Frame} {a a' : Action} {v v' : View} {L L' : Ledger} {p : Post}
  {queue : Multiset Duty} {u : Work}

/-- The actions among what is being done. -/
def actions : List Frame → List Action
  | [] => []
  | .action a :: rest => a :: actions rest
  | .guard _ :: rest => actions rest

/-- What the threads of a run are for: what is being done, what waits or runs, and those who wait
for targets. -/
def Ledger.posts (L : Ledger) (frames : List Frame) (queue : Multiset Duty) : Multiset Post :=
  ((actions frames).map post : List Post) + queue.map Duty.post +
    L.waits.map fun p => p.2.2.post p.2.1

/-- What remains to be done after the action at hand: guards, and then exit codes to be told. -/
inductive Rest : List Frame → Prop
  | exits {frames : List Frame} (h : ∀ f ∈ frames, ∃ e code, f = .action (.exit e code)) :
      Rest frames
  | guard {g : Guard} {rest : List Frame} (h : Rest rest) : Rest (.guard g :: rest)

/-- Does something belong to a target itself? -/
def Post.isOwn : Post → Bool
  | .own _ => true
  | _ => false

/-- The thread of a make is linked to what is being done: that is done for the make itself, or for
a target on which the make waits and whose rules follow each other. -/
inductive Linked (v : View) (L : Ledger) (p : Post) (τ : Thread) : Prop
  | same (make : p.isOwn = false) (thread : v.thread p = τ)
  | waits {b : Nat} {t : Text} {ρ : Reply} {w : Work} {τ' : Thread} (own : p = .own τ')
      (owner : τ'.owner = some (b, t)) (past : ∀ r d weak, τ' ≠ .dep r d weak)
      (known : v.work b t = some w) (serial : w.serial = true) (mem : (b, t, ρ) ∈ L.waits)
      (make : ρ.isMake = true) (thread : v.thread (ρ.post t) = τ)

/-- A complaint of an action is answered by the guard around it in the place of the action. -/
def Guarded (v : View) (L : Ledger) : Action → List Frame → Prop
  | a, .guard (.parse m) :: _ => Linked v L a.post (v.thread (.make m)) ∧ v.Knows (.make m)
  | a, .guard (.start _ _ _ e) :: rest =>
    (∃ m, a = .proceed m true none) ∧ v.thread a.post = e.thread ∧ Guarded v L (.exit e 2) rest
  | _, _ => True

/-- What holds of every state that a run comes to. -/
structure Balanced (h : List Deed) (v : View) (L : Ledger) : Prop where
  wired : v.Wired
  accounts : Accounts h v L ((L.posts v.stack v.queue).map v.thread)
  shape : Rest v.stack ∨ ∃ a rest, v.stack = .action a :: rest ∧ Rest rest
  admits : ∀ a ∈ actions v.stack, v.Admits a
  queued : ∀ a, Duty.task a ∈ v.queue → v.Admits a ∧ a.isLate = true
  waiting : ∀ b t ρ, (b, t, ρ) ∈ L.waits → v.Knows (ρ.post t) ∧ ρ.Within b
  guarded : ∀ a rest, v.stack = .action a :: rest → Guarded v L a rest

/-! ## Frames -/

section Frames

@[simp] theorem actions_nil : actions [] = [] := rfl

@[simp] theorem actions_action (a : Action) (rest : List Frame) :
    actions (.action a :: rest) = a :: actions rest := rfl

@[simp] theorem actions_guard (g : Guard) (rest : List Frame) :
    actions (.guard g :: rest) = actions rest := rfl

theorem actions_map (as : List Action) : actions (as.map Frame.action) = as := by
  induction as with
  | nil => rfl
  | cons a as ih => rw [map_cons, actions_action, ih]

theorem actions_append (frames rest : List Frame) :
    actions (frames ++ rest) = actions frames ++ actions rest := by
  induction frames with
  | nil => rfl
  | cons f frames ih =>
    cases f with
    | action a => rw [cons_append, actions_action, ih, actions_action, cons_append]
    | guard g => rw [cons_append, actions_guard, ih, actions_guard]

theorem Rest.actions_exit (h : Rest frames) (ha : a ∈ actions frames) :
    ∃ e code, a = .exit e code := by
  induction h with
  | @exits frames h =>
    induction frames with
    | nil => cases ha
    | cons f rest ih =>
      obtain ⟨e, code, rfl⟩ := h f mem_cons_self
      rcases mem_cons.1 ha with rfl | ha
      · exact ⟨e, code, rfl⟩
      · exact ih (fun f hf => h f (mem_cons_of_mem _ hf)) ha
  | guard _ ih => exact ih ha

/-- Below an action among the rest there are exit codes only. -/
theorem Rest.of_action (h : Rest (.action a :: rest)) :
    ∀ f ∈ rest, ∃ e code, f = .action (.exit e code) := by
  cases h with
  | exits h => exact fun f hf => h f (mem_cons_of_mem _ hf)

theorem Guarded.of_exits (h : ∀ f ∈ rest, ∃ e code, f = .action (.exit e code)) :
    Guarded v L a rest := by
  cases rest with
  | nil => trivial
  | cons f rest =>
    obtain ⟨e, code, rfl⟩ := h f mem_cons_self
    trivial

theorem Rest.stacked (h : Rest frames) : Stacked frames := by
  induction h with
  | exits h =>
    refine .plain fun f hf => ?_
    obtain ⟨e, code, rfl⟩ := h f hf
    exact ⟨_, rfl⟩
  | guard _ ih => exact .guard ih

theorem actions_guards (hg : ∀ f ∈ frames, ∃ g, f = .guard g) :
    actions (frames ++ rest) = actions rest := by
  induction frames with
  | nil => rfl
  | cons f frames ih =>
    obtain ⟨g, rfl⟩ := hg f mem_cons_self
    exact ih fun f hf => hg f (mem_cons_of_mem _ hf)

theorem Rest.guards (hg : ∀ f ∈ frames, ∃ g, f = .guard g) (h : Rest rest) :
    Rest (frames ++ rest) := by
  induction frames with
  | nil => exact h
  | cons f frames ih =>
    obtain ⟨g, rfl⟩ := hg f mem_cons_self
    exact .guard (ih fun f hf => hg f (mem_cons_of_mem _ hf))

theorem Rest.of_guard {g : Guard} (h : Rest (.guard g :: rest)) : Rest rest := by
  cases h with
  | exits h => exact .exits fun f hf => h f (mem_cons_of_mem _ hf)
  | guard h => exact h

end Frames

/-! ## Threads -/

variable {b : Nat} {t : Text}

section Threads

theorem View.Admits.knows (h : v.Admits a) : v.Knows a.post := by
  cases a with
  | make => exact h.1
  | reply => exact h.1
  | proceed => exact h
  | parse m =>
    obtain ⟨x, hx, _⟩ := h
    exact Option.isSome_iff_exists.2 ⟨x, hx⟩
  | _ => trivial

theorem ExitTo.thread_ne (e : ExitTo) : (∀ r e', e.thread ≠ .resolved r e') := by
  cases e <;> nofun

/-- Only what is being done can be that the prerequisites of a rule are done. -/
theorem View.thread_ne (v : View) (hp : ∀ r e, p ≠ .own (.resolved r e)) (r : RuleAt) (e : Bool) :
    v.thread p ≠ .resolved r e := by
  have hmake : ∀ x : Option Make, x.elim Thread.top (·.receiver.thread) ≠ .resolved r e := by
    intro x
    cases x with
    | none => nofun
    | some x => exact x.receiver.thread_ne r e
  cases p with
  | own τ => exact fun h => hp r e (congrArg Post.own h)
  | make m => exact hmake _
  | makefiles b => exact hmake _

theorem Reply.post_ne (ρ : Reply) (t : Text) (r : RuleAt) (e : Bool) :
    ρ.post t ≠ .own (.resolved r e) := by
  cases ρ <;> nofun

theorem Action.post_ne (h : a.isLate = true) (r : RuleAt) (e : Bool) :
    a.post ≠ .own (.resolved r e) := by
  cases a with
  | make => exact Reply.post_ne _ _ r e
  | reply => exact Reply.post_ne _ _ r e
  | resolved => cases h
  | exit e => cases e <;> nofun
  | start _ _ _ e => cases e <;> nofun
  | _ => nofun

theorem Ledger.posts_cons (L : Ledger) (a : Action) (rest : List Frame) (queue : Multiset Duty) :
    L.posts (.action a :: rest) queue = a.post ::ₘ L.posts rest queue := by
  unfold posts
  rw [actions_action, map_cons, ← Multiset.cons_coe, Multiset.cons_add, Multiset.cons_add]

/-- What is done at once and what is put into the queue are further threads. -/
theorem Ledger.posts_append (L : Ledger) (now : List Action) (rest : List Frame)
    (queue : Multiset Duty) (late : List Duty) :
    L.posts (now.map .action ++ rest) (queue + (late : Multiset Duty)) =
      (now.map post ++ late.map Duty.post : List Post) + L.posts rest queue := by
  unfold posts
  rw [actions_append, actions_map, map_append, Multiset.map_add, Multiset.map_coe,
    ← Multiset.coe_add, ← Multiset.coe_add]
  ac_rfl

theorem Ledger.posts_wait (L : Ledger) (frames : List Frame) (queue : Multiset Duty) (b : Nat)
    (t : Text) (ρ : Reply) :
    posts { L with waits := (b, t, ρ) ::ₘ L.waits } frames queue =
      ρ.post t ::ₘ L.posts frames queue := by
  unfold posts
  rw [Multiset.map_cons, Multiset.add_cons]

theorem Ledger.mem_posts : p ∈ L.posts frames queue ↔
    (∃ a ∈ actions frames, a.post = p) ∨ (∃ q ∈ queue, q.post = p) ∨
      ∃ b t ρ, (b, t, ρ) ∈ L.waits ∧ Reply.post t ρ = p := by
  simp only [posts, Multiset.mem_add, Multiset.mem_coe, mem_map, Multiset.mem_map,
    or_assoc, Prod.exists]

/-- Besides the action at hand nothing is that the prerequisites of a rule are done. -/
theorem Ledger.resolved_not_mem (hrest : Rest rest)
    (hqueue : ∀ a, Duty.task a ∈ queue → a.isLate = true) (r : RuleAt) (e : Bool) :
    Thread.resolved r e ∉ (L.posts rest queue).map v.thread := by
  intro h
  obtain ⟨p, hp, he⟩ := Multiset.mem_map.1 h
  refine v.thread_ne (fun r e => ?_) r e he
  rcases mem_posts.1 hp with ⟨a, ha, rfl⟩ | ⟨q, hq, rfl⟩ | ⟨b, t, ρ, _, rfl⟩
  · obtain ⟨e', code, rfl⟩ := hrest.actions_exit ha
    exact post_ne rfl r e
  · cases q with
    | task a => exact post_ne (hqueue a hq) r e
    | job e' => cases e' <;> nofun
  · exact Reply.post_ne ρ t r e

end Threads

/-! ## What stays true -/

/-- Makes and builds stay what they are, what is finished stays so, and rules that follow each
other go on doing so. -/
structure View.Onward (v v' : View) : Prop where
  knows : ∀ p, v.Knows p → v'.Knows p
  thread : ∀ p, v.Knows p → v'.thread p = v.thread p
  ended : ∀ b t w, v.work b t = some w → w.progress = .finished →
    ∃ w', v'.work b t = some w' ∧ w'.progress = .finished ∧ w'.error = w.error
  serial : ∀ b t w, v.work b t = some w → w.serial = true →
    ∃ w', v'.work b t = some w' ∧ w'.serial = true

namespace View.Onward

theorem of_grows (hg : v.Grows v') (hv : v.Wired) : v.Onward v' where
  knows _ := hg.knows
  thread _ := hg.thread hv
  ended b t w hw hf := ⟨w, by rw [hg.work, hw], hf, rfl⟩
  serial b t w hw hs := ⟨w, by rw [hg.work, hw], hs⟩

/-- What is new about the work on one target does not make it finished, nor parallel. -/
theorem of_work (hmake : v'.make = v.make) (hboss : v'.boss = v.boss)
    (hwork : v'.work = (v.put b t u).work)
    (hu : ∀ w, v.work b t = some w → w.progress ≠ .finished ∧ u.serial = w.serial) :
    v.Onward v' where
  knows p hp := by
    cases p with
    | own => trivial
    | make m => rwa [View.Knows, hmake]
    | makefiles b => rwa [View.Knows, hboss]
  thread p _ := by
    cases p with
    | own => rfl
    | make m => rw [View.thread, View.thread, hmake]
    | makefiles b => rw [View.thread, View.thread, hboss, hmake]
  ended b' t' w hw hf := by
    refine ⟨w, ?_, hf, rfl⟩
    rw [hwork, View.put_work_of_ne, hw]
    intro e
    cases e
    exact (hu w hw).1 hf
  serial b' t' w hw hs := by
    by_cases hbt : (b', t') = (b, t)
    · cases hbt
      exact ⟨u, by rw [hwork, View.put_work_self], (hu w hw).2.trans hs⟩
    · exact ⟨w, by rw [hwork, View.put_work_of_ne _ _ hbt, hw], hs⟩

/-- The same, in a view of which only the stack and the queue are different from there. -/
theorem of_put {stack : List Frame}
    (hv : v' = { v.put b t u with stack := stack, queue := queue })
    (hu : ∀ w, v.work b t = some w → w.progress ≠ .finished ∧ u.serial = w.serial) :
    v.Onward v' := by
  rw [hv]
  exact .of_work rfl rfl rfl hu

theorem admits (ho : v.Onward v') (ha : v.Admits a) (hlate : a.isLate = true) : v'.Admits a := by
  cases a with
  | make => exact ⟨ho.knows _ ha.1, ha.2⟩
  | reply b t ρ error did =>
    obtain ⟨hk, hin, w, hw, hf, he⟩ := ha
    obtain ⟨w', hw', hf', he'⟩ := ho.ended b t w hw hf
    exact ⟨ho.knows _ hk, hin, w', hw', hf', he'.trans he⟩
  | proceed m => exact ho.knows (.make m) ha
  | parse => cases hlate
  | _ => trivial

theorem linked (ho : v.Onward v') {τ : Thread} (hp : v.Knows p)
    (hwaits : ∀ p ∈ L.waits, p ∈ L'.waits)
    (hknown : ∀ b t ρ, (b, t, ρ) ∈ L.waits → v.Knows (Reply.post t ρ)) (hl : Linked v L p τ) :
    Linked v' L' p τ := by
  cases hl with
  | same make thread => exact .same make ((ho.thread p hp).trans thread)
  | waits own owner past known serial mem make thread =>
    obtain ⟨w', hw', hs'⟩ := ho.serial _ _ _ known serial
    exact .waits own owner past hw' hs' (hwaits _ mem) make
      ((ho.thread _ (hknown _ _ _ mem)).trans thread)

/-- Another action in the place of one that is linked to the same. -/
theorem guarded (ho : v.Onward v') (hg : Guarded v L a rest) (ha : ∀ m, a ≠ .proceed m true none)
    (hl : ∀ τ, Linked v L a.post τ → Linked v' L' a'.post τ) : Guarded v' L' a' rest := by
  match rest, hg with
  | [], _ => trivial
  | .action _ :: _, _ => trivial
  | .guard (.parse m) :: _, hg =>
    refine ⟨?_, ho.knows _ hg.2⟩
    rw [ho.thread _ hg.2]
    exact hl _ hg.1
  | .guard (.start ..) :: _, hg =>
    obtain ⟨m, rfl⟩ := hg.1
    cases ha m rfl

end View.Onward

namespace Balanced

variable {h h' : List Deed} {d : Deed}
  {v1 : View} {rest' : List Frame} {now : List Action}

section

variable (hB : Balanced h v L)
include hB

theorem knows_of_mem_posts : ∀ p ∈ L.posts v.stack v.queue, v.Knows p := by
  intro p hp
  rcases mem_posts.1 hp with ⟨a, ha, rfl⟩ | ⟨q, hq, rfl⟩ | ⟨b, t, ρ, hρ, rfl⟩
  · exact (hB.admits a ha).knows
  · cases q with
    | task a => exact (hB.queued a hq).1.knows
    | job => trivial
  · exact (hB.waiting b t ρ hρ).1

theorem rest_of (hs : v.stack = .action a :: rest) : Rest rest := by
  rcases hB.shape with hr | ⟨a', rest', hs', hr⟩
  · rw [hs] at hr
    exact .exits hr.of_action
  · rw [hs] at hs'
    cases hs'
    exact hr

/-- The threads of a run are that of the action at hand and those of the rest. -/
theorem accounts_cons (hs : v.stack = .action a :: rest) :
    Accounts h v L (v.thread a.post ::ₘ (L.posts rest v.queue).map v.thread) := by
  have := hB.accounts
  rwa [hs, posts_cons, Multiset.map_cons] at this

/-- The threads of the rest stay the same. -/
theorem map_thread (hs : v.stack = .action a :: rest) (ho : v.Onward v') :
    (L.posts rest v.queue).map v'.thread = (L.posts rest v.queue).map v.thread := by
  refine Multiset.map_congr rfl fun p hp => ho.thread p (hB.knows_of_mem_posts p ?_)
  rw [hs, posts_cons]
  exact Multiset.mem_cons_of_mem hp

theorem onward_of_grows {stack : List Frame} (hg : v.Grows v1)
    (hv : v' = { v1 with stack := stack, queue := queue }) : v.Onward v' ∧ v'.Wired := by
  have ho := View.Onward.of_grows hg hB.wired
  rw [hv]
  exact ⟨⟨ho.knows, ho.thread, ho.ended, ho.serial⟩, (hg.wired hB.wired).restack _ _⟩

end

/-- A run is balanced after an action if its accounts are, with what follows on top of what
remains. -/
theorem of_onward (now : List Action) (guards : List Frame) (late : List Duty) (hB : Balanced h v L)
    (hrest : Rest rest) (ho : v.Onward v') (hw : v'.Wired)
    (hstack : v'.stack = now.map .action ++ (guards ++ rest))
    (hguards : ∀ f ∈ guards, ∃ g, f = .guard g)
    (hnow : ∀ a ∈ now, now = [a] ∧ v'.Admits a ∧ Guarded v' L' a (guards ++ rest))
    (hqueue : v'.queue = v.queue + (late : Multiset Duty))
    (hlate : ∀ a, Duty.task a ∈ late → v'.Admits a ∧ a.isLate = true)
    (hwaits : ∀ b t ρ, (b, t, ρ) ∈ L'.waits → (b, t, ρ) ∈ L.waits ∨
      v'.Knows (Reply.post t ρ) ∧ ρ.Within b)
    (hacc : Accounts h' v' L' (((now.map post ++ late.map Duty.post : List Post) +
      L'.posts rest v.queue).map v'.thread)) : Balanced h' v' L' := by
  have hshape : now = [] ∨ ∃ a, now = [a] ∧ v'.Admits a ∧ Guarded v' L' a (guards ++ rest) := by
    cases now with
    | nil => exact .inl rfl
    | cons a _ => exact .inr ⟨a, hnow a mem_cons_self⟩
  have hrest' := hrest.guards hguards
  have hexit : ∀ a ∈ actions (guards ++ rest), v'.Admits a := by
    intro a ha
    obtain ⟨e, code, rfl⟩ := hrest'.actions_exit ha
    trivial
  refine ⟨hw, ?_, ?_, ?_, fun a ha => ?_, fun b t ρ hρ => ?_, fun a' rest' hs' => ?_⟩
  · rw [hstack, hqueue, posts_append]
    unfold posts at hacc ⊢
    rwa [actions_guards hguards]
  · rcases hshape with rfl | ⟨a, rfl, -⟩
    · exact .inl (hstack ▸ hrest')
    · exact .inr ⟨a, _, hstack, hrest'⟩
  · rw [hstack, actions_append, actions_map]
    intro a ha
    rcases mem_append.1 ha with ha | ha
    · exact (hnow a ha).2.1
    · exact hexit a ha
  · rw [hqueue] at ha
    rcases Multiset.mem_add.1 ha with ha | ha
    · exact ⟨ho.admits (hB.queued a ha).1 (hB.queued a ha).2, (hB.queued a ha).2⟩
    · exact hlate a ha
  · rcases hwaits b t ρ hρ with hold | hnew
    · exact ⟨ho.knows _ (hB.waiting b t ρ hold).1, (hB.waiting b t ρ hold).2⟩
    · exact hnew
  · rw [hstack] at hs'
    rcases hshape with rfl | ⟨a, rfl, -, hg⟩
    · exact .of_exits (hs' ▸ hrest').of_action
    · cases hs'
      exact hg

/-! ## Actions -/

/-- The balance is kept where the thread of an action is carried on by what takes its place. What
remains holds the same actions as before; a guard may be gone. -/
theorem cons_of_carried (now : List Action) (guards : List Frame) (late : List Duty)
    (hB : Balanced h v L) (hs : v.stack = .action a :: rest) (hrest : Rest rest')
    (hremains : actions rest' = actions rest) (hg : v.Grows v1) (hd : ∀ r, d.action.Silent r)
    (hv : v' = { v1.later late with stack := now.map .action ++ (guards ++ rest') })
    (hguards : ∀ f ∈ guards, ∃ g, f = .guard g)
    (hnow : ∀ a ∈ now, now = [a] ∧ v'.Admits a ∧ Guarded v' L a (guards ++ rest'))
    (hlate : ∀ a, Duty.task a ∈ late → v'.Admits a ∧ a.isLate = true)
    (hone : now.map post ++ late.map Duty.post = [p])
    (hsame : v'.thread p = v.thread a.post) : Balanced (d :: h) v' L := by
  obtain ⟨ho, hw⟩ := hB.onward_of_grows hg hv
  refine hB.of_onward now guards late hrest ho hw (by rw [hv]) hguards hnow ?_ hlate
    (fun b t ρ => .inl) ?_
  · rw [hv, ← hg.queue]
    rfl
  · have hposts : L.posts rest' v.queue = L.posts rest v.queue := by
      unfold posts
      rw [hremains]
    rw [hone, hposts, Multiset.map_add, hB.map_thread hs ho, Multiset.map_coe, map_singleton, hsame]
    have hacc := (hB.accounts_cons hs).cons_of_silent hd
    rw [hv]
    exact hacc.of_same_work hg.work hg.failed hg.keep (fun b hb => hg.knows (p := .makefiles b) hb)
      (fun _ => id) fun _ => ⟨rfl, rfl⟩

/-- The thread of an action is handed on to the next. -/
theorem hand_on (guards : List Frame) (hB : Balanced h v L)
    (hs : v.stack = .action a :: rest) (hrest : Rest rest')
    (hremains : actions rest' = actions rest) (hg : v.Grows v1) (hd : ∀ r, d.action.Silent r)
    (hv : v' = { v1 with stack := .action a' :: (guards ++ rest') })
    (hguards : ∀ f ∈ guards, ∃ g, f = .guard g) (hadm : v'.Admits a')
    (hsame : v'.thread a'.post = v.thread a.post) (hguard : Guarded v' L a' (guards ++ rest')) :
    Balanced (d :: h) v' L := by
  refine hB.cons_of_carried [a'] guards [] hs hrest hremains hg hd
    (by rw [View.later_nil]; exact hv) hguards
    (fun a ha => ?_) (fun a ha => absurd ha not_mem_nil) rfl hsame
  cases mem_singleton.1 ha
  exact ⟨rfl, hadm, hguard⟩

/-- The thread of an action is put off: it waits in the queue. -/
theorem put_off (a' : Action) (hB : Balanced h v L) (hs : v.stack = .action a :: rest)
    (hrest : Rest rest') (hremains : actions rest' = actions rest) (hg : v.Grows v1)
    (hd : ∀ r, d.action.Silent r) (hv : v' = { v1.later [.task a'] with stack := rest' })
    (hadm : v'.Admits a') (hlate : a'.isLate = true) (hsame : v'.thread a'.post = v.thread a.post) :
    Balanced (d :: h) v' L := by
  refine hB.cons_of_carried [] [] [.task a'] hs hrest hremains hg hd hv (forall_mem_nil _)
    (forall_mem_nil _)
    (fun a ha => ?_) rfl hsame
  cases mem_singleton.1 ha
  exact ⟨hadm, hlate⟩

/-- An action that is linked to the same takes the place of one that asks for nothing else. -/
theorem guarded_of (hB : Balanced h v L) (hs : v.stack = .action a :: rest)
    (ho : v.Onward v') (ha : ∀ m, a ≠ .proceed m true none) (hpost : a'.post = a.post) :
    Guarded v' L a' rest := by
  refine ho.guarded (hB.guarded _ _ hs) ha fun τ hl => ?_
  rw [hpost]
  exact ho.linked (hB.admits a (by rw [hs]; exact mem_cons_self)).knows (fun _ => id)
    (fun b t ρ hρ => (hB.waiting b t ρ hρ).1) hl

/-- The balance is kept where the thread of a make is passed on. -/
theorem cons_of_passes (hB : Balanced h v L) (hs : v.stack = .action a :: rest)
    (hp : Passes v a.post now v1) (hmake : a.post.isOwn = false)
    (ha : ∀ m, a ≠ .proceed m true none) (hd : ∀ r, d.action.Silent r)
    (hv : v' = { v1 with stack := now.map .action ++ rest }) : Balanced (d :: h) v' L := by
  have hguard : ∀ {a' : Action}, v.Grows v1 → a'.post.isOwn = false →
      v'.thread a'.post = v.thread a.post → Guarded v' L a' rest := by
    intro a' hg hown hsame
    refine (hB.onward_of_grows hg hv).1.guarded (hB.guarded a rest hs) ha fun τ hl => ?_
    cases hl with
    | same _ thread => exact .same hown (hsame.trans thread)
    | waits own =>
      rw [own] at hmake
      cases hmake
  cases hp with
  | @ask _ b t stack ρ avoidLoop report hg make loop known same =>
    have hwithin : (ρ.post t).isOwn = false ∧ ρ.Within b := by
      cases ρ with
      | dependent => cases make
      | _ => exact ⟨rfl, trivial⟩
    have hsame : v'.thread (Action.make b t stack ρ avoidLoop report).post = v.thread a.post := by
      rw [hv]
      exact same
    refine hB.hand_on [] hs (hB.rest_of hs) rfl hg hd hv (forall_mem_nil _) ?_ hsame
      (hguard hg hwithin.1 hsame)
    rw [hv]
    exact ⟨known, hwithin.2, loop⟩
  | @proceed _ m remade e hg known same =>
    have hsame : v'.thread (proceed m remade e).post = v.thread a.post := by
      rw [hv]
      exact same
    refine hB.hand_on [] hs (hB.rest_of hs) rfl hg hd hv (forall_mem_nil _) ?_ hsame
      (hguard hg rfl hsame)
    rw [hv]
    exact known
  | @exit v2 e code hg same =>
    exact hB.put_off (.exit e code) hs (hB.rest_of hs) rfl hg hd hv trivial rfl same

/-- The balance is kept where a target is asked for: who asks waits, or is told. -/
theorem exists_of_asked {s s1 : Run} {stack : List Text} {ρ : Reply} {avoidLoop report : Bool}
    (hB : Balanced h s.view L)
    (hs : s.view.stack = .action (.make b t stack ρ avoidLoop report) :: rest)
    (ha : Asked s s1 b t ρ avoidLoop now) (hd : ∀ r, d.action.Silent r)
    (hv : v' = { s1.view with stack := now.map .action ++ rest }) :
    ∃ L', Balanced (d :: h) v' L' := by
  obtain ⟨hknows, hwithin, -⟩ := hB.admits _ (by rw [hs]; exact mem_cons_self)
  have hacc := (hB.accounts_cons hs).cons_of_silent hd
  have hjoins : v'.Knows (ρ.post t) → ∀ b' t' ρ', (b', t', ρ') ∈ (b, t, ρ) ::ₘ L.waits →
      (b', t', ρ') ∈ L.waits ∨ v'.Knows (ρ'.post t') ∧ ρ'.Within b' := by
    intro hk b' t' ρ' hρ'
    rcases Multiset.mem_cons.1 hρ' with e | hold
    · cases e
      exact .inr ⟨hk, hwithin⟩
    · exact .inl hold
  cases ha with
  | @answered w known ended view =>
    rw [view] at hv
    obtain ⟨ho, -⟩ := hB.onward_of_grows (.refl _) hv
    refine ⟨L, hB.hand_on [] hs (hB.rest_of hs) rfl (.refl _) hd hv (forall_mem_nil _) ?_
      (ho.thread _ hknows) (hB.guarded_of hs ho (fun _ => Action.noConfusion) rfl)⟩
    rw [hv]
    exact ⟨hknows, hwithin, w, known, ended, rfl⟩
  | @joined w known working view =>
    rw [view] at hv
    have ho : s.view.Onward v' := .of_put hv fun w' hw' => by
      cases hw'.symm.trans known
      exact ⟨by rw [working]; exact Progress.noConfusion, rfl⟩
    refine ⟨{ L with waits := (b, t, ρ) ::ₘ L.waits }, hB.of_onward [] [] [] (hB.rest_of hs) ho
      (hv ▸ (hB.wired.put ..).restack ..) (by rw [hv]; rfl) (forall_mem_nil _) (forall_mem_nil _) ?_
      (fun a ha => absurd ha not_mem_nil) (hjoins (ho.knows _ hknows)) ?_⟩
    · rw [hv]
      exact (add_zero _).symm
    · rw [show ((([] : List Action).map post ++ ([] : List Duty).map Duty.post : List Post) :
          Multiset Post) = 0 from rfl, zero_add, posts_wait, Multiset.map_cons,
        hB.map_thread hs ho, ho.thread _ hknows, hv]
      exact (hacc.of_join known working ρ).restack _ _
  | @barren error serial indent new read empty view =>
    rw [view] at hv
    have ho : s.view.Onward v' := .of_put hv fun w' hw' => by cases new.symm.trans hw'
    refine ⟨L, hB.of_onward [] [] [.task (.reply b t ρ error false)] (hB.rest_of hs) ho
      (hv ▸ (hB.wired.put ..).restack ..) (by rw [hv]; rfl) (forall_mem_nil _) (forall_mem_nil _)
      (by rw [hv]; rfl) (fun a ha => ?_) (fun b t ρ => .inl) ?_⟩
    · cases mem_singleton.1 ha
      refine ⟨⟨ho.knows _ hknows, hwithin, .barren error serial indent, ?_, rfl, rfl⟩, rfl⟩
      rw [hv]
      exact View.put_work_self ..
    · have hnew := hacc.of_new L new rfl (fun _ _ _ => rfl) (zero_add _).symm
        (fun _ => rfl) (fun τ hτ => absurd hτ (Multiset.notMem_zero _))
        (staged_barren error serial indent) read.there
      rw [zero_add] at hnew
      rw [Multiset.map_add, hB.map_thread hs ho]
      show Accounts _ _ _ (v'.thread (ρ.post t) ::ₘ _)
      rw [ho.thread _ hknows, hv]
      exact hnew.restack _ _
  | @begun serial indent rules new read prepared view =>
    rw [view] at hv
    have ho : s.view.Onward v' := .of_put hv fun w' hw' => by cases new.symm.trans hw'
    have hwork : v'.work b t = Option.some (.begun ρ serial indent rules) := by
      rw [hv]
      exact View.put_work_self ..
    refine ⟨{ L with waits := (b, t, ρ) ::ₘ L.waits },
      hB.of_onward (if serial then [.recipeDone b t false] else []) []
      (Work.firstDuties b t serial rules.length) (hB.rest_of hs) ho
      (hv ▸ (hB.wired.put ..).restack ..) (by rw [hv]; rfl) (forall_mem_nil _) (fun a ha => ?_)
      (by rw [hv]; rfl) (fun a ha => ?_) (hjoins (ho.knows _ hknows)) ?_⟩
    · cases serial with
      | false => cases ha
      | true =>
        cases mem_singleton.1 ha
        refine ⟨rfl, trivial, ?_⟩
        -- The make behind a guard waits for the target that was begun.
        refine ho.guarded (hB.guarded _ _ hs) (fun _ => Action.noConfusion) fun τ hl => ?_
        cases hl with
        | same make thread =>
          refine .waits rfl rfl (fun _ _ _ => Thread.noConfusion) hwork rfl
            (Multiset.mem_cons_self _ _) ?_
            ((ho.thread _ hknows).trans thread)
          cases ρ with
          | dependent => cases make
          | _ => rfl
        | waits own _ past =>
          cases ρ with
          | dependent r weak =>
            cases own
            cases past r t weak rfl
          | _ => cases own
    · cases serial with
      | true => exact absurd ha not_mem_nil
      | false =>
        obtain ⟨i, _, e⟩ := mem_map.1 ha
        cases e
        exact ⟨trivial, rfl⟩
    · rw [posts_wait, Multiset.map_add, Multiset.map_cons, hB.map_thread hs ho,
        ho.thread _ hknows, Multiset.map_coe]
      obtain ⟨_, hquiet⟩ := hacc.unknown b t new
      have hfresh : ∀ x ∈ rules, x.running = false ∧ x.error = false ∧
          x.depsLeft = x.deps.length + 1 := by
        intro x hx
        obtain ⟨_, _, _, rfl⟩ := prepared.fresh x hx
        exact ⟨rfl, rfl, rfl⟩
      have hstaged := staged_begun (v := s.view.put b t (.begun ρ serial indent rules))
          (ρ := ρ) serial
        indent prepared.ne_nil hfresh hquiet
      have hN : ∀ τ ∈ ((((if serial then [recipeDone b t false] else []).map post ++
          (Work.firstDuties b t serial rules.length).map Duty.post).map
            (s.view.put b t (.begun ρ serial indent rules)).thread : List Thread) :
            Multiset Thread),
          τ.owner = Option.some (b, t) := by
        intro τ hτ
        obtain ⟨p, hp, rfl⟩ := mem_map.1 (Multiset.mem_coe.1 hτ)
        cases serial with
        | true => rw [mem_singleton.1 hp]; rfl
        | false =>
          simp only [Work.firstDuties, Bool.false_eq_true, if_false, map_nil, nil_append,
            map_map, mem_map] at hp
          obtain ⟨i, _, rfl⟩ := hp
          rfl
      have hreplies : waitsFor { L with waits := (b, t, ρ) ::ₘ L.waits } b t =
          ((Work.begun ρ serial indent rules).replies : Multiset Reply) + L.waitsFor b t := by
        rw [waitsFor_cons, if_pos ⟨rfl, rfl⟩]
        exact (Multiset.singleton_add _ _).symm
      have hnew := hacc.of_new
        { L with waits := (b, t, ρ) ::ₘ L.waits } new rfl
          (fun _ _ => Accounts.waitsFor_cons_of_ne ρ)
        hreplies (fun h => Progress.noConfusion h) hN hstaged read.there
      rw [hv]
      exact hnew.restack _ _

end Balanced

end Rebuild
