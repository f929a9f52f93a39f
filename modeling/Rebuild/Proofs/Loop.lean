import Rebuild.Loop
import Rebuild.Proofs.Computation
import Mathlib.Data.Multiset.MapFold
import Mathlib.Algebra.Order.Group.Multiset
import Mathlib.Data.List.Nodup
/-!
# Conservation in the event loop

What is put into the queue of a context, and the jobs that come of it, with whatever the callbacks
ask for and whichever jobs are done when. An `Activity` is any use of a loop in its world: contexts
are made, something is deferred, the next thing is taken from a queue, done jobs are reported
together, and the reported jobs are answered one after the other, with more being deferred in
between. Nothing is lost, doubled or overtaken on the way: queues are served first come first served
(`Served`); every job that is taken runs once, in the world as it is then, is answered once with the
exit code that it had there and only when it is done, and no context runs more jobs than it allows
(`Tallied`).
-/

namespace Rebuild

open List Loop

variable {α β : Type} {c : Nat} {w w' : World}

/-- What a member of a list gains and loses, the list gains and loses. -/
theorem flatMap_modify_add {l : List α} {x : α} {f : α → α} {g : α → List β} {d e : Multiset β}
    (hx : l[c]? = some x) (hf : (g x : Multiset β) + d = (g (f x) : Multiset β) + e) :
    (l.flatMap g : Multiset β) + d = ((l.modify c f).flatMap g : Multiset β) + e := by
  induction l generalizing c with
  | nil => simp at hx
  | cons y rest ih =>
    cases c with
    | zero =>
      obtain rfl : y = x := by simpa using hx
      simp only [modify_zero_cons, flatMap_cons, ← Multiset.coe_add]
      rw [add_right_comm, hf, add_right_comm]
    | succ c =>
      simp only [modify_succ_cons, flatMap_cons, ← Multiset.coe_add, add_assoc]
      rw [ih (by simpa using hx)]

theorem map_modify_of_eq {g : α → β} {f : α → α} (hf : ∀ x, g (f x) = g x) (l : List α)
    (c : Nat) : (l.modify c f).map g = l.map g := by
  induction l generalizing c with
  | nil => simp
  | cons x rest ih =>
    cases c with
    | zero => simp [hf]
    | succ c => simp [ih]

namespace Loop

variable {τ κ : Type} {l l' : Loop τ κ} {p : Pending τ κ} {x : Context τ κ} {job : Job}
  {a : κ} {echo : Option Text} {justPrint : Bool} {f : Context τ κ → Context τ κ} {r : Running κ}

/-! ## What the operations do to the contexts -/

theorem context_of_getElem? (h : l.contexts[c]? = some x) : l.context c = x := by
  unfold context
  rw [getD_eq_getElem?_getD, h]
  rfl

theorem context_of_le (h : l.contexts.length ≤ c) : l.context c = ⟨1, [], []⟩ := by
  unfold context
  rw [getD_eq_getElem?_getD, getElem?_eq_none h]
  rfl

/-- Only the context that is changed changes. -/
theorem context_modify (l : Loop τ κ) (hc : c < l.contexts.length)
    (f : Context τ κ → Context τ κ) (j : Nat) :
    (l.modify c f).context j = if j = c then f (l.context c) else l.context j := by
  unfold context modify
  rw [getD_eq_getElem?_getD, getD_eq_getElem?_getD, getD_eq_getElem?_getD, getElem?_modify]
  by_cases hj : j = c
  · subst hj
    simp [getElem?_eq_getElem hc]
  · simp [hj, Ne.symm hj]

theorem context_new (l : Loop τ κ) (jobs : Int) (j : Nat) :
    (l.new jobs).1.context j =
      if j = l.contexts.length then ⟨jobs, [], []⟩ else l.context j := by
  unfold context new
  dsimp only
  rw [getD_eq_getElem?_getD, getD_eq_getElem?_getD]
  rcases Nat.lt_trichotomy j l.contexts.length with hj | rfl | hj
  · rw [getElem?_append_left hj, if_neg (by omega)]
  · simp
  · rw [getElem?_append_right (by omega), getElem?_eq_none (by simp; omega),
      getElem?_eq_none (by omega), if_neg (by omega)]

theorem lt_of_next (h : l.next c = some (p, l')) : c < l.contexts.length := by
  by_contra hc
  have hnone : l.context c = ⟨1, [], []⟩ := context_of_le (Nat.not_lt.1 hc)
  simp [next, hnone] at h

/-- A loop with more that waits in a context. -/
def queue (l : Loop τ κ) (c : Nat) (ps : List (Pending τ κ)) : Loop τ κ :=
  l.modify c fun x => { x with pending := x.pending ++ ps }

theorem defer_of_hasRoom (h : l.hasRoom c) : l.defer c p = .ok (l.queue c [p]) := if_pos h

theorem defer_of_not_hasRoom (h : ¬ l.hasRoom c) : l.defer c p = .error (.breach .assertion) :=
  if_neg h

/-- A context that has room was made. -/
theorem lt_of_hasRoom (h : l.hasRoom c) : c < l.contexts.length := by
  by_contra hc
  rw [hasRoom, getElem?_eq_none (Nat.not_lt.1 hc)] at h
  cases h

theorem queue_nil (l : Loop τ κ) (c : Nat) : l.queue c [] = l := by
  have hid : (fun x : Context τ κ => { x with pending := x.pending ++ [] }) = id := by
    funext x
    simp
  unfold queue modify
  rw [hid, modify_id]

/-- What is deferred is the last to wait. -/
theorem defer_ok (h : l.defer c p = .ok l') : l.hasRoom c ∧ l' = l.queue c [p] := by
  by_cases hroom : l.hasRoom c
  · rw [defer_of_hasRoom hroom] at h
    cases h
    exact ⟨hroom, rfl⟩
  · rw [defer_of_not_hasRoom hroom] at h
    cases h

/-- What is taken waited first, and a job may run. -/
theorem next_some (h : l.next c = some (p, l')) :
    ∃ rest, (l.context c).pending = p :: rest ∧
      ((l.context c).running.length : Int) < (l.context c).jobs ∧
      l' = l.modify c fun x => { x with pending := rest } := by
  unfold next at h
  dsimp only at h
  split at h
  · cases h
  rename_i q rest hq
  split at h
  · rename_i hless
    cases h
    exact ⟨rest, hq, hless, rfl⟩
  · cases h

/-- A job that is started runs, under the next number and with the exit code that it has. -/
theorem launch_eq (h : l.launch c w job a echo justPrint = (w', l')) :
    w' = (job.start echo justPrint w).1 ∧
      l' = { l.modify c fun x => { x with running :=
        x.running ++ [⟨l.started, (job.start echo justPrint w).2, a⟩] } with
          started := l.started + 1 } := by
  cases h
  exact ⟨rfl, rfl⟩

/-- What is done first in a queue: a task is given back, and a job is started. -/
theorem advance_some {todo : Option τ} (h : l.advance c w = some (todo, w', l')) :
    (∃ t, l.next c = some (.task t, l') ∧ todo = some t ∧ w' = w) ∨
    ∃ job a echo justPrint l₁, l.next c = some (.launch job a echo justPrint, l₁) ∧ todo = none ∧
      l₁.launch c w job a echo justPrint = (w', l') := by
  unfold advance at h
  split at h
  · cases h
  · rename_i t l1 hnext
    cases h
    exact .inl ⟨t, hnext, rfl, rfl⟩
  · rename_i job a echo justPrint l1 hnext
    obtain ⟨rfl, hlaunch⟩ := Prod.mk.inj (Option.some.inj h)
    exact .inr ⟨job, a, echo, justPrint, l1, hnext, rfl, hlaunch⟩

theorem length_next (h : l.next c = some (p, l')) : l'.contexts.length = l.contexts.length := by
  obtain ⟨rest, -, -, rfl⟩ := next_some h
  simp [modify]

/-! ## Reports -/

/-- The loop in which the jobs of a context that are done have left it. -/
def release (done : Nat → Bool) (l : Loop τ κ) (c : Nat) : Loop τ κ :=
  l.modify c fun x => { x with running := x.running.filter fun r => !done r.id }

/-- Where all jobs that were found are done, those that leave a context are its own. -/
theorem collect_eq {done : Nat → Bool} {jobs : List (Running κ)} (hjobs : ∀ j ∈ jobs, done j.id)
    (l : Loop τ κ) (c : Nat) :
    collect done (jobs, l) c =
      (jobs ++ (l.context c).running.filter fun r => done r.id, l.release done c) := by
  unfold collect release modify withdraw context
  refine Prod.ext rfl ?_
  dsimp only
  congr 1
  refine ext_getElem? fun j => ?_
  simp only [getElem?_modify]
  by_cases hj : c = j
  · subst hj
    cases hx : l.contexts[c]? with
    | none => rfl
    | some x =>
      have hmem : ∀ r ∈ x.running, (jobs ++ x.running.filter fun r => done r.id).any
          (·.id == r.id) = done r.id := by
        intro r hr
        rw [Bool.eq_iff_iff, any_eq_true]
        constructor
        · rintro ⟨j, hj, hid⟩
          rw [← eq_of_beq hid]
          exact (mem_append.1 hj).elim (hjobs j) fun h => (mem_filter.1 h).2
        · exact fun hd => ⟨r, mem_append_right _ (mem_filter.2 ⟨hr, hd⟩), beq_self_eq_true _⟩
      simp only [if_true, getD_eq_getElem?_getD, hx, Option.getD_some, Option.map_eq_map,
        Option.map_some, Option.some.injEq, Context.mk.injEq, true_and]
      exact filter_congr fun r hr => by rw [hmem r hr]
  · simp [hj]

/-- **Induction over a report**: what holds before, and still holds when the jobs of one more
context that are done have left it, holds in the end. -/
theorem report_induction {P : List (Running κ) → Loop τ κ → Prop} (done : Nat → Bool)
    (start : P [] l)
    (step : ∀ jobs l', ∀ c ∈ l.live, P jobs l' →
      P (jobs ++ (l'.context c).running.filter fun r => l.endingAmong done r.id)
        (l'.release (l.endingAmong done) c)) :
    P (l.report done).1 (l.report done).2 ∧
      ∀ r ∈ (l.report done).1, l.endingAmong done r.id = true := by
  have hfold : ∀ (cs : List Nat) (found : List (Running κ) × Loop τ κ), cs ⊆ l.live →
      P found.1 found.2 →
      (∀ r ∈ found.1, l.endingAmong done r.id = true) →
      P (cs.foldl (collect (l.endingAmong done)) found).1
        (cs.foldl (collect (l.endingAmong done)) found).2 ∧
        ∀ r ∈ (cs.foldl (collect (l.endingAmong done)) found).1,
          l.endingAmong done r.id = true := by
    intro cs
    induction cs with
    | nil => exact fun _ _ hP hall => ⟨hP, hall⟩
    | cons c rest ih =>
      intro found hcs hP hall
      rw [foldl_cons, collect_eq hall]
      refine ih _ (subset_of_cons_subset hcs) (step _ _ c (hcs mem_cons_self) hP) fun r hr => ?_
      exact (mem_append.1 hr).elim (hall r) fun h => (mem_filter.1 h).2
  exact hfold l.live ([], l) (Subset.refl _) start nofun

/-- A context that loses jobs that are done has lost nothing else. -/
theorem context_release (l : Loop τ κ) (done : Nat → Bool) (c j : Nat) :
    (l.release done c).context j = if j = c then
      { l.context c with running := (l.context c).running.filter fun r => !done r.id }
      else l.context j := by
  rcases Nat.lt_or_ge c l.contexts.length with hc | hc
  · exact context_modify l hc _ j
  · rw [release, modify, modify_eq_self hc]
    split
    · rename_i hj
      rw [hj, context_of_le hc]
      rfl
    · rfl

/-- The jobs of a context leave it as they are found. -/
theorem running_release (l : Loop τ κ) (done : Nat → Bool) (c : Nat) :
    (l.contexts.flatMap (·.running) : Multiset (Running κ)) =
      ((l.release done c).contexts.flatMap (·.running) : Multiset (Running κ)) +
        ((l.context c).running.filter fun r => done r.id) := by
  cases hx : l.contexts[c]? with
  | none =>
    have hc := getElem?_eq_none_iff.1 hx
    rw [release, modify, modify_eq_self hc, context_of_le hc]
    simp
  | some x =>
    rw [context_of_getElem? hx, ← add_zero (Multiset.ofList _)]
    refine flatMap_modify_add hx ?_
    rw [add_zero, Multiset.coe_add, Multiset.coe_eq_coe]
    exact (perm_append_comm.trans (filter_append_perm _ _)).symm

/-- Jobs of a loop have left its contexts, and nothing else has changed. -/
structure Released (l : Loop τ κ) (jobs : List (Running κ)) (l' : Loop τ κ) : Prop where
  started : l'.started = l.started
  pending : ∀ c, (l'.context c).pending = (l.context c).pending
  allowed : ∀ c, (l'.context c).jobs = (l.context c).jobs
  running : ∀ c, (l'.context c).running.Sublist (l.context c).running
  perm : (l.contexts.flatMap (·.running)).Perm (jobs ++ l'.contexts.flatMap (·.running))
  ran : ∀ r ∈ jobs, r ∈ l.runningJobs

theorem Released.release {jobs : List (Running κ)} (h : Released l jobs l') (hc : c ∈ l.live)
    (done : Nat → Bool) :
    Released l (jobs ++ (l'.context c).running.filter fun r => done r.id) (l'.release done c) := by
  refine ⟨h.started, fun j => ?_, fun j => ?_, fun j => ?_, h.perm.trans ?_, fun r hr => ?_⟩
  · rw [context_release, ← h.pending j]
    split <;> simp_all
  · rw [context_release, ← h.allowed j]
    split <;> simp_all
  · rw [context_release]
    split
    · rename_i hj
      rw [hj]
      exact filter_sublist.trans (h.running c)
    · exact h.running j
  · rw [← Multiset.coe_eq_coe, ← Multiset.coe_add, ← Multiset.coe_add, l'.running_release done c,
      ← Multiset.coe_add]
    ac_rfl
  · rcases mem_append.1 hr with hr | hr
    · exact h.ran r hr
    · exact mem_flatMap.2 ⟨c, hc, (h.running c).subset (mem_filter.1 hr).1⟩

/-- **A report**: jobs that run, end and are done leave the contexts. -/
theorem report_released (l : Loop τ κ) (done : Nat → Bool) :
    Released l (l.report done).1 (l.report done).2 ∧
      ∀ r ∈ (l.report done).1, done r.id = true ∧ r.ending = some r.code := by
  obtain ⟨hreleased, hdone⟩ := report_induction (P := Released l) done
    ⟨rfl, fun _ => rfl, fun _ => rfl, fun _ => .refl _, .refl _, nofun⟩
    fun _ _ _ hc h => h.release hc _
  refine ⟨hreleased, fun r hr => ?_⟩
  obtain ⟨hr', hends⟩ := Bool.and_eq_true_iff.1 (hdone r hr)
  have hsome := all_eq_true.1 hends r (hreleased.ran r hr)
  rw [bne_self_eq_false, Bool.false_or] at hsome
  refine ⟨hr', ?_⟩
  rw [Running.code, ← Option.some_get hsome, Option.getD_some]

/-! ## What waits and what runs -/

/-- Something waits in the queue of a context. -/
def Waits (l : Loop τ κ) (p : Pending τ κ) : Prop := ∃ x ∈ l.contexts, p ∈ x.pending

/-- A job runs in a context. -/
def Runs (l : Loop τ κ) (r : Running κ) : Prop := ∃ x ∈ l.contexts, r ∈ x.running

/-- No job is new, and nothing is new in the queues but what `P` allows. -/
structure AddsOnly (P : Pending τ κ → Prop) (l l' : Loop τ κ) : Prop where
  waits : ∀ p, l'.Waits p → l.Waits p ∨ P p
  runs : ∀ r, l'.Runs r → l.Runs r

theorem waits_of_mem_context (h : p ∈ (l.context c).pending) : l.Waits p := by
  rcases Nat.lt_or_ge c l.contexts.length with hc | hc
  · exact ⟨l.context c, by simp [context, hc], h⟩
  · simp [context_of_le hc] at h

theorem waits_of_next (h : l.next c = some (p, l')) : l.Waits p := by
  obtain ⟨rest, hpending, -⟩ := next_some h
  exact waits_of_mem_context (by rw [hpending]; exact mem_cons_self)

/-- A context after one was changed was there before, or is the changed one. -/
theorem mem_contexts_modify (h : x ∈ (l.modify c f).contexts) :
    x ∈ l.contexts ∨ ∃ y ∈ l.contexts, x = f y := by
  obtain ⟨j, hj⟩ := getElem?_of_mem h
  simp only [modify, getElem?_modify] at hj
  split at hj
  · obtain ⟨y, hy, rfl⟩ := Option.map_eq_some_iff.1 hj
    exact .inr ⟨y, mem_of_getElem? hy, rfl⟩
  · exact .inl (mem_of_getElem? (by simpa using hj))

namespace AddsOnly

variable {P : Pending τ κ → Prop}

theorem refl (l : Loop τ κ) : l.AddsOnly P l := ⟨fun _ => .inl, fun _ => id⟩

theorem trans {l'' : Loop τ κ} (h1 : l.AddsOnly P l') (h2 : l'.AddsOnly P l'') :
    l.AddsOnly P l'' where
  waits p hp := (h2.waits p hp).elim (h1.waits p) .inr
  runs r hr := h1.runs r (h2.runs r hr)

theorem modify (hwaits : ∀ x ∈ l.contexts, ∀ p ∈ (f x).pending, l.Waits p ∨ P p)
    (hruns : ∀ x, (f x).running ⊆ x.running) (c : Nat) : l.AddsOnly P (l.modify c f) where
  waits p := by
    rintro ⟨x, hx, hp⟩
    rcases mem_contexts_modify hx with hx | ⟨y, hy, rfl⟩
    · exact .inl ⟨x, hx, hp⟩
    · exact hwaits y hy p hp
  runs r := by
    rintro ⟨x, hx, hr⟩
    rcases mem_contexts_modify hx with hx | ⟨y, hy, rfl⟩
    · exact ⟨x, hx, hr⟩
    · exact ⟨y, hy, hruns y hr⟩

theorem queue {ps : List (Pending τ κ)} (hp : ∀ p ∈ ps, P p) (c : Nat) :
    l.AddsOnly P (l.queue c ps) := by
  refine modify (fun x hx q hq => ?_) (fun x => ?_) c
  · rcases mem_append.1 hq with hq | hq
    · exact .inl ⟨x, hx, hq⟩
    · exact .inr (hp q hq)
  · exact List.Subset.refl _

theorem defer (hp : P p) (h : l.defer c p = .ok l') : l.AddsOnly P l' := by
  rw [(defer_ok h).2]
  exact queue (by simpa using hp) c

theorem next (h : l.next c = some (p, l')) : l.AddsOnly P l' := by
  obtain ⟨rest, hpending, -, rfl⟩ := next_some h
  have hold : ∀ q ∈ rest, l.Waits q := fun q hq =>
    waits_of_mem_context (by rw [hpending]; exact mem_cons_of_mem _ hq)
  refine modify (fun x hx q hq => ?_) (fun x => ?_) c
  · exact .inl (hold q hq)
  · exact List.Subset.refl _

/-- A new context has nothing to do. -/
theorem append (hcs : l'.contexts = l.contexts ++ [x]) (hp : x.pending = []) (hr : x.running = []) :
    l.AddsOnly P l' where
  waits p := by
    rintro ⟨y, hy, hmem⟩
    rcases mem_append.1 (hcs ▸ hy) with hy | hy
    · exact .inl ⟨y, hy, hmem⟩
    · simp [mem_singleton.1 hy, hp] at hmem
  runs r := by
    rintro ⟨y, hy, hmem⟩
    rcases mem_append.1 (hcs ▸ hy) with hy | hy
    · exact ⟨y, hy, hmem⟩
    · simp [mem_singleton.1 hy, hr] at hmem

theorem shared (l : Loop τ κ) (jobs : Int) : l.AddsOnly P (l.shared jobs).1 := by
  unfold Loop.shared
  split
  · split
    · exact refl l
    · exact append rfl rfl rfl
  · split
    · exact refl l
    · exact append rfl rfl rfl

theorem release (l : Loop τ κ) (done : Nat → Bool) (c : Nat) : l.AddsOnly P (l.release done c) := by
  refine modify (fun x hx p hp => ?_) (fun x => ?_) c
  · exact .inl ⟨x, hx, hp⟩
  · exact filter_subset_self _

theorem report (l : Loop τ κ) (done : Nat → Bool) : l.AddsOnly P (l.report done).2 :=
  (report_induction (P := fun _ => l.AddsOnly P) done (refl l) fun _ l' c _ h =>
    h.trans (release l' _ c)).1

/-- The order of the contexts in use is of no concern. -/
theorem reorder (l : Loop τ κ) (order : List Nat) : l.AddsOnly P { l with live := order } :=
  ⟨fun _ => .inl, fun _ => id⟩

end AddsOnly

/-! ## Activities -/

/-- What happens in a loop. -/
inductive Event (τ κ : Type) where
  /-- Something was put into the queue of a context. -/
  | deferred (c : Nat) (p : Pending τ κ)
  /-- It was taken from the queue and executed. -/
  | taken (c : Nat) (p : Pending τ κ)
  /-- A job entered the running jobs of a context; it was started in the world `w`. -/
  | started (c : Nat) (job : Job) (echo : Option Text) (justPrint : Bool) (w : World)
      (r : Running κ)
  /-- The running jobs were asked, and some of them were done. -/
  | asked (done : Nat → Bool)
  /-- The callback of a job was invoked with the exit code. -/
  | answered (r : Running κ)

/-- Any use of a loop whose contexts are all for one job or more: what happened so far, oldest
first, the world and the loop then, and the jobs that were reported together and are not answered
yet. Callbacks may defer between all other events, and change the world. -/
inductive Activity : List (Event τ κ) → World → Loop τ κ → List (Running κ) → Prop
  | empty (w : World) : Activity [] w .empty []
  | world {es : List (Event τ κ)} {w : World} {l : Loop τ κ} {batch : List (Running κ)}
      (h : Activity es w l batch) (w' : World) : Activity es w' l batch
  | new {es : List (Event τ κ)} {w : World} {l : Loop τ κ} {batch : List (Running κ)} {jobs : Int}
      (h : Activity es w l batch) (some : 1 ≤ jobs) : Activity es w (l.new jobs).1 batch
  | shared {es : List (Event τ κ)} {w : World} {l : Loop τ κ} {batch : List (Running κ)}
      {jobs : Int} (h : Activity es w l batch) (some : 1 ≤ jobs ∨ l.parallel.isSome) :
      Activity es w (l.shared jobs).1 batch
  | finish {es : List (Event τ κ)} {w : World} {l l' : Loop τ κ} {batch : List (Running κ)}
      {c : Nat} (h : Activity es w l batch) (finishes : l.finish c = .ok l') :
      Activity es w l' batch
  | reorder {es : List (Event τ κ)} {w : World} {l : Loop τ κ} {batch : List (Running κ)}
      {order : List Nat} (h : Activity es w l batch) (perm : order.Perm l.live) :
      Activity es w { l with live := order } batch
  | defer {es : List (Event τ κ)} {w : World} {l l' : Loop τ κ} {batch : List (Running κ)}
      {c : Nat} {p : Pending τ κ} (h : Activity es w l batch) (defers : l.defer c p = .ok l') :
      Activity (es ++ [.deferred c p]) w l' batch
  | task {es : List (Event τ κ)} {w : World} {l l' : Loop τ κ} {batch : List (Running κ)}
      {c : Nat} {t : τ} (h : Activity es w l batch) (next : l.next c = some (.task t, l')) :
      Activity (es ++ [.taken c (.task t)]) w l' batch
  | job {es : List (Event τ κ)} {w w' : World} {l l₁ l' : Loop τ κ} {batch : List (Running κ)}
      {c : Nat} {job : Job} {a : κ} {echo : Option Text} {justPrint : Bool} {r : Running κ}
      (h : Activity es w l batch) (next : l.next c = some (.launch job a echo justPrint, l₁))
      (launch : l₁.launch c w job a echo justPrint = (w', l'))
      (last : (l'.context c).running = (l₁.context c).running ++ [r]) :
      Activity (es ++ [.taken c (.launch job a echo justPrint),
        .started c job echo justPrint w r]) w' l' batch
  | report {es : List (Event τ κ)} {w : World} {l : Loop τ κ} (done : Nat → Bool)
      (h : Activity es w l []) :
      Activity (es ++ [.asked done]) w (l.report done).2 (l.report done).1
  | answer {es : List (Event τ κ)} {w : World} {l : Loop τ κ} {r : Running κ}
      {batch : List (Running κ)} (h : Activity es w l (r :: batch)) :
      Activity (es ++ [.answered r]) w l batch

/-- What was put into the queue of a context, in order. -/
def deferredTo (c : Nat) (es : List (Event τ κ)) : List (Pending τ κ) :=
  es.filterMap fun
    | .deferred j p => if j = c then some p else none
    | _ => none

/-- What was taken from the queue of a context, in order. -/
def takenFrom (c : Nat) (es : List (Event τ κ)) : List (Pending τ κ) :=
  es.filterMap fun
    | .taken j p => if j = c then some p else none
    | _ => none

/-- A job with its context, and what else it was submitted with. -/
structure Submission (κ : Type) where
  context : Nat
  job : Job
  echo : Option Text
  justPrint : Bool
  answer : κ

/-- The jobs that were taken from the queues, in order. -/
def submitted (es : List (Event τ κ)) : List (Submission κ) :=
  es.filterMap fun
    | .taken c (.launch job a echo justPrint) => some ⟨c, job, echo, justPrint, a⟩
    | _ => none

/-- The jobs that entered the running jobs, in order, with what they were submitted with. -/
def startedJobs (es : List (Event τ κ)) : List (Submission κ × World × Running κ) :=
  es.filterMap fun
    | .started c job echo justPrint w r => some (⟨c, job, echo, justPrint, r.answer⟩, w, r)
    | _ => none

/-- The jobs whose callbacks were invoked, in order. -/
def answeredJobs (es : List (Event τ κ)) : List (Running κ) :=
  es.filterMap fun
    | .answered r => some r
    | _ => none

/-- What was called, in order: tasks that were taken, and the callbacks of jobs. -/
def called (es : List (Event τ κ)) : List (τ ⊕ Running κ) :=
  es.filterMap fun
    | .taken _ (.task t) => some (.inl t)
    | .answered r => some (.inr r)
    | _ => none

/-- A job was found done, after it had been started; so it has an exit code. -/
def FoundDone (es : List (Event τ κ)) (r : Running κ) : Prop :=
  ∃ done, .asked done ∈ es ∧ done r.id = true ∧ r.ending = some r.code ∧
    ∃ x w, (x, w, r) ∈ startedJobs es

/-- What was deferred was taken, first come first served, or still waits. -/
def Served (es : List (Event τ κ)) (l : Loop τ κ) : Prop :=
  ∀ c, deferredTo c es = takenFrom c es ++ (l.context c).pending

/-- Every job runs once and is answered once. -/
structure Tallied (es : List (Event τ κ)) (l : Loop τ κ) (batch : List (Running κ)) : Prop where
  /-- Every job that was taken entered the running jobs of its context, once. -/
  entered : submitted es = (startedJobs es).map (·.1)
  /-- The jobs are numbered as they are started. -/
  numbered : (startedJobs es).map (·.2.2.id) = List.range l.started
  /-- A job has the exit code that it had in the world in which it was started. -/
  codes : ∀ x w r, (x, w, r) ∈ startedJobs es → r.ending = (x.job.start x.echo x.justPrint w).2
  /-- Every job that was started was answered, is about to be answered, or is running. -/
  kept : ((startedJobs es).map (·.2.2)).Perm
    (answeredJobs es ++ (batch ++ l.contexts.flatMap (·.running)))
  /-- A job is answered only after it was found done. -/
  timely : ∀ es₁ r es₂, es = es₁ ++ .answered r :: es₂ → FoundDone es₁ r
  awaited : ∀ r ∈ batch, FoundDone es r
  bounded : ∀ c, ((l.context c).running.length : Int) ≤ (l.context c).jobs

variable {es es' : List (Event τ κ)} {batch : List (Running κ)}

theorem FoundDone.append (h : FoundDone es r) (es' : List (Event τ κ)) :
    FoundDone (es ++ es') r := by
  obtain ⟨done, hasked, hdone, hends, x, w, hstarted⟩ := h
  refine ⟨done, mem_append_left _ hasked, hdone, hends, x, w, ?_⟩
  rw [startedJobs, filterMap_append]
  exact mem_append_left _ hstarted

/-! ## Queues -/

namespace Served

theorem defer (h : Served es l) (hd : l.defer c p = .ok l') :
    Served (es ++ [.deferred c p]) l' := by
  intro j
  have hj := h j
  obtain ⟨hroom, rfl⟩ := defer_ok hd
  rw [queue, context_modify l (lt_of_hasRoom hroom)]
  simp only [deferredTo, takenFrom, filterMap_append] at hj ⊢
  rw [hj]
  by_cases hjc : j = c
  · subst hjc
    simp
  · simp [hjc, Ne.symm hjc]

theorem take (h : Served es l) (hn : l.next c = some (p, l')) :
    Served (es ++ [.taken c p]) l' := by
  intro j
  have hj := h j
  obtain ⟨rest, hrest, -, rfl⟩ := next_some hn
  rw [context_modify l (lt_of_next hn)]
  simp only [deferredTo, takenFrom, filterMap_append] at hj ⊢
  rw [hj]
  by_cases hjc : j = c
  · subst hjc
    simp [hrest]
  · simp [hjc, Ne.symm hjc]

theorem new (h : Served es l) (jobs : Int) : Served es (l.new jobs).1 := by
  intro j
  rw [h j, context_new]
  split
  · rename_i hj
    rw [context_of_le hj.ge]
  · rfl

/-- What neither defers nor takes and leaves the queues alone. -/
theorem same (h : Served es l) (hd : ∀ c, deferredTo c es' = []) (ht : ∀ c, takenFrom c es' = [])
    (hp : ∀ c, (l'.context c).pending = (l.context c).pending) : Served (es ++ es') l' := by
  intro j
  have hj := h j
  have hdj := hd j
  have htj := ht j
  simp only [deferredTo, takenFrom, filterMap_append] at hj hdj htj ⊢
  rw [hj, hdj, htj, hp]
  simp

end Served

/-! ## Jobs -/

namespace Tallied

/-- Events that answer nothing leave the answers as they were. -/
theorem timely_append (h : Tallied es l batch) (hes : answeredJobs es' = []) :
    ∀ es₁ r es₂, es ++ es' = es₁ ++ .answered r :: es₂ → FoundDone es₁ r := by
  intro es1 r es2 heq
  have hnot : ∀ d, es' ≠ d ++ .answered r :: es2 := by
    rintro d rfl
    simp [answeredJobs] at hes
  rcases append_eq_append_iff.1 heq with ⟨d, rfl, hd⟩ | ⟨d, rfl, hd⟩
  · exact absurd hd (hnot d)
  · cases d with
    | nil => exact absurd hd.symm (hnot [])
    | cons e d =>
      cases hd
      exact h.timely es1 r d rfl

/-- A loop whose jobs are those of another is tallied as that one is. -/
theorem of_same (h : Tallied es l batch) (hstarted : l'.started = l.started)
    (hruns : l'.contexts.flatMap (·.running) = l.contexts.flatMap (·.running))
    (hbounded : ∀ c, ((l'.context c).running.length : Int) ≤ (l'.context c).jobs) :
    Tallied es l' batch :=
  ⟨h.entered, hstarted ▸ h.numbered, h.codes, hruns ▸ h.kept, h.timely, h.awaited, hbounded⟩

/-- An event that concerns no job. -/
theorem event {e : Event τ κ} (h : Tallied es l batch) (hsub : submitted [e] = [])
    (hstart : startedJobs [e] = []) (hans : answeredJobs [e] = []) :
    Tallied (es ++ [e]) l batch := by
  have hs : submitted (es ++ [e]) = submitted es := by
    rw [submitted, filterMap_append, ← submitted, ← submitted, hsub, append_nil]
  have hst : startedJobs (es ++ [e]) = startedJobs es := by
    rw [startedJobs, filterMap_append, ← startedJobs, ← startedJobs, hstart, append_nil]
  have ha : answeredJobs (es ++ [e]) = answeredJobs es := by
    rw [answeredJobs, filterMap_append, ← answeredJobs, ← answeredJobs, hans, append_nil]
  refine ⟨?_, ?_, ?_, ?_, h.timely_append hans, fun r hr => (h.awaited r hr).append _, h.bounded⟩
  · rw [hs, hst, h.entered]
  · rw [hst, h.numbered]
  · rw [hst]
    exact h.codes
  · rw [hst, ha]
    exact h.kept

/-- What waits is no matter of the jobs that run. -/
theorem requeue (h : Tallied es l batch) (hc : c < l.contexts.length)
    (q : Context τ κ → List (Pending τ κ)) :
    Tallied es (l.modify c fun x => { x with pending := q x }) batch := by
  refine h.of_same rfl ?_ fun j => ?_
  · rw [flatMap_def, flatMap_def, modify]
    refine congrArg List.flatten (map_modify_of_eq ?_ _ _)
    exact fun _ => rfl
  · rw [context_modify l hc]
    split
    · exact h.bounded c
    · exact h.bounded j

theorem empty : Tallied ([] : List (Event τ κ)) .empty [] where
  entered := rfl
  numbered := rfl
  codes := by simp [startedJobs]
  kept := .refl _
  timely := by simp
  awaited := nofun
  bounded c := by simp [context_of_le (l := .empty) (Nat.zero_le c)]

section

variable (h : Tallied es l batch)
include h

theorem new {jobs : Int} (hjobs : 1 ≤ jobs) : Tallied es (l.new jobs).1 batch := by
  refine h.of_same rfl (by simp [Loop.new]) fun c => ?_
  rw [context_new]
  split
  · exact Int.le_trans (by simp) hjobs
  · exact h.bounded c

/-- Which contexts are shared matters to no job. -/
theorem share (serial parallel : Option Nat) :
    Tallied es { l with serial := serial, parallel := parallel } batch :=
  h.of_same rfl rfl h.bounded

theorem start (hc : c < l.contexts.length)
    (hfree : ((l.context c).running.length : Int) < (l.context c).jobs)
    (hlaunch : l.launch c w job a echo justPrint = (w', l'))
    (hlast : (l'.context c).running = (l.context c).running ++ [r]) :
    Tallied (es ++ [.taken c (.launch job a echo justPrint), .started c job echo justPrint w r])
      l' batch := by
  generalize hj : (⟨l.started, (job.start echo justPrint w).2, a⟩ : Running κ) = j
  obtain rfl : { l.modify c fun x => { x with running := x.running ++ [j] } with
      started := l.started + 1 } = l' := by
    rw [← hj]
    exact (launch_eq hlaunch).2.symm
  have hcontext : ∀ k, (({ l.modify c fun x => { x with running := x.running ++ [j] } with
      started := l.started + 1 } : Loop τ κ).context k) =
      if k = c then { l.context c with running := (l.context c).running ++ [j] }
      else l.context k := context_modify l hc _
  obtain rfl : j = r := by
    rw [hcontext c, if_pos rfl] at hlast
    simpa using hlast
  refine ⟨?_, ?_, ?_, ?_, h.timely_append rfl, fun x hx => (h.awaited x hx).append _, fun k => ?_⟩
  · have he := h.entered
    simp only [submitted, startedJobs, filterMap_append, map_append] at he ⊢
    rw [he]
    simp [← hj]
  · have hn := h.numbered
    simp only [startedJobs, filterMap_append, map_append] at hn ⊢
    rw [hn, range_succ]
    simp [← hj]
  · intro x w' r hmem
    simp only [startedJobs, filterMap_append, mem_append] at hmem
    rcases hmem with hmem | hmem
    · exact h.codes x w' r hmem
    · simp only [filterMap_cons, filterMap_nil, mem_singleton, Prod.mk.injEq] at hmem
      obtain ⟨rfl, rfl, rfl⟩ := hmem
      rw [← hj]
  · have hk := h.kept
    rw [← Multiset.coe_eq_coe] at hk ⊢
    simp only [startedJobs, answeredJobs, filterMap_append, map_append, ← Multiset.coe_add] at hk ⊢
    have hmore := flatMap_modify_add (g := fun x : Context τ κ => x.running)
      (f := fun x => { x with running := x.running ++ [j] }) (d := {j}) (e := 0)
      (getElem?_eq_getElem hc) (by rw [← Multiset.coe_singleton, Multiset.coe_add, add_zero])
    rw [add_zero] at hmore
    rw [modify, ← hmore, hk]
    simp only [filterMap_cons, filterMap_nil, map_cons, map_nil,
      Multiset.coe_nil, Multiset.coe_singleton, add_zero]
    ac_rfl
  · rw [hcontext k]
    split
    · simp only [length_append, length_singleton]
      omega
    · exact h.bounded k

end

/-- The jobs that are done leave the contexts together, to be answered. -/
theorem report (h : Tallied es l []) (done : Nat → Bool) :
    Tallied (es ++ [.asked done]) (l.report done).2 (l.report done).1 := by
  have hst : startedJobs (es ++ [.asked done]) = startedJobs es := by simp [startedJobs]
  obtain ⟨hleft, hdone⟩ := l.report_released done
  refine ⟨?_, ?_, ?_, ?_, h.timely_append rfl, fun r hr => ?_, fun c => ?_⟩
  · rw [hst, ← h.entered]
    simp [submitted]
  · rw [hst, h.numbered, hleft.started]
  · rw [hst]
    exact h.codes
  · rw [hst]
    refine h.kept.trans ?_
    simpa [answeredJobs] using hleft.perm.append_left (answeredJobs es)
  · -- a reported job was running, so it was started
    have hmem : r ∈ (startedJobs es).map (·.2.2) := by
      rw [h.kept.mem_iff]
      simp [hleft.perm.mem_iff, hr]
    obtain ⟨⟨x, w, _⟩, hx, rfl⟩ := mem_map.1 hmem
    exact ⟨done, by simp, (hdone _ hr).1, (hdone _ hr).2, x, w, hst ▸ hx⟩
  · rw [hleft.allowed]
    exact Int.le_trans (Int.ofNat_le.2 (hleft.running c).length_le) (h.bounded c)

/-- The callback of a reported job is invoked. -/
theorem answer (h : Tallied es l (r :: batch)) : Tallied (es ++ [.answered r]) l batch := by
  have hst : startedJobs (es ++ [.answered r]) = startedJobs es := by simp [startedJobs]
  refine ⟨?_, ?_, ?_, ?_, fun es1 r' es2 heq => ?_,
    fun r' hr => (h.awaited r' (mem_cons_of_mem _ hr)).append _, h.bounded⟩
  · rw [hst, ← h.entered]
    simp [submitted]
  · rw [hst, h.numbered]
  · rw [hst]
    exact h.codes
  · rw [hst]
    refine h.kept.trans ?_
    simp [answeredJobs]
  · rcases append_eq_append_iff.1 heq with ⟨d, rfl, hd⟩ | ⟨d, rfl, hd⟩
    · cases d with
      | nil =>
        cases hd
        exact (h.awaited r mem_cons_self).append _
      | cons e d => simp at hd
    · cases d with
      | nil =>
        cases hd
        simpa using h.awaited r mem_cons_self
      | cons e d =>
        cases hd
        exact h.timely es1 r' d rfl

/-- No two jobs of an activity have one number. -/
theorem nodup (h : Tallied es l batch) :
    ((answeredJobs es ++ (batch ++ l.contexts.flatMap (·.running))).map (·.id)).Nodup := by
  refine ((h.kept.map (·.id)).nodup_iff).1 ?_
  rw [map_map]
  exact h.numbered ▸ nodup_range

end Tallied

/-! ## Every activity conserves -/

theorem finish_ok (h : l.finish c = .ok l') : ∃ live, l' = { l with live := live } := by
  unfold finish at h
  dsimp only at h
  split at h
  · cases h
  · split at h
    · cases h
      exact ⟨_, rfl⟩
    · cases h

/-- The shared context was made before, or is made now. -/
theorem shared_cases (l : Loop τ κ) (jobs : Int) : (l.shared jobs).1 = l ∨
    (jobs = 1 ∨ l.parallel = none) ∧ ∃ serial parallel,
      (l.shared jobs).1 = { (l.new jobs).1 with serial := serial, parallel := parallel } := by
  unfold shared
  split
  · rename_i hone
    split
    · exact .inl rfl
    · exact .inr ⟨.inl (eq_of_beq hone), _, _, rfl⟩
  · split
    · exact .inl rfl
    · rename_i hnone
      exact .inr ⟨.inr hnone, _, _, rfl⟩

theorem Activity.tallied (h : Activity es w l batch) : Tallied es l batch := by
  induction h with
  | empty => exact .empty
  | world _ _ ih => exact ih
  | new _ some ih => exact ih.new some
  | @shared _ _ l _ jobs _ some ih =>
    rcases l.shared_cases jobs with e | ⟨hjobs, _, _, e⟩
    · rwa [e]
    · rw [e]
      refine (ih.new ?_).share _ _
      rcases hjobs with rfl | hnone
      · exact le_refl _
      · exact some.resolve_right (by simp [hnone])
  | finish _ finishes ih =>
    obtain ⟨_, rfl⟩ := finish_ok finishes
    exact ih.of_same rfl rfl ih.bounded
  | reorder _ _ ih => exact ih.of_same rfl rfl ih.bounded
  | defer _ defers ih =>
    obtain ⟨hroom, rfl⟩ := defer_ok defers
    exact (ih.requeue (lt_of_hasRoom hroom) _).event rfl rfl rfl
  | task _ next ih =>
    have hc := lt_of_next next
    obtain ⟨rest, -, -, rfl⟩ := next_some next
    exact (ih.requeue hc fun _ => rest).event rfl rfl rfl
  | @job _ _ _ l _ _ _ _ _ _ _ _ _ _ next launch last ih =>
    have hc := lt_of_next next
    obtain ⟨rest, -, hfree, rfl⟩ := next_some next
    refine (ih.requeue hc fun _ => rest).start (by simpa [modify] using hc) ?_ launch last
    rw [context_modify l hc, if_pos rfl]
    exact hfree
  | report done _ ih => exact ih.report done
  | answer _ ih => exact ih.answer

theorem Activity.served (h : Activity es w l batch) : Served es l := by
  induction h with
  | empty =>
    intro c
    simp [deferredTo, takenFrom, context_of_le (l := .empty) (Nat.zero_le c)]
  | world _ _ ih => exact ih
  | new _ _ ih => exact ih.new _
  | @shared _ _ l _ jobs _ _ ih =>
    rcases l.shared_cases jobs with e | ⟨-, _, _, e⟩
    · rwa [e]
    · rw [e]
      exact ih.new jobs
  | finish _ finishes ih =>
    obtain ⟨_, rfl⟩ := finish_ok finishes
    exact ih
  | reorder _ _ ih => exact ih
  | defer _ defers ih => exact ih.defer defers
  | task _ next ih => exact ih.take next
  | @job es w w' l l1 l' batch c job a echo justPrint r _ next launch last ih =>
    have hc : c < l1.contexts.length := length_next next ▸ lt_of_next next
    have hpending : ∀ j, (l'.context j).pending = (l1.context j).pending := by
      intro j
      rw [(launch_eq launch).2]
      refine (congrArg Context.pending (context_modify l1 hc _ j)).trans ?_
      split
      · rename_i hjc
        rw [hjc]
      · rfl
    have hstart : Served ((es ++ [.taken c (.launch job a echo justPrint)]) ++
        [.started c job echo justPrint w r]) l' :=
      (ih.take next).same (fun _ => rfl) (fun _ => rfl) hpending
    simpa using hstart
  | @report es w l done h ih =>
    exact ih.same (fun _ => rfl) (fun _ => rfl) (l.report_released done).1.pending
  | answer _ ih => exact ih.same (fun _ => rfl) (fun _ => rfl) fun _ => rfl

/-- **Doing what comes first in a queue** is part of an activity, be it a task or a job. -/
theorem Activity.advance {todo : Option τ} (h : Activity es w l batch)
    (hadvance : l.advance c w = some (todo, w', l')) :
    ∃ ds, called ds = todo.toList.map .inl ∧ Activity (es ++ ds) w' l' batch := by
  rcases advance_some hadvance with
    ⟨t, hnext, rfl, rfl⟩ | ⟨job, a, echo, justPrint, l1, hnext, rfl, hlaunch⟩
  · exact ⟨_, rfl, h.task hnext⟩
  · have hc : c < l1.contexts.length := length_next hnext ▸ lt_of_next hnext
    have hlast : (l'.context c).running = (l1.context c).running ++
        [⟨l1.started, (job.start echo justPrint w).2, a⟩] := by
      rw [(launch_eq hlaunch).2]
      refine (congrArg Context.running (context_modify l1 hc _ c)).trans ?_
      rw [if_pos rfl]
    exact ⟨_, rfl, h.job hnext hlaunch hlast⟩

/-- However the first loop came about in its world, it can go on to the second in its own, by
events of a kind and with the same jobs still to be answered. -/
def LeadsTo (Q : Event τ κ → Prop) (s s' : World × Loop τ κ) : Prop :=
  ∀ es batch, Activity es s.1 s.2 batch →
    ∃ ds, (∀ e ∈ ds, Q e) ∧ Activity (es ++ ds) s'.1 s'.2 batch

variable {Q : Event τ κ → Prop}

instance : IsPreorder (World × Loop τ κ) (LeadsTo Q) where
  refl _ es _ h := ⟨[], forall_mem_nil _, by rwa [append_nil]⟩
  trans _ _ _ h₁ h₂ es batch h := by
    obtain ⟨ds, hds, h⟩ := h₁ es batch h
    obtain ⟨ds', hds', h⟩ := h₂ _ _ h
    exact ⟨ds ++ ds', forall_mem_append.2 ⟨hds, hds'⟩, by rwa [← append_assoc]⟩

/-- Working off a queue is part of an activity, if what the tasks do is. -/
theorem leadsTo_drain {exec : τ → LoopM τ κ Unit}
    (hexec : ∀ t, Keeps (LeadsTo fun _ => True) (exec t)) (c fuel : Nat) :
    Keeps (LeadsTo fun _ => True) (LoopM.drain exec c fuel) := by
  induction fuel with
  | zero => exact keeps_pure _
  | succ fuel ih =>
    intro s
    refine keeps_bind_get ?_
    dsimp only
    split
    · exact keeps_pure _ s
    · rename_i todo w' l' hadvance
      refine keeps_bind_at (fun es batch h => ?_) fun _ => keeps_bind ?_ fun _ => ih
      · obtain ⟨ds, -, h⟩ := h.advance hadvance
        exact ⟨ds, fun _ _ => trivial, h⟩
      · cases todo with
        | none => exact keeps_pure _
        | some t => exact hexec t

end Loop

end Rebuild
