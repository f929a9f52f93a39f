import Rebuild.Proofs.Build.Answers
import Rebuild.Proofs.Build.Prerequisites
import Mathlib.Order.WellFounded
import Mathlib.Data.Set.Finite.Basic
import Mathlib.Data.Fintype.Order
/-!
# Everything happens once

A target goes from not being known to being worked on to being over, and never back; the recipe of
each of its rules is taken up at most once; and whoever asks for a target is told at most once. When
nothing is left to be done, everyone who has asked was told, provided that the targets do not need
each other in a circle (`Course.once`): a target for which someone still waits would wait for
another one, of the same build or of a make within it, and so on for ever.
-/

namespace Rebuild

open List Multiset Sample Run

/-! ## Targets go forward -/

/-- No target goes back. -/
def Run.Forward (s s' : Run) : Prop := ∀ b t, s.rank b t ≤ s'.rank b t

variable {s s' : Run} {b : Nat} {t : Text} {r : RuleAt}

theorem Run.forward_of_work (h : s'.work = s.work) : s.Forward s' := by
  intro b t
  unfold rank
  rw [h]

theorem Run.work_modify (s : Run) (b : Nat) {f : Build → Build} (hf : ∀ x, (f x).works = x.works) :
    ({ s with builds := s.builds.modify b f } : Run).work = s.work := by
  funext b' t
  have hworks := RunM.map_modify s.builds b b' f (·.works) hf
  have hbind : ∀ s : Run, s.work b' t = ((s.builds[b']?).map (·.works)).bind (·.lookup t) := by
    intro s
    rw [Option.bind_map]
    rfl
  rw [hbind, hbind, hworks]

/-- The work on one target goes on. -/
theorem Run.forward_putWork {w : Work} (hw : s.rank b t ≤ w.rank) :
    s.Forward
      { s with builds := s.builds.modify b fun x => { x with works := putWork t w x.works } } := by
  intro b' t'
  unfold rank work
  rw [getElem?_modify]
  by_cases hb : b = b'
  · subst hb
    cases hy : s.builds[b]? with
    | none => simp
    | some y =>
      by_cases ht : t' = t
      · subst ht
        have hold : (y.works.lookup t').elim 0 Work.rank ≤ w.rank := by
          simpa [rank, work, hy] using hw
        simpa [RunM.lookup_putWork] using hold
      · simp [RunM.lookup_putWork, ht]
  · simp [hb]

instance : LoopFrame Run.Forward where
  refl _ _ _ := le_rfl
  trans _ _ _ h₁ h₂ b t := (h₁ b t).trans (h₂ b t)
  world _ _ _ := forward_of_work rfl
  builds s b _ hf := forward_of_work (s.work_modify b fun x => (hf x).2.1)
  work _ _ _ _ hw := forward_putWork hw.rank_le
  makes _ _ _ _ := forward_of_work rfl
  loop _ _ := forward_of_work rfl
  stack _ _ _ := forward_of_work rfl
  outcome _ _ := forward_of_work rfl

namespace RunM

theorem forward_onMakefile {α : Type} (b : Nat) (x : MakeM α) :
    Keeps Run.Forward (onMakefile b x) :=
  keeps_onMakefile_of b fun _ => forward_of_work (work_modify _ b fun _ => rfl)

theorem forward_newBuild (m : Nat) : Keeps Run.Forward (newBuild m) := by
  refine frame_newBuild forward_onMakefile (fun s fresh b t => ?_) fun _ _ _ =>
    Run.forward_of_work rfl
  unfold Run.rank Run.work
  cases hy : s.builds[b]? with
  | none => exact Nat.zero_le _
  | some y =>
    have hlt := of_getElem?_eq_some hy
    rw [getElem?_append_left hlt, hy]

end RunM

/-- **No target goes back in any step**, also in one that ends the run with an error. -/
theorem Run.step_forward (schedule : Schedule) (s : Run) : s.Forward (s.step schedule) := by
  refine frame_step schedule s (fun a _ => ?_) (frame_turn schedule s fun _ _ =>
    forward_of_work rfl)
  exact frame_perform_blind RunM.forward_onMakefile (fun _ _ _ _ => forward_putWork)
    RunM.forward_newBuild
    (fun _ _ _ _ _ _ _ _ => forward_of_work rfl) s

/-! ## Recipes are taken up once -/

section Courses

variable {w : World} {args : List Text} {env : Env} {cwd : Text} {h : List Deed}

/-- A recipe that is about to be taken up is that of a rule which has come to this stage. -/
theorem Balanced.stage_of_recipe {L : Ledger} {rest : List Frame} {j : Nat}
    (hB : Balanced h s.view L)
    (hs : s.stack = .action (.recipe ⟨b, t, j⟩) :: rest) : ∃ w x σ, s.work b t = some w ∧
      Stages h s.view b t w σ ∧ w.rules[j]? = some x ∧ σ j = .recipe := by
  have hmem : Thread.recipe ⟨b, t, j⟩ ∈ s.view.thread (Action.recipe ⟨b, t, j⟩).post ::ₘ
      (L.posts rest s.view.queue).map s.view.thread := mem_cons_self _ _
  obtain ⟨-, w, hw, -, σ, hS, hpurse⟩ := (hB.accounts_cons hs).stages hmem rfl
  have hthread := hpurse ▸ mem_purse.2 ⟨hmem, rfl⟩
  obtain ⟨_, x, hx, -, ⟨⟩, hσ⟩ := hS.of_mem hthread nofun
  exact ⟨w, x, σ, hw, hS, hx, hσ⟩

/-- A recipe that is about to be taken up was not taken up before. -/
theorem Balanced.recipeRuns_eq_zero {L : Ledger} {rest : List Frame} (hB : Balanced h s.view L)
    (hs : s.stack = .action (.recipe r) :: rest) : recipeRuns h r = 0 := by
  obtain ⟨w, x, σ, -, hS, hx, hσ⟩ := hB.stage_of_recipe hs
  have hok := hS.rule r.rule x hx
  rw [hσ] at hok
  exact hok.1.2.2

theorem Course.recipeRuns_le_one (hc : Course (.init w args env cwd) h s) (r : RuleAt) :
    recipeRuns h r ≤ 1 := by
  induction hc with
  | start => exact Nat.zero_le 1
  | @act h s a schedule hc doing ih =>
    rw [recipeRuns_cons]
    split
    · rename_i hrecipe
      cases a with
      | recipe r' =>
        obtain rfl : r' = r := by simpa [Action.isRecipe] using hrecipe
        obtain ⟨ho, rest, hs⟩ := doing_eq_some doing
        obtain ⟨L, hB⟩ := hc.balanced.resolve_left (not_broken ho)
        rw [hB.recipeRuns_eq_zero hs]
      | _ => cases hrecipe
    · exact ih
  | pass _ _ _ ih => exact ih

/-- No one is told who has not asked. -/
theorem Course.answered_le (hc : Course (.init w args env cwd) h s) (b : Nat) (t : Text) :
    answered h b t ≤ askers h b t := by
  induction hc with
  | start => exact le_rfl
  | @act h s a schedule hc doing ih =>
    obtain ⟨ho, rest, hs⟩ := doing_eq_some doing
    have hbooks := hc.answers.resolve_left (not_broken ho) b t
    have hmine : ({a} : Multiset Action) ≤ s.tasks := by
      refine singleton_le.2 (mem_tasks.2 (.inl ?_))
      rw [hs]
      exact mem_cons_self
    have htold : ({a} : Multiset Action).filterMap (Action.told b t) ≤ s.unanswered b t :=
      (filterMap_le_filterMap _ hmine).trans (le_add_right _ _)
    calc answered (⟨a, s, s.step schedule⟩ :: h) b t
      _ = ({a} : Multiset Action).filterMap (Action.told b t) + answered h b t :=
          filterMap_deeds_cons _ _ _
      _ ≤ s.unanswered b t + answered h b t := add_le_add_left htold _
      _ = askers h b t := by rw [hbooks, add_comm]
      _ ≤ askers (⟨a, s, s.step schedule⟩ :: h) b t := by
          unfold askers
          rw [filterMap_deeds_cons]
          exact le_add_left _ _
  | pass _ _ _ ih => exact ih

end Courses

/-! ## Nothing waits for ever -/

/-- A target needs another: that is a prerequisite of one of its rules. -/
def Makefile.Needs (mk : Makefile) (t d : Text) : Prop :=
  ∃ r ∈ (mk.targetAt t).rules, ∃ p ∈ mk.prereqs r, d = properName p

/-- In no makefile do targets need each other in a circle. -/
def Run.Acyclic (s : Run) : Prop :=
  ∀ b mk, s.makefile? b = some mk → ∀ t, ¬ Relation.TransGen mk.Needs t t

/-- Nothing is left to be done, waits or runs, and no complaint was lost on the way. -/
structure Run.Drained (h : List Deed) (s : Run) : Prop where
  stack : s.stack = []
  queue : s.loop.duties = []
  runs : ¬ s.Broken
  calm : ¬ Escaped h

/-- One target waits for another: it needs it, or the other belongs to a make within it. -/
def Run.WaitsFor (s : Run) (p q : Nat × Text) : Prop :=
  (p.1 = q.1 ∧ ∃ mk, s.makefile? p.1 = some mk ∧ mk.Needs p.2 q.2) ∨ p.1 < q.1

/-- Waiting goes to later builds, or along what targets need. -/
theorem Run.WaitsFor.needs_or_lt {p q : Nat × Text} (h : Relation.TransGen s.WaitsFor p q) :
    (p.1 = q.1 ∧ ∃ mk, s.makefile? p.1 = some mk ∧ Relation.TransGen mk.Needs p.2 q.2) ∨
      p.1 < q.1 := by
  induction h with
  | single hw =>
    rcases hw with ⟨hb, mk, hmk, hn⟩ | hlt
    · exact .inl ⟨hb, mk, hmk, .single hn⟩
    · exact .inr hlt
  | tail _ hw ih =>
    rcases ih with ⟨hb, mk, hmk, hn⟩ | hlt
    · rcases hw with ⟨hb', mk', hmk', hn'⟩ | hlt'
      · rw [← hb] at hmk'
        cases hmk.symm.trans hmk'
        exact .inl ⟨hb.trans hb', mk, hmk, hn.tail hn'⟩
      · exact .inr (hb ▸ hlt')
    · rcases hw with ⟨hb', -⟩ | hlt'
      · exact .inr (hb' ▸ hlt)
      · exact .inr (hlt.trans hlt')

/-- Among finitely many targets, not all can wait for others of them. -/
theorem Run.Acyclic.eq_empty_of_waits (ha : s.Acyclic) {P : Set (Nat × Text)} (hfin : P.Finite)
    (hwaits : ∀ p ∈ P, ∃ q ∈ P, s.WaitsFor p q) : P = ∅ := by
  by_contra hne
  obtain ⟨p0, hp0⟩ := Set.nonempty_iff_ne_empty.2 hne
  have : Finite P := hfin
  let R : P → P → Prop := fun q p => Relation.TransGen s.WaitsFor p q
  have : IsTrans P R := ⟨fun _ _ _ h1 h2 => h2.trans h1⟩
  have : Std.Irrefl R := ⟨fun p hp => by
    rcases Run.WaitsFor.needs_or_lt hp with ⟨-, mk, hmk, hn⟩ | hlt
    · exact ha _ mk hmk _ hn
    · exact lt_irrefl _ hlt⟩
  obtain ⟨p, -, hmin⟩ := (Finite.wellFounded_of_trans_of_irrefl R).has_min Set.univ
    ⟨⟨p0, hp0⟩, trivial⟩
  obtain ⟨q, hq, hpq⟩ := hwaits p.1 p.2
  exact hmin ⟨q, hq⟩ trivial (.single hpq)

section Courses

variable {w : World} {args : List Text} {env : Env} {cwd : Text} {h : List Deed} {L : Ledger}

/-- When nothing is left to be done, the threads are those of who waits. -/
theorem Run.Drained.mem_posts (hD : s.Drained h) {p : Post}
    (hp : p ∈ L.posts s.view.stack s.view.queue) :
    ∃ b t ρ, (b, t, ρ) ∈ L.waits ∧ ρ.post t = p := by
  have hqueue : s.view.queue = 0 := by
    show (s.loop.duties : Multiset Duty) = 0
    rw [hD.queue]
    rfl
  rw [show s.view.stack = [] from hD.stack, hqueue] at hp
  unfold Ledger.posts at hp
  rw [actions_nil, map_nil, map_zero, coe_nil, zero_add, zero_add] at hp
  obtain ⟨⟨b, t, ρ⟩, hmem, hpost⟩ := mem_map.1 hp
  exact ⟨b, t, ρ, hmem, hpost⟩

/-- A target for which someone waits, waits for another one. -/
theorem Run.Drained.waitsFor (hD : s.Drained h) (hB : Balanced h s.view L) (hN : s.Nested)
    (hS : s.Sourced h) {ρ : Reply} (hρ : (b, t, ρ) ∈ L.waits) :
    ∃ b' t' ρ', (b', t', ρ') ∈ L.waits ∧ s.WaitsFor (b, t) (b', t') := by
  have hlost : ∀ b t, ¬ L.lost b t := fun b t hl => hD.calm (hB.accounts.lost b t hl).2.1
  have hmem : ∀ {b t ρ}, (b, t, ρ) ∈ L.waits → ρ ∈ s.replies b t := by
    intro b t ρ hρ
    have hall : L.waitsFor b t = s.replies b t := hB.accounts.replies b t (hlost b t)
    rw [← hall]
    exact Ledger.mem_waitsFor.2 hρ
  obtain ⟨work, hw, hworking⟩ : ∃ work, s.view.work b t = some work ∧
    work.progress ≠ .finished := by
    have hρ' := hmem hρ
    cases hw : s.view.work b t with
    | none =>
      rw [replies_of_new hw] at hρ'
      cases hρ'
    | some work =>
      refine ⟨work, rfl, fun hf => ?_⟩
      rw [replies_of_work hw, hB.accounts.ended b t work hw hf] at hρ'
      cases hρ'
  rcases hB.accounts.staged b t work hw (hlost b t) with ⟨-, hne, σ, hstages, hpurse⟩ | ⟨hf, -⟩
  swap
  · exact absurd hf hworking
  obtain ⟨τ, hτ⟩ := exists_mem_of_ne_zero hne
  obtain ⟨hthread, howner⟩ := mem_purse.1 hτ
  obtain ⟨p, hp, rfl⟩ := mem_map.1 hthread
  obtain ⟨b', t', ρ', hwait, rfl⟩ := hD.mem_posts hp
  refine ⟨b', t', ρ', hwait, ?_⟩
  have hseat := hN.replies b' t' ρ' (hmem hwait)
  -- a make that answers to a recipe comes after its build
  have hmake : ∀ {m : Nat}, s.view.boss b' = some m →
      (s.view.thread (.make m)).owner = some (b, t) → b < b' := by
    intro m hboss ho
    obtain ⟨x, hx⟩ := Option.isSome_iff_exists.1 (hN.ranked.make b' m hboss)
    simp only [View.thread, hx, Option.elim] at ho
    cases hrec : x.receiver with
    | outside =>
      rw [hrec] at ho
      cases ho
    | recipe r line =>
      rw [hrec] at ho
      cases ho
      exact hN.ranked.below b' m x r line hboss hx hrec
  cases ρ' with
  | goals m => exact .inr (hmake hseat.1 howner)
  | makefiles b'' =>
    obtain ⟨rfl, m, hboss, -⟩ := hseat
    refine .inr (hmake hboss ?_)
    rw [← howner]
    simp only [Reply.post, View.thread, hboss, Option.bind_some]
  | dependent r weak =>
    have hb : r.build = b' := (hB.waiting b' t' _ hwait).2
    cases howner
    refine .inl ⟨hb, ?_⟩
    rw [hpurse] at hτ
    have hdone : ∀ e, Thread.dep r t' weak ≠ .done r.build r.target e := by
      intro e he
      cases he
    obtain ⟨j, x, hx, hok, -, owed, hσ, howed⟩ := hstages.of_mem hτ hdone
    rw [hσ] at hok
    obtain ⟨-, -, -, ⟨met, hperm, -⟩, -⟩ := hok
    have hdep : (t', weak) ∈ x.deps := by
      refine hperm.subset (mem_append_right _ ?_)
      split at howed
      · exact mem_of_mem_take howed
      · exact howed
    have hsource : (x.rule, x.deps) ∈ work.sources := mem_map.2 ⟨x, mem_of_getElem? hx, rfl⟩
    obtain ⟨mk, hmk, hfrom⟩ := hS.source hw hsource
    obtain ⟨ref, href, q, hq, e⟩ := hfrom.only (t', weak) hdep
    exact ⟨mk, hmk, ref, href, q, hq, e⟩

/-- When nothing is left to be done, no one waits. -/
theorem Run.Drained.unanswered (hD : s.Drained h) (hc : Course (.init w args env cwd) h s)
    (ha : s.Acyclic) (b : Nat) (t : Text) : s.unanswered b t = 0 := by
  obtain ⟨L, hB⟩ := hc.balanced.resolve_left hD.runs
  have hN := hc.nested.resolve_left hD.runs
  have hS := hc.sourced.resolve_left hD.runs
  have hempty : {p : Nat × Text | ∃ ρ, (p.1, p.2, ρ) ∈ L.waits} = ∅ := by
    refine ha.eq_empty_of_waits ?_ ?_
    · refine (finite_toSet (L.waits.map fun k => (k.1, k.2.1))).subset ?_
      rintro ⟨b, t⟩ ⟨ρ, hρ⟩
      exact mem_map.2 ⟨_, hρ, rfl⟩
    · rintro ⟨b, t⟩ ⟨ρ, hρ⟩
      obtain ⟨b', t', ρ', hρ', hw⟩ := hD.waitsFor hB hN hS hρ
      exact ⟨(b', t'), ⟨ρ', hρ'⟩, hw⟩
  have hreplies : s.replies b t = 0 := by
    refine eq_zero_of_forall_notMem fun ρ hρ => ?_
    have hall := hB.accounts.replies b t fun hl => hD.calm (hB.accounts.lost b t hl).2.1
    have hwait : ρ ∈ L.waitsFor b t := by
      rw [hall]
      exact hρ
    exact Set.eq_empty_iff_forall_notMem.1 hempty (b, t) ⟨ρ, Ledger.mem_waitsFor.1 hwait⟩
  unfold Run.unanswered Run.tasks
  rw [hreplies, hD.stack, show s.view.queue =
    ((s.loop.duties : List Duty) : Multiset Duty) from rfl,
    hD.queue]
  rfl

/-- **Everything happens once.** Whatever the schedule: a step takes no target back; the recipe of
each rule of a target is taken up at most once; whoever asks for a target is told at most once; and
when nothing is left to be done, everyone who has asked was told, once for each time they asked, if
targets do not need each other in a circle. -/
theorem Course.once (hc : Course (.init w args env cwd) h s) :
    (∀ schedule b t, s.rank b t ≤ (s.step schedule).rank b t) ∧ (∀ r, recipeRuns h r ≤ 1) ∧
      (∀ b t, answered h b t ≤ askers h b t) ∧
      (s.Acyclic → s.Drained h → ∀ b t, answered h b t = askers h b t) := by
  refine ⟨fun schedule => s.step_forward schedule, hc.recipeRuns_le_one, hc.answered_le,
    fun ha hD b t => ?_⟩
  rw [hc.answers.resolve_left hD.runs b t, hD.unanswered hc ha b t, add_zero]

end Courses

/-! ## Samples -/

/-- Does every target come after all that it needs? -/
def Makefile.isRanked (mk : Makefile) (rank : Text → Nat) : Bool :=
  mk.targets.all fun x => x.rules.all fun r => (mk.prereqs r).all fun p =>
    decide (rank (properName p) < rank x.name)

theorem Makefile.acyclic_of_isRanked {mk : Makefile} {rank : Text → Nat}
    (hr : mk.isRanked rank = true)
    (t : Text) : ¬ Relation.TransGen mk.Needs t t := by
  have hneeds : ∀ {t d}, mk.Needs t d → rank d < rank t := by
    rintro t d ⟨r, hmem, p, hp, rfl⟩
    unfold targetAt at hmem
    cases ht : mk.target? t with
    | none =>
      rw [ht] at hmem
      cases hmem
    | some x =>
      rw [ht] at hmem
      have hx := all_eq_true.1 hr x (mem_of_find?_eq_some ht)
      have hp := all_eq_true.1 (all_eq_true.1 hx r hmem) p hp
      have hname : x.name = t := by simpa using find?_some ht
      rw [← hname]
      exact of_decide_eq_true hp
  have hlt : ∀ {d}, Relation.TransGen mk.Needs t d → rank d < rank t := by
    intro d hd
    induction hd with
    | single hn => exact hneeds hn
    | tail _ hn ih => exact (hneeds hn).trans ih
  exact fun h => lt_irrefl _ (hlt h)

/-- Are the makefiles of all builds without circles, as the ranks of targets tell? -/
def Run.isRanked (s : Run) (rank : Text → Nat) : Bool :=
  s.builds.all fun x => x.makefile.isRanked rank

theorem Run.acyclic_of_isRanked {rank : Text → Nat} (hr : s.isRanked rank = true) : s.Acyclic := by
  intro b mk hmk
  obtain ⟨x, hx, rfl⟩ := Option.map_eq_some_iff.1 hmk
  exact Makefile.acyclic_of_isRanked (all_eq_true.1 hr x (mem_of_getElem? hx))

/-- Is nothing left to be done, and was no complaint lost? -/
def Run.isDrained (h : List Deed) (s : Run) : Bool :=
  s.stack.isEmpty && s.loop.duties.isEmpty &&
    (match s.outcome with | some (.error _) => false | _ => true) &&
    h.all fun d => match d.action, (perform d.action).run d.before with
      | .nextLine .., (.error _, _) => false
      | _, _ => true

theorem Run.drained_of_isDrained {h : List Deed} (hD : s.isDrained h = true) : s.Drained h := by
  simp only [isDrained, Bool.and_eq_true, List.isEmpty_iff] at hD
  obtain ⟨⟨⟨hstack, hqueue⟩, hruns⟩, hcalm⟩ := hD
  refine ⟨hstack, hqueue, ?_, ?_⟩
  · rintro ⟨e, he⟩
    rw [he] at hruns
    cases hruns
  · rintro ⟨d, hd, r, error, e, s', ha, hf⟩
    have hcalm := all_eq_true.1 hcalm d hd
    have hrun : (perform d.action).run d.before = (.error e, s') := hf
    rw [hrun, ha] at hcalm
    cases hcalm

/-- A makefile in which `d` is asked for again while it is worked on, also by the same rule. -/
def Sample.diamond : Text := "a: b c d\n\tx\n\nb: d\n\nc: d d\n\nd:\n\ty\n"

/-- How many targets of the diamond are on the way to a target. -/
def Sample.rank (t : Text) : Nat := if t = "a" then 2 else if t = "d" then 0 else 1

/-- When all is done, the four who have asked for `d` were told. -/
theorem once_diamond : ∃ h s, Course (start diamond) h s ∧ s.Acyclic ∧ s.Drained h ∧
    (askers h 0 "d").card = 4 ∧ (∀ schedule b t, s.rank b t ≤ (s.step schedule).rank b t) ∧
      (∀ r, recipeRuns h r ≤ 1) ∧ ∀ b t, answered h b t = askers h b t := by
  obtain ⟨h, s, hc, hranked, hdrained, hcard⟩ := Course.of_steps (start diamond) (P := fun h s =>
    s.isRanked rank = true ∧ s.isDrained h = true ∧
    (h.filterMap fun d => d.action.asker 0 "d").length = 4) 83
    (by decide +kernel)
  have hacyclic := acyclic_of_isRanked hranked
  have hdone := drained_of_isDrained hdrained
  obtain ⟨hforward, hruns, -, htold⟩ := Course.once hc
  exact ⟨h, s, hc, hacyclic, hdone, hcard, hforward, hruns, htold hacyclic hdone⟩

/-- The lines with which the recipe of a rule was started in a deed. -/
def Deed.lines? (r : RuleAt) (d : Deed) : Option (List RecipeLine) :=
  match d.action, d.after.stack.head? with
  | .recipe r', some (.action (.nextLine r'' false)) =>
    if r' = r ∧ r'' = r then
      (d.after.work r.build r.target).bind fun w => w.rules[r.rule]?.map (·.lines)
    else none
  | _, _ => none

theorem given_of_lines? {h : List Deed} {lines : List RecipeLine}
    (hl : h.findSome? (Deed.lines? r) = some lines) : Given h r lines := by
  obtain ⟨d, hd, he⟩ := exists_of_findSome?_eq_some hl
  unfold Deed.lines? at he
  split at he
  · rename_i r' r'' ha hs
    split at he
    · rename_i hr
      obtain ⟨rfl, rfl⟩ := hr
      obtain ⟨w, hw, hx⟩ := Option.bind_eq_some_iff.1 he
      obtain ⟨x, hx, hlines⟩ := Option.map_eq_some_iff.1 hx
      exact ⟨d, hd, ha, hs, w, x, hw, hx, hlines⟩
    · cases he
  · cases he

/-- A makefile with a rule that names its target twice. -/
def Sample.twice : Text := "a a::\n\ty\n"

/-- Is it one rule to which two of the rules of a target belong? -/
def Run.sameRule (s : Run) (b : Nat) (t : Text) (i j : Nat) : Bool :=
  match s.work b t with
  | some w =>
    match w.rules[i]?, w.rules[j]? with
    | some x, some y => x.rule.isSome && x.rule == y.rule
    | _, _ => false
  | none => false

/-- A rule that names a target twice has its recipe started twice for that target, though nothing
is needed in a circle. -/
theorem recipe_started_twice : ∃ h s lines lines', Course (start twice) h s ∧
    s.Acyclic ∧ s.sameRule 0 "a" 0 1 = true ∧ Given h ⟨0, "a", 0⟩ lines ∧
      Given h ⟨0, "a", 1⟩ lines' ∧ lines.length = 1 ∧ lines'.length = 1 := by
  obtain ⟨h, s, hc, hranked, hsame, hlines⟩ := Course.of_steps (start twice) (P := fun h s =>
    s.isRanked (fun _ => 0) = true ∧ s.sameRule 0 "a" 0 1 = true ∧
      ∀ i < 2, (h.findSome? (Deed.lines? ⟨0, "a", i⟩)).map List.length = some 1) 39
        (by decide +kernel)
  obtain ⟨lines, hl, hlength⟩ := Option.map_eq_some_iff.1 (hlines 0 (by decide))
  obtain ⟨lines', hl', hlength'⟩ := Option.map_eq_some_iff.1 (hlines 1 (by decide))
  exact ⟨h, s, lines, lines', hc, acyclic_of_isRanked hranked, hsame, given_of_lines? hl,
    given_of_lines? hl', hlength, hlength'⟩

end Rebuild
