import Rebuild.Proofs.Build.Advance
import Rebuild.Proofs.Build.Leaves
/-!
# The ledger of a run

A run keeps threads, each owned by a target or by no one: what it is doing, what waits in a queue
or runs, and those who asked for a target that is being worked on. The ledger lists the last. The
accounts of a run balance (`Accounts`): the threads of a target are those of its stages, a target
without threads is finished, those who asked for a target are the ones it will tell, and at most
one thread is owned by no one. This module shows, kind by kind, how what a run can do to its
threads keeps the accounts.
-/

namespace Rebuild

open Multiset View

variable {T N R : Multiset Thread} {τ : Thread} {b b' : Nat} {t t' : Text} {ρ : Reply}
  {h : List Deed}
  {v : View} {w : Work}

/-- Those who wait for targets, and the targets that were given up. -/
structure Ledger where
  waits : Multiset (Nat × Text × Reply)
  lost : Nat → Text → Prop

/-- Those who wait for a target. -/
def Ledger.waitsFor (L : Ledger) (b : Nat) (t : Text) : Multiset Reply :=
  (L.waits.filter fun p => p.1 = b ∧ p.2.1 = t).map (·.2.2)

/-- The threads of an owner. -/
def purse (T : Multiset Thread) (o : Option (Nat × Text)) : Multiset Thread :=
  T.filter fun τ => τ.owner = o

/-- A recipe could not go on, for a complaint that nothing in the work on targets answers. -/
def Escaped (h : List Deed) : Prop :=
  ∃ d ∈ h, ∃ r error e s, d.action = .nextLine r error ∧ Fails (Run.perform d.action) d.before e s

/-- The accounts of a run with these threads balance. -/
structure Accounts (h : List Deed) (v : View) (L : Ledger) (T : Multiset Thread) : Prop where
  replies : ∀ b t, ¬ L.lost b t →
    L.waitsFor b t = ((v.work b t).elim [] (·.replies) : List Reply)
  ended : ∀ b t w, v.work b t = some w → w.progress = .finished → w.replies = []
  staged : ∀ b t w, v.work b t = some w → ¬ L.lost b t → Staged h v b t w (purse T (some (b, t)))
  lost : ∀ b t, L.lost b t → purse T (some (b, t)) = 0 ∧ Escaped h ∧
    ∃ w, v.work b t = some w ∧ w.progress = .working
  unknown : ∀ b t, v.work b t = none → purse T (some (b, t)) = 0 ∧
    ∀ i, exits h ⟨b, t, i⟩ = [] ∧ recipeRuns h ⟨b, t, i⟩ = 0
  top : (purse T none).card ≤ 1
  seat : ∀ b t w, v.work b t = some w → (v.boss b).isSome

section Purses

variable {o : Option (Nat × Text)}

@[simp] theorem purse_add (T N : Multiset Thread) (o : Option (Nat × Text)) :
    purse (T + N) o = purse T o + purse N o := filter_add ..

theorem purse_cons_self (h : τ.owner = o) (T : Multiset Thread) :
    purse (τ ::ₘ T) o = τ ::ₘ purse T o := filter_cons_of_pos _ h

theorem purse_cons_of_ne (h : τ.owner ≠ o) (T : Multiset Thread) :
    purse (τ ::ₘ T) o = purse T o := filter_cons_of_neg _ h

theorem purse_eq_self (h : ∀ τ ∈ T, τ.owner = o) : purse T o = T := filter_eq_self.2 h

theorem purse_eq_zero (h : ∀ τ ∈ T, τ.owner ≠ o) : purse T o = 0 := filter_eq_nil.2 h

theorem mem_purse : τ ∈ purse T o ↔ τ ∈ T ∧ τ.owner = o := mem_filter

end Purses

theorem Ledger.mem_waitsFor {L : Ledger} : ρ ∈ L.waitsFor b t ↔ (b, t, ρ) ∈ L.waits := by
  simp only [waitsFor, mem_map, mem_filter, Prod.exists]
  constructor
  · rintro ⟨b', t', ρ', ⟨hp, rfl, rfl⟩, rfl⟩
    exact hp
  · intro h
    exact ⟨b, t, ρ, ⟨h, rfl, rfl⟩, rfl⟩

/-- The new one waits for its target and for no other. -/
theorem Ledger.waitsFor_cons (L : Ledger) (b : Nat) (t : Text) (ρ : Reply) (b' : Nat) (t' : Text) :
    Ledger.waitsFor { L with waits := (b, t, ρ) ::ₘ L.waits } b' t' =
      if b = b' ∧ t = t' then ρ ::ₘ L.waitsFor b' t' else L.waitsFor b' t' := by
  unfold waitsFor
  split
  · rw [filter_cons_of_pos _ ‹_›, map_cons]
  · rw [filter_cons_of_neg _ ‹_›]

/-- Nobody waits for a target any more. -/
def Ledger.without (L : Ledger) (b : Nat) (t : Text) : Ledger :=
  { L with waits := L.waits.filter fun p => ¬ (p.1 = b ∧ p.2.1 = t) }

theorem Ledger.waitsFor_without (L : Ledger) (b : Nat) (t : Text) :
    (L.without b t).waitsFor b t = 0 := by
  unfold waitsFor without
  rw [filter_filter, filter_eq_nil.2, map_zero]
  rintro p _ ⟨hp, hn⟩
  exact hn hp

theorem Ledger.waitsFor_without_of_ne (L : Ledger)
    (hbt : (b', t') ≠ (b, t)) : (L.without b t).waitsFor b' t' = L.waitsFor b' t' := by
  unfold waitsFor without
  rw [filter_filter]
  congr 1
  refine filter_congr fun p _ => ⟨And.left, fun hp => ⟨hp, fun hn => hbt ?_⟩⟩
  rw [← hp.1, ← hp.2, hn.1, hn.2]

/-- What is not told about a target does not depend on who waits for it. -/
theorem Staged.of_replies
    {P : Multiset Thread} (hS : Staged h v b t w P) (rs : List Reply) :
    Staged h v b t { w with replies := rs } P := by
  rcases hS with ⟨hw, hP, σ, hS, e⟩ | ⟨hw, hP, hE⟩
  · refine .inl
      ⟨hw, hP, σ, ⟨hS.rule, hS.lead, hS.order, hS.listed, hS.sorted, hS.past, fun hs => ?_,
      fun hs => ?_, hS.blame⟩, e⟩
    · have hold := hS.single hs
      exact ⟨hold.never, hold.one, hold.head⟩
    · have hold := hS.several hs
      exact ⟨hold.lead, hold.busy, hold.active, hold.one, hold.remaining⟩
  · exact .inr ⟨hw, hP, hE.runs, hE.blamed, hE.error, hE.complete, hE.concluded, hE.blame⟩

/-- Work that is begun, or goes on, ends nothing that was finished. -/
theorem Ahead.put (b' : Nat) (u : Work)
    (hopen : ∀ w, v.work b t = some w → w.progress ≠ .finished) : Ahead b' h v h (v.put b t u) := by
  refine ⟨fun _ => id, fun d wd hwd hf => ⟨wd, ?_, hf, rfl⟩, id, rfl⟩
  rw [put_work_of_ne, hwd]
  intro e
  cases e
  exact hopen wd hwd hf

namespace Accounts

variable {h' : List Deed} {d : Deed} {v' : View} {L : Ledger}
  {u : Work} {L' : Ledger}

/-- A target with a thread is being worked on, at the stages that its threads tell. -/
theorem stages (hA : Accounts h v L T) (hτ : τ ∈ T) (ho : τ.owner = some (b, t)) :
    ¬ L.lost b t ∧ ∃ w, v.work b t = some w ∧ w.progress = .working ∧ ∃ σ, Stages h v b t w σ ∧
      purse T (some (b, t)) = purseOf b t w.serial w.rules.length σ := by
  have hmem : τ ∈ purse T (some (b, t)) := mem_purse.2 ⟨hτ, ho⟩
  have hne : purse T (some (b, t)) ≠ 0 := by
    intro hzero
    simp [hzero] at hmem
  have hlost : ¬ L.lost b t := fun hl => hne (hA.lost b t hl).1
  cases hw : v.work b t with
  | none => exact absurd (hA.unknown b t hw).1 hne
  | some w =>
    rcases hA.staged b t w hw hlost with ⟨hp, _, σ, hS, e⟩ | ⟨_, hzero, _⟩
    · exact ⟨hlost, w, rfl, hp, σ, hS, e⟩
    · exact absurd hzero hne

/-- Accounts stay right while nothing happens to the work on targets. -/
theorem of_same_work (hA : Accounts h v L T) (hwork : v'.work = v.work)
    (hfailed : v'.failed = v.failed)
    (hkeep : ∀ b, (v.boss b).isSome → v'.keep b = v.keep b)
    (hboss : ∀ b, (v.boss b).isSome → (v'.boss b).isSome) (hpast : ∀ d ∈ h, d ∈ h')
    (hquiet : ∀ r, Untold h h' r) : Accounts h' v' L T where
  replies := by
    rw [hwork]
    exact hA.replies
  ended := by
    rw [hwork]
    exact hA.ended
  staged b t w hw hl := by
    rw [hwork] at hw
    refine (hA.staged b t w hw hl).ahead ⟨hpast, ?_, ?_, hkeep b (hA.seat b t w hw)⟩
      fun _ => hquiet _
    · intro d wd hwd hf
      exact ⟨wd, by rw [hwork, hwd], hf, rfl⟩
    · rw [hfailed]
      exact id
  lost b t hl := by
    obtain ⟨hp, ⟨d, hd, he⟩, hw⟩ := hA.lost b t hl
    exact ⟨hp, ⟨d, hpast d hd, he⟩, hwork ▸ hw⟩
  unknown b t hw := by
    rw [hwork] at hw
    obtain ⟨hp, hq⟩ := hA.unknown b t hw
    exact ⟨hp, fun i => ⟨(hquiet _).1.trans (hq i).1, (hquiet _).2.trans (hq i).2⟩⟩
  top := hA.top
  seat b t w hw := hboss b (hA.seat b t w (hwork ▸ hw))

/-- Accounts do not depend on what is left to do. -/
theorem restack (hA : Accounts h v L T) (stack : List Frame) (queue : Multiset Duty) :
    Accounts h { v with stack, queue } L T :=
  hA.of_same_work rfl rfl (fun _ _ => rfl) (fun _ => id) (fun _ => id) fun _ => ⟨rfl, rfl⟩

/-- Accounts stay right if a deed tells nothing about recipes. -/
theorem cons_of_silent (hA : Accounts h v L T) (hd : ∀ r, d.action.Silent r) :
    Accounts (d :: h) v L T :=
  hA.of_same_work rfl rfl (fun _ _ => rfl) (fun _ => id) (fun _ => List.mem_cons_of_mem d)
    fun r => (hd r).untold

theorem of_update {T' : Multiset Thread} (hA : Accounts h v L T) (hself : v'.work b t = some u)
    (hother : ∀ b' t', (b', t') ≠ (b, t) → v'.work b' t' = v.work b' t') (hboss : v'.boss = v.boss)
    (hahead : ∀ b', Ahead b' h v h' v') (hlost : L'.lost = L.lost)
    (hwaits : ∀ b' t', (b', t') ≠ (b, t) → L'.waitsFor b' t' = L.waitsFor b' t')
    (hpurse : ∀ o ≠ some (b, t), purse T' o = purse T o)
    (hquiet : ∀ r : RuleAt, (r.build, r.target) ≠ (b, t) → Untold h h' r)
    (hreplies : ¬ L.lost b t → L'.waitsFor b t = (u.replies : Multiset Reply))
    (hended : u.progress = .finished → u.replies = [])
    (hstaged : ¬ L.lost b t → Staged h' v' b t u (purse T' (some (b, t))))
    (hgiven : L.lost b t → purse T' (some (b, t)) = 0 ∧ u.progress = .working)
    (hseat : (v.boss b).isSome) : Accounts h' v' L' T' where
  replies b' t' hl := by
    rw [hlost] at hl
    by_cases hbt : (b', t') = (b, t)
    · cases hbt
      rw [hself]
      exact hreplies hl
    · rw [hother b' t' hbt, hwaits b' t' hbt]
      exact hA.replies b' t' hl
  ended b' t' w' hw' hf := by
    by_cases hbt : (b', t') = (b, t)
    · cases hbt
      rw [hself] at hw'
      cases hw'
      exact hended hf
    · rw [hother b' t' hbt] at hw'
      exact hA.ended b' t' w' hw' hf
  staged b' t' w' hw' hl := by
    rw [hlost] at hl
    by_cases hbt : (b', t') = (b, t)
    · cases hbt
      rw [hself] at hw'
      cases hw'
      exact hstaged hl
    · rw [hother b' t' hbt] at hw'
      rw [hpurse _ fun e => hbt (Option.some.inj e)]
      exact (hA.staged b' t' w' hw' hl).ahead (hahead b') fun i => hquiet ⟨b', t', i⟩ hbt
  lost b' t' hl := by
    rw [hlost] at hl
    obtain ⟨hp, ⟨d, hd, he⟩, w', hw', hw⟩ := hA.lost b' t' hl
    have hescaped : Escaped h' := ⟨d, (hahead b').past d hd, he⟩
    by_cases hbt : (b', t') = (b, t)
    · cases hbt
      exact ⟨(hgiven hl).1, hescaped, u, hself, (hgiven hl).2⟩
    · exact ⟨(hpurse _ fun e => hbt (Option.some.inj e)).trans hp, hescaped, w',
        (hother b' t' hbt).trans hw', hw⟩
  unknown b' t' hw' := by
    by_cases hbt : (b', t') = (b, t)
    · cases hbt
      rw [hself] at hw'
      cases hw'
    · rw [hother b' t' hbt] at hw'
      obtain ⟨hp, hq⟩ := hA.unknown b' t' hw'
      exact ⟨(hpurse _ fun e => hbt (Option.some.inj e)).trans hp, fun i =>
        ⟨(hquiet ⟨b', t', i⟩ hbt).1.trans (hq i).1, (hquiet ⟨b', t', i⟩ hbt).2.trans (hq i).2⟩⟩
  top := by
    rw [hpurse none nofun]
    exact hA.top
  seat b' t' w' hw' := by
    rw [hboss]
    by_cases hbt : (b', t') = (b, t)
    · cases hbt
      exact hseat
    · exact hA.seat b' t' w' ((hother b' t' hbt) ▸ hw')

/-- Nobody else waits for a target than before, but for one target. -/
theorem waitsFor_cons_of_ne (ρ : Reply) (hbt : (b', t') ≠ (b, t)) :
    Ledger.waitsFor { L with waits := (b, t, ρ) ::ₘ L.waits } b' t' = L.waitsFor b' t' := by
  rw [Ledger.waitsFor_cons, if_neg fun e => hbt (by rw [e.1, e.2])]

/-- Accounts stay right if one more waits for a target that is being worked on. -/
theorem of_join (hA : Accounts h v L T) (hw : v.work b t = some w) (hp : w.progress = .working)
    (ρ : Reply) :
    Accounts h (v.put b t { w with replies := w.replies ++ [ρ] })
      { L with waits := (b, t, ρ) ::ₘ L.waits } T := by
  have hahead : ∀ b', Ahead b' h v h (v.put b t { w with replies := w.replies ++ [ρ] }) := by
    refine fun b' => Ahead.put b' _ fun w' hw' hf => ?_
    simp [Option.some.inj (hw'.symm.trans hw), hp] at hf
  refine hA.of_update (put_work_self ..) (fun _ _ => put_work_of_ne _ _) rfl hahead rfl
    (fun _ _ => waitsFor_cons_of_ne ρ) (fun _ _ => rfl) (fun _ _ => ⟨rfl, rfl⟩) (fun hl => ?_)
    (fun hf => ?_) (fun hl => ?_) (fun hl => ?_) (hA.seat b t w hw)
  · have hold := hA.replies b t hl
    rw [hw] at hold
    rw [Ledger.waitsFor_cons, if_pos ⟨rfl, rfl⟩, hold]
    exact coe_eq_coe.2 (List.perm_append_singleton ρ w.replies).symm
  · simp [hp] at hf
  · exact ((hA.staged b t w hw hl).of_replies _).ahead (hahead b) fun _ => ⟨rfl, rfl⟩
  · exact ⟨(hA.lost b t hl).1, hp⟩

/-- Accounts are right with a target that is begun and was not known, and its threads. -/
theorem of_new (hA : Accounts h v L T) (L' : Ledger) (hw : v.work b t = none)
    (hlost : L'.lost = L.lost)
    (hwaits : ∀ b' t', (b', t') ≠ (b, t) → L'.waitsFor b' t' = L.waitsFor b' t')
    (hreplies : L'.waitsFor b t = (u.replies : Multiset Reply) + L.waitsFor b t)
    (hended : u.progress = .finished → u.replies = []) (hN : ∀ τ ∈ N, τ.owner = some (b, t))
    (hstaged : Staged h (v.put b t u) b t u N) (hseat : (v.boss b).isSome) :
    Accounts h (v.put b t u) L' (N + T) := by
  obtain ⟨hpurse, _⟩ := hA.unknown b t hw
  have hnot : ¬ L.lost b t := by
    intro hl
    obtain ⟨_, _, w, hw', _⟩ := hA.lost b t hl
    rw [hw] at hw'
    cases hw'
  refine hA.of_update (put_work_self ..) (fun _ _ => put_work_of_ne _ _) rfl
    (fun b' => Ahead.put b' _ fun w' hw' => ?_) hlost hwaits (fun o ho => ?_)
    (fun _ _ => ⟨rfl, rfl⟩) (fun hl => ?_) hended (fun _ => ?_) (fun hl => absurd hl hnot) hseat
  · rw [hw] at hw'
    cases hw'
  · rw [purse_add, purse_eq_zero fun τ hτ => (hN τ hτ).trans_ne ho.symm, zero_add]
  · have hold := hA.replies b t hnot
    rw [hw] at hold
    rw [hreplies, hold]
    exact add_zero _
  · rwa [purse_add, hpurse, purse_eq_self hN, add_zero]

/-- Accounts stay right after a turn of a target. If it is over, those who wait for it are told. -/
theorem of_turn {act : Action} {now : List Action} {late : List Duty} {fails ends : Bool}
    (hA : Accounts h v L (v.thread act.post ::ₘ R)) (hw : v.work b t = some w)
    (ht : Turn v b t w act u now late fails ends) (hd : d.action = act)
    (hbefore : d.before.view = v)
    (hafter : d.after.work b t = some u)
    (hstack : ∃ rest, d.after.stack = now.map Frame.action ++ rest)
    (hcalm : ∀ r e, Thread.resolved r e ∉ R)
    (hv : v' = { (v.put b t u).failIf b fails with stack := v'.stack, queue := v'.queue }) :
    Accounts (d :: h) v' (if ends then L.without b t else L)
      (((now.map Action.post ++ late.map Duty.post).map v'.thread : List Thread) + R) := by
  obtain ⟨τ, hpost, howner⟩ := ht.owner
  have hthread : v.thread act.post = τ := by
    rw [hpost]
    rfl
  rw [hthread] at hA
  obtain ⟨hlost, w', hw', hp, σ, hS, hσ⟩ := hA.stages (mem_cons_self τ R) howner
  obtain rfl : w' = w := Option.some.inj (hw'.symm.trans hw)
  rw [purse_cons_self howner] at hσ
  have hwork : v'.work = (v.put b t u).work := by
    rw [hv]
    exact failIf_work ..
  have hkeep : v'.keep = v.keep := by
    rw [hv]
    exact failIf_keep ..
  have hfailed : ∀ b', v'.failed b' = ((v.put b t u).failIf b fails).failed b' := by
    rw [hv]
    exact fun _ => rfl
  have hahead : ∀ b', Ahead b' h v (d :: h) v' := by
    intro b'
    refine ⟨fun _ => List.mem_cons_of_mem d, fun name wd hwd hf => ⟨wd, ?_, hf, rfl⟩,
      fun hf => ?_, ?_⟩
    · rw [hwork, put_work_of_ne, hwd]
      intro e
      obtain ⟨rfl, rfl⟩ := Prod.mk.inj e
      simp [Option.some.inj (hwd.symm.trans hw), hp] at hf
    · rw [hfailed]
      cases fails
      · exact hf
      · by_cases hb : b' = b
        · simp [hb, fail]
        · simpa [fail, Function.update_of_ne hb] using hf
    · rw [hkeep]
  have hN : ∀ τ ∈ (((now.map Action.post ++ late.map Duty.post).map v'.thread : List Thread) :
      Multiset Thread), τ.owner = some (b, t) := by
    intro τ hτ
    obtain ⟨p, hp, rfl⟩ := List.mem_map.1 (mem_coe.1 hτ)
    obtain ⟨τ, rfl, ho⟩ := ht.posts hp
    exact ho
  refine hA.of_update (hwork ▸ put_work_self ..) (fun _ _ hbt => ?_) ?_ hahead ?_ ?_ ?_ ?_ ?_ ?_ ?_
    (fun hl => absurd hl hlost) (hA.seat b t w' hw)
  · rw [hwork, put_work_of_ne _ _ hbt]
  · rw [hv]
    cases fails <;> rfl
  · cases ends <;> rfl
  · intro b' t' hbt
    cases ends
    · rfl
    · exact Ledger.waitsFor_without_of_ne L hbt
  · intro o ho
    rw [purse_add, purse_cons_of_ne (howner.trans_ne ho.symm),
      purse_eq_zero fun τ hτ => (hN τ hτ).trans_ne ho.symm, zero_add]
  · intro r hr
    have hforeign := Action.foreign (a := d.action) fun τ' hτ' ho => by
      rw [hd, hpost] at hτ'
      cases hτ'
      exact hr (Option.some.inj (ho.symm.trans howner))
    exact Action.Silent.untold hforeign
  · intro _
    rw [ht.goesOn.replies]
    cases ends with
    | true => exact Ledger.waitsFor_without L b t
    | false =>
      have hold := hA.replies b t hlost
      rwa [hw] at hold
  · intro hf
    rw [ht.goesOn.progress] at hf
    rw [ht.goesOn.replies]
    cases ends with
    | true => rfl
    | false => cases hp.symm.trans hf
  · intro _
    rw [purse_add, purse_eq_self hN]
    refine ht.staged hS hp hd hbefore hafter hstack (hahead b) ?_ ?_ fun r e hr => ?_
    · rw [hfailed, failIf_failed_self]
      rfl
    · rw [hthread]
      exact hσ.symm
    · exact hcalm r e (mem_purse.1 hr).1

/-- Accounts stay right without a thread that belongs to no target. -/
theorem of_cons_outside (hA : Accounts h v L (τ ::ₘ R)) (ho : τ.owner = none) :
    Accounts h v L R := by
  have hpurse : ∀ b t, purse (τ ::ₘ R) (some (b, t)) = purse R (some (b, t)) := fun b t =>
    purse_cons_of_ne (by rw [ho]; exact nofun) R
  refine ⟨hA.replies, hA.ended, fun b t w hw hl => hpurse b t ▸ hA.staged b t w hw hl,
    fun b t hl => hpurse b t ▸ hA.lost b t hl, fun b t hw => hpurse b t ▸ hA.unknown b t hw, ?_,
    hA.seat⟩
  have htop := hA.top
  rw [purse_cons_self ho, card_cons] at htop
  omega

/-- Accounts stay right if a target is given up whose rules follow each other, with its thread. -/
theorem of_loss (hA : Accounts h v L (τ ::ₘ R)) (ho : τ.owner = some (b, t))
    (hw : v.work b t = some w)
    (hs : w.serial = true) (hescaped : Escaped h)
    (hlost : ∀ b' t', L'.lost b' t' ↔ L.lost b' t' ∨ (b', t') = (b, t))
    (hwaits : ∀ b' t', (b', t') ≠ (b, t) → L'.waitsFor b' t' = L.waitsFor b' t') :
    Accounts h v L' R := by
  obtain ⟨_, w', hw', hp, σ, hS, hσ⟩ := hA.stages (mem_cons_self τ R) ho
  obtain rfl : w' = w := Option.some.inj (hw'.symm.trans hw)
  rw [purse_cons_self ho] at hσ
  have hzero : purse R (some (b, t)) = 0 := hS.alone hs hσ.symm
  have hpurse : ∀ o ≠ some (b, t), purse (τ ::ₘ R) o = purse R o := fun o hne =>
    purse_cons_of_ne (ho.trans_ne hne.symm) R
  have hne : ∀ {b' t'}, ¬ L'.lost b' t' → ¬ L.lost b' t' ∧ (b', t') ≠ (b, t) := by
    intro b' t' hl
    rw [hlost] at hl
    exact not_or.1 hl
  refine ⟨fun b' t' hl => ?_, hA.ended, fun b' t' w'' hw'' hl => ?_, fun b' t' hl => ?_,
    fun b' t' hw'' => ?_, ?_, hA.seat⟩
  · rw [hwaits b' t' (hne hl).2]
    exact hA.replies b' t' (hne hl).1
  · rw [← hpurse _ fun e => (hne hl).2 (Option.some.inj e)]
    exact hA.staged b' t' w'' hw'' (hne hl).1
  · by_cases hbt : (b', t') = (b, t)
    · obtain ⟨rfl, rfl⟩ := Prod.mk.inj hbt
      exact ⟨hzero, hescaped, w', hw, hp⟩
    · rw [← hpurse _ fun e => hbt (Option.some.inj e)]
      exact hA.lost b' t' (((hlost b' t').1 hl).resolve_right hbt)
  · have hbt : (b', t') ≠ (b, t) := by
      intro e
      obtain ⟨rfl, rfl⟩ := Prod.mk.inj e
      rw [hw] at hw''
      cases hw''
    rw [← hpurse _ fun e => hbt (Option.some.inj e)]
    exact hA.unknown b' t' hw''
  · rw [← hpurse none nofun]
    exact hA.top

/-- Nothing that is known depends on the work on a target that was given up, as long as it is not
finished. -/
theorem put_lost (hA : Accounts h v L T) (hl : L.lost b t) (hp : u.progress = .working) :
    Accounts h (v.put b t u) L T := by
  obtain ⟨hpurse, _, w, hw, hwp⟩ := hA.lost b t hl
  refine hA.of_update (put_work_self ..) (fun _ _ => put_work_of_ne _ _) rfl
    (fun b' => Ahead.put b' _ fun w' hw' hf => ?_) rfl (fun _ _ _ => rfl) (fun _ _ => rfl)
    (fun _ _ => ⟨rfl, rfl⟩) (fun h => absurd hl h) (fun hf => ?_) (fun h => absurd hl h)
    (fun _ => ⟨hpurse, hp⟩) (hA.seat b t w hw)
  · simp [Option.some.inj (hw'.symm.trans hw), hwp] at hf
  · simp [hp] at hf

end Accounts

end Rebuild
