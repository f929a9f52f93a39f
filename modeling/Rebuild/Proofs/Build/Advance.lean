import Rebuild.Proofs.Build.Staged
/-!
# Turns take rules on

A turn of a target takes the rule whose thread it takes up to its next stage: a rule that is told
about a prerequisite has one less to wait for, a recipe that is done lets the next rule go on. What
the stages of the target say, and that its threads are those of the stages, holds after the turn as
before it (`Turn.staged`).
-/

open Function

namespace Rebuild

open List Stage Work

variable {now : List Action} {late : List Duty}

variable {h : List Deed} {d : Deed} {v v' : View} {b : Nat} {t : Text} {w u : Work}
  {σ : Nat → Stage}

variable {h' : List Deed} {x : RuleWork} {j : Nat} {a : Stage} {τ : Thread} {e : Bool}
  {P N R : Multiset Thread} {err weak error did stop ends y fails : Bool} {r : RuleAt}
  {f : RuleWork → RuleWork} {τ' : Thread} {act : Action}

theorem Stage.threads_ne_zero {serial : Bool} (hok : a.Ok h v r x serial err)
    (ha : a.isCurrent = true) : a.threads serial r ≠ 0 := by
  cases a with
  | gather owed =>
    obtain ⟨_, _, hne, _⟩ := hok
    cases owed with
    | nil => cases hne rfl
    | cons d rest => cases serial <;> simp [threads]
  | fresh => cases ha
  | closed => cases ha
  | out => cases ha
  | _ => exact Multiset.singleton_ne_zero _

/-- Where rules follow each other, only the one under way has a thread. -/
theorem Stage.isCurrent_of_mem (hτ : τ ∈ a.threads true r) : a.isCurrent = true := by
  cases a with
  | fresh => cases hτ
  | closed => cases hτ
  | out => cases hτ
  | _ => rfl

/-- The rule whose thread is taken up. -/
theorem Stages.of_purse (hS : Stages h v b t w σ) (hP : w.purse b t σ = τ ::ₘ P)
    (hdone : ∀ e, τ ≠ .done b t e) :
    ∃ j x, w.rules[j]? = some x ∧ (σ j).Ok h v ⟨b, t, j⟩ x w.serial w.error ∧
    τ.At w.serial ⟨b, t, j⟩ (σ j) :=
  hS.of_mem (hP ▸ Multiset.mem_cons_self τ P) hdone

/-- Where rules follow each other, a rule with a thread is the only one under way. -/
theorem Stages.only (hS : Stages h v b t w σ) (hj : j ≤ w.rules.length)
    (hτ : τ ∈ (σ j).threads w.serial ⟨b, t, j⟩) (hs : w.serial = true) :
    (∀ i ≤ w.rules.length, (σ i).isCurrent = true → i = j) ∧
      ((σ j).isBefore = true → w.order.head? = some j) := by
  rw [hs] at hτ
  have hc := isCurrent_of_mem hτ
  exact ⟨fun i hi hci => (hS.single hs).one i j hi hj hci hc, (hS.single hs).head j hj hc⟩

/-- A target whose rule has gone to a stage with a thread is still being worked on. -/
theorem Stages.staged (hS : Stages h' v' b t u (update σ j a))
    (hu : u.progress = .working) (hlen : u.rules.length = w.rules.length)
    (hserial : u.serial = w.serial) (hj : j ≤ w.rules.length)
    (hP : w.purse b t σ = τ ::ₘ P)
    (hσ : (σ j).threads w.serial ⟨b, t, j⟩ = τ ::ₘ R)
    (ha : a.threads w.serial ⟨b, t, j⟩ = N + R) (hne : a.threads w.serial ⟨b, t, j⟩ ≠ 0) :
    Staged h' v' b t u (N + P) := by
  have hpurse : purseOf b t u.serial u.rules.length (update σ j a) = N + P := by
    rw [hlen, hserial]
    exact purseOf_take hj hP hσ ha
  refine .inl ⟨hu, ?_, _, hS, hpurse.symm⟩
  rw [← hpurse, Ne, purseOf_eq_zero, hlen, hserial]
  intro hzero
  have := hzero j hj
  rw [update_self] at this
  exact hne this

/-- A rule whose prerequisites are to be seen to goes on to them, or has none. -/
theorem Sees.stage (hs : Sees b t j w u now late)
    (hx : w.rules[j]? = some x) (hok : fresh.Ok h v ⟨b, t, j⟩ x w.serial err) :
    ∃ f, ∃ a : Stage, u = w.onRule j f ∧ KeepsError f ∧
      a.isOpen = true ∧ a.isCurrent = true ∧ a.Ok h v ⟨b, t, j⟩ (f x) w.serial err ∧
      a.threads w.serial ⟨b, t, j⟩ =
        ((now.map Action.post ++ late.map Duty.post).map v.thread : List Thread) := by
  obtain ⟨hu, hxe, hleft⟩ := hok
  have hfalse : ∀ {y : RuleWork}, y.error = x.error → Blamed h v ⟨b, t, j⟩ y := by
    intro y hy he
    simp [hy, hxe] at he
  cases hs with
  | @first y d weak rest serial rule deps =>
    cases hx.symm.trans rule
    refine ⟨_, .gather x.deps, rfl, fun _ => id, rfl, rfl,
      ⟨hu, hfalse rfl, by simp [deps], ⟨[], .refl _, nofun⟩, by simp [deps], by simp [serial]⟩, ?_⟩
    rw [serial, deps]
    rfl
  | @none y serial rule deps =>
    cases hx.symm.trans rule
    refine ⟨_, .ready x.error, rfl, fun _ => id, rfl, rfl,
      ⟨hu, hfalse rfl, rfl, ?_, by simp [serial]⟩, rfl⟩
    intro _ d hd
    simp [deps] at hd
  | @all y parallel rule left =>
    cases hx.symm.trans rule
    rw [hleft parallel, Nat.add_sub_cancel] at left
    refine ⟨_, .gather x.deps, rfl, fun _ => id, rfl, rfl, ⟨hu, hfalse rfl,
      ne_nil_of_length_pos (Nat.pos_of_ne_zero left), ⟨[], .refl _, nofun⟩, by simp [parallel], ?_⟩,
      ?_⟩
    · intro _
      rw [hleft parallel, Nat.add_sub_cancel]
    · rw [parallel]
      simp only [threads, Bool.false_eq_true, if_false, map_nil, nil_append, map_map]
      rfl
  | @ready y parallel rule left =>
    cases hx.symm.trans rule
    have hnone : x.deps.length = 0 := by rwa [hleft parallel, Nat.add_sub_cancel] at left
    refine ⟨_, .ready x.error, rfl, fun _ => id, rfl, rfl,
      ⟨hu, hfalse rfl, rfl, ?_, fun _ _ => left⟩, rfl⟩
    intro _ d hd
    simp [length_eq_zero_iff.1 hnone] at hd

theorem RuleWork.minds_hear {weak' : Bool} (x : RuleWork) (weak error did : Bool)
    (hm : x.minds weak' = true) : (x.hear weak error did).minds weak' = true := by
  cases weak' <;> simp_all [RuleWork.minds, RuleWork.hear]

theorem RuleWork.minds_hear_self (x : RuleWork) (weak did : Bool) :
    (x.hear weak true did).minds weak = true := by
  cases weak <;> simp [RuleWork.minds, RuleWork.hear]

/-- A rule that is told about a prerequisite it waits for has it accounted for. -/
theorem Hears.stage {d : Text} {owed : List (Text × Bool)}
    (hh : Hears (v.keep b) b t j weak error did w u now late) (hx : w.rules[j]? = some x)
    (hok : (gather owed).Ok h v ⟨b, t, j⟩ x w.serial err)
    (hd : (d, weak) ∈ if w.serial then owed.take 1 else owed)
    (htold : (∃ wd, v.work b d = some wd ∧ wd.progress = .finished ∧ wd.error = error) ∨
      Refused h ⟨b, t, j⟩ d ∧ error = true) :
    ∃ f, ∃ a : Stage, ∃ R, u = w.onRule j f ∧
      KeepsError f ∧ a.isOpen = true ∧
      a.isCurrent = true ∧ a.Ok h v ⟨b, t, j⟩ (f x) w.serial err ∧
      (gather owed).threads w.serial ⟨b, t, j⟩ = .dep ⟨b, t, j⟩ d weak ::ₘ R ∧
      a.threads w.serial ⟨b, t, j⟩ =
        ((now.map Action.post ++ late.map Duty.post).map v.thread : List Thread) + R := by
  obtain ⟨hu, hb, hne, ⟨met, hperm, hmet⟩, hqueue, hleft⟩ := hok
  -- The rule has learned what it must: about this prerequisite, and about those it knew.
  have hnew : Accounted h v ⟨b, t, j⟩ (x.hear weak error did) (d, weak) := by
    rcases htold with ⟨wd, hwd, hf, he⟩ | ⟨hr, he⟩
    · refine .inl ⟨wd, hwd, hf, fun h => ?_⟩
      rw [← he, h]
      exact x.minds_hear_self weak did
    · rw [he]
      exact .inr ⟨hr, x.minds_hear_self weak did⟩
  have hall : ∀ p ∈ met ++ [(d, weak)], Accounted h v ⟨b, t, j⟩ (x.hear weak error did) p := by
    intro p hp
    rcases mem_append.1 hp with hp | hp
    · rcases hmet p hp with ⟨wd, hwd, hf, he⟩ | ⟨hr, hm⟩
      · exact .inl ⟨wd, hwd, hf, fun h => x.minds_hear weak error did (he h)⟩
      · exact .inr ⟨hr, x.minds_hear weak error did hm⟩
    · rw [mem_singleton.1 hp]
      exact hnew
  have howed : (d, weak) ∈ owed := by
    split at hd
    · exact mem_of_mem_take hd
    · exact hd
  have hblamed : Blamed h v ⟨b, t, j⟩ (x.hear weak error did) := by
    intro he
    rcases Bool.or_eq_true_iff.1 he with hxe | hnow
    · exact hb hxe
    · simp only [Bool.and_eq_true, Bool.not_eq_true'] at hnow
      refine .inl ⟨d, hperm.subset (mem_append_right _ (hnow.2 ▸ howed)), ?_⟩
      rcases htold with ⟨wd, hwd, hf, he⟩ | ⟨hr, _⟩
      · exact .inl ⟨wd, hwd, hf, he.trans hnow.1⟩
      · exact .inr hr
  have hmono : ∀ x : RuleWork, x.error = true → (x.hear weak error did).error = true :=
    fun x h => by simp [RuleWork.hear, h]
  -- Where prerequisites follow each other, this is the first of those that are owed.
  have hserial : w.serial = true → ∃ rest, owed = (d, weak) :: rest := by
    intro hs
    rw [hs, if_pos rfl] at hd
    cases owed with
    | nil => cases hd
    | cons p rest => exact ⟨rest, by rw [mem_singleton.1 hd]⟩
  have hshift : ∀ rest, owed.Perm ((d, weak) :: rest) →
      (met ++ [(d, weak)] ++ rest).Perm x.deps := by
    intro rest hr
    rw [append_assoc]
    exact (List.Perm.append_left met hr.symm).trans hperm
  have hcomplete : owed.Perm [(d, weak)] → Complete h v ⟨b, t, j⟩ (x.hear weak error did) := by
    intro hr p hp
    refine hall p ?_
    have := (hshift [] hr).symm.subset hp
    rwa [append_nil] at this
  cases hh with
  | @stop y serial rule fault strong halt =>
    cases hx.symm.trans rule
    obtain ⟨rest, rfl⟩ := hserial serial
    have hxe : (x.hear weak error did).error = true := by simp [RuleWork.hear, fault, strong]
    refine ⟨_, .ready true, 0, rfl, hmono, rfl, rfl, ⟨hu, hblamed, hxe.symm, ?_, ?_⟩, ?_, rfl⟩
    · rintro (h | h)
      · simp [hxe] at h
      · simp [show v.keep b = true from h] at halt
    · intro _ hs
      simp [serial] at hs
    · rw [serial]
      rfl
  | @walk y d' weak' rest serial rule queue goes =>
    cases hx.symm.trans rule
    obtain ⟨tail, rfl⟩ := hserial serial
    have htail : tail = (d', weak') :: rest := (hqueue serial).symm.trans queue
    refine ⟨_, .gather tail, 0, rfl, hmono, rfl, rfl,
      ⟨hu, hblamed, ?_, ⟨met ++ [(d, weak)], hshift tail (.refl _), hall⟩, ?_, ?_⟩, ?_, ?_⟩
    · rw [htail]
      exact cons_ne_nil _ _
    · intro _
      rw [htail]
      rfl
    · simp [serial]
    · rw [serial]
      rfl
    · rw [serial, htail]
      rfl
  | @last y serial rule queue =>
    cases hx.symm.trans rule
    obtain ⟨tail, rfl⟩ := hserial serial
    obtain rfl : tail = [] := (hqueue serial).symm.trans queue
    refine ⟨_, .ready (x.hear weak error did).error, 0, rfl, hmono, rfl, rfl,
      ⟨hu, hblamed, rfl, fun _ => hcomplete (.refl _), ?_⟩, ?_, rfl⟩
    · intro _ hs
      simp [serial] at hs
    · rw [serial]
      rfl
  | @more y parallel rule left =>
    cases hx.symm.trans rule
    rw [hleft parallel] at left
    have hcons := perm_cons_erase howed
    have hlen : (owed.erase (d, weak)).length = owed.length - 1 := length_erase_of_mem howed
    refine ⟨_, .gather (owed.erase (d, weak)), _, rfl, hmono, rfl, rfl,
      ⟨hu, hblamed, ?_, ⟨met ++ [(d, weak)], hshift _ hcons, hall⟩, ?_, ?_⟩, ?_, (zero_add _).symm⟩
    · exact ne_nil_of_length_pos (by omega)
    · simp [parallel]
    · intro _
      rw [hleft parallel, hlen]
    · rw [parallel]
      exact Multiset.coe_eq_coe.2 (hcons.map _)
  | @ready y parallel rule left =>
    cases hx.symm.trans rule
    have hone : owed = [(d, weak)] := by
      rw [hleft parallel] at left
      have hpos : 0 < owed.length := length_pos_of_ne_nil hne
      obtain ⟨p, rfl⟩ := length_eq_one_iff.1 (show owed.length = 1 by omega)
      rw [mem_singleton.1 howed]
    subst hone
    refine ⟨_, .ready (x.hear weak error did).error, 0, rfl, hmono, rfl, rfl,
      ⟨hu, hblamed, rfl, fun _ => hcomplete (.refl _), fun _ _ => left⟩, ?_, rfl⟩
    rw [parallel]
    rfl

/-- A target with several rules at a time goes on to its next recipe. -/
theorem Next.staged (hn : Next stop b t w u late ends) (hS : Stages h v b t w σ)
    (hw : w.progress = .working) (hs : w.serial = false) (hbusy : w.busy = false)
    (hstop : stop = true → v.failed b = true ∧ v.keep b = false)
    (hP : w.purse b t σ = P) (hprompt : ∀ r e, Thread.resolved r e ∉ P) :
    Staged h v b t u (((late.map Duty.post).map v.thread : List Thread) + P) := by
  subst hP
  have hleft : Stages h v b t { w with order := w.leftOrder stop } σ := hS.move_order hs hstop
  have hold := hS.several hs
  have hidle : ∀ i < w.rules.length, (σ i).isActive = false := by
    intro i hi
    by_contra hc
    simp [hold.busy i hi (by simpa using hc)] at hbusy
  -- A rule that is not resolved has a thread, so the target has.
  have hopen : ∀ i < w.rules.length, (σ i).isOpen = true →
      w.purse b t σ ≠ 0 := by
    intro i hi ho hzero
    have hthreads := purseOf_eq_zero.1 hzero i hi.le
    have hok := hS.rule i _ (getElem?_eq_getElem hi)
    cases hσ : σ i with
    | fresh => rw [hσ, hs] at hthreads; exact Multiset.singleton_ne_zero _ hthreads
    | gather owed => rw [hσ] at hok hthreads; exact threads_ne_zero hok rfl hthreads
    | ready e => rw [hσ] at hok hthreads; exact threads_ne_zero hok rfl hthreads
    | _ => rw [hσ] at ho; cases ho
  -- The first rule in the order has no error, and its recipe is not taken up.
  have hfirst : ∀ {i rest}, w.leftOrder stop = i :: rest →
      ∃ x, w.rules[i]? = some x ∧ x.error = false ∧ (σ i).isBefore = true := by
    intro i rest horder
    obtain ⟨hi, hb⟩ := hleft.listed i (by rw [horder]; exact mem_cons_self)
    refine ⟨_, getElem?_eq_getElem hi, ?_, hb⟩
    have hnot : w.isBroken i = false := by
      unfold leftOrder at horder
      split at horder
      · cases horder
      · have := head?_dropWhile_not w.isBroken w.order
        rw [horder] at this
        exact this
    rwa [isBroken, getElem?_eq_getElem hi] at hnot
  cases hn with
  | closes horder hremaining hworking =>
    rw [horder] at hleft
    have hquiet : ∀ i < w.rules.length, σ i = .out ∨ σ i = .closed := by
      intro i hi
      have hnot : (σ i).isOpen = false := by
        by_contra ho
        have hmem : i ∈ (Finset.range w.rules.length).filter fun i => (σ i).isOpen = true :=
          Finset.mem_filter.2 ⟨Finset.mem_range.2 hi, by simpa using ho⟩
        have hcard := hold.remaining
        rw [hremaining] at hcard
        simp [Finset.card_eq_zero.1 hcard.symm] at hmem
      have hactive := hidle i hi
      cases hσ : σ i with
      | out => exact .inl rfl
      | closed => exact .inr rfl
      | _ => simp [hσ, isOpen, isActive] at hnot hactive
    have hzero : w.purse b t σ = 0 := by
      refine purseOf_eq_zero.2 fun i hi => ?_
      rcases hi.lt_or_eq with hi | rfl
      · rcases hquiet i hi with h | h <;> rw [h] <;> rfl
      · rw [hold.lead]
        rfl
    have hended := hleft.ended (.inr fun i hi => (hquiet i hi).imp_right fun h => ⟨h, not_mem_nil⟩)
    refine .inr ⟨rfl, ?_, ?_⟩
    · rw [hzero]
      rfl
    · exact ⟨hended.runs, hended.blamed, hended.error, hended.complete, hended.concluded,
        hended.blame⟩
  | idle horder hremaining =>
    rw [horder] at hleft
    refine .inl ⟨hw, ?_, σ, hleft, zero_add _⟩
    obtain ⟨i, hi⟩ := Finset.card_pos.1 (Nat.pos_of_ne_zero (hold.remaining ▸ hremaining))
    obtain ⟨hi, ho⟩ := Finset.mem_filter.1 hi
    exact (zero_add _).trans_ne (hopen i (Finset.mem_range.1 hi) ho)
  | @wait i rest horder hdeps =>
    obtain ⟨x, hx, hxe, hb⟩ := hfirst horder
    rw [horder] at hleft
    refine .inl ⟨hw, ?_, σ, hleft, zero_add _⟩
    have hi := of_getElem?_eq_some hx
    have hok := hS.rule i x hx
    refine (zero_add _).trans_ne (hopen i hi ?_)
    cases hσ : σ i with
    | closed =>
      rw [hσ] at hok
      exact absurd (by rw [depsLeft, hx]; exact hok.2.2.2.2 hxe) hdeps
    | fresh => rfl
    | gather owed => rfl
    | ready e => rfl
    | _ => rw [hσ] at hb; cases hb
  | @start i rest horder hdeps =>
    obtain ⟨x, hx, hxe, hb⟩ := hfirst horder
    rw [horder] at hleft
    have hi := of_getElem?_eq_some hx
    have hok := hS.rule i x hx
    have hzero : x.depsLeft = 0 := by simpa [depsLeft, hx] using hdeps
    -- All prerequisites are done, and the rule has told so.
    have hclosed : σ i = .closed := by
      cases hσ : σ i with
      | closed => rfl
      | fresh =>
        rw [hσ] at hok
        simp [hok.2.2 hs] at hzero
      | gather owed =>
        rw [hσ] at hok
        obtain ⟨_, _, hne, _, _, hleft⟩ := hok
        exact absurd (length_eq_zero_iff.1 ((hleft hs).symm.trans hzero)) hne
      | ready e =>
        refine absurd (mem_purseOf.2 ⟨i, hi.le, ?_⟩) (hprompt ⟨b, t, i⟩ e)
        rw [hσ]
        exact Multiset.mem_singleton_self _
      | _ => rw [hσ] at hb; cases hb
    have hmove := hleft.move_recipe hs hbusy rfl hx hclosed hxe
    have hthreads : (σ i).threads w.serial ⟨b, t, i⟩ = 0 := by
      rw [hclosed]
      rfl
    have hpurse := purseOf_give (a := .recipe) hi.le hthreads
    refine .inl ⟨hw, ?_, _, hmove, hpurse.symm⟩
    exact (Multiset.singleton_add _ _).trans_ne Multiset.cons_ne_zero

/-- A rule goes on with its prerequisites. -/
theorem Stages.staged_open (hS : Stages h v b t w σ) (hw : w.progress = .working)
    (hx : w.rules[j]? = some x) (hP : w.purse b t σ = τ ::ₘ P)
    (hσ : (σ j).threads w.serial ⟨b, t, j⟩ = τ ::ₘ R) (hopen : (σ j).isOpen = true)
    (hf : KeepsError f) (ha : a.isOpen = true)
    (hc : a.isCurrent = true) (hok : a.Ok h v ⟨b, t, j⟩ (f x) w.serial w.error)
    (hN : a.threads w.serial ⟨b, t, j⟩ = N + R) : Staged h v b t (w.onRule j f) (N + P) := by
  have hj : j ≤ w.rules.length := (of_getElem?_eq_some hx).le
  have hbefore : a.isBefore = (σ j).isBefore :=
    (isBefore_of_isOpen ha).trans (isBefore_of_isOpen hopen).symm
  have hmove : Stages h v b t (w.onRule j f) (update σ j a) := by
    refine hS.move_alike (.refl b h v) hx hbefore (ha.trans hopen.symm)
      ((isActive_of_isOpen ha).trans (isActive_of_isOpen hopen).symm) ?_ ?_ hf
      (fun _ _ => ⟨rfl, rfl⟩) hok
    · rintro rfl
      cases ha
    · intro hs
      have honly := hS.only hj (by rw [hσ]; exact Multiset.mem_cons_self _ _) hs
      exact ⟨honly.1, fun hb => honly.2 (hbefore ▸ hb)⟩
  exact hmove.staged hw (length_modify ..) rfl hj hP hσ hN (threads_ne_zero hok hc)

/-- A rule goes on with its recipe. -/
theorem Stages.staged_active (hS : Stages h v b t w σ) (hA : Ahead b h v h' v')
    (hw : w.progress = .working) (hx : w.rules[j]? = some x)
    (hP : w.purse b t σ = τ ::ₘ P)
    (hσ : (σ j).threads w.serial ⟨b, t, j⟩ = {τ}) (hactive : (σ j).isActive = true)
    (hf : KeepsError f) (ha : a.isActive = true)
    (hq : ∀ i ≠ j, Untold h h' ⟨b, t, i⟩)
    (hok : a.Ok h' v' ⟨b, t, j⟩ (f x) w.serial w.error) (hN : a.threads w.serial ⟨b, t, j⟩ = {τ'}) :
    Staged h' v' b t { w.onRule j f with didAnything := y } ({τ'} + P) := by
  have hj : j ≤ w.rules.length := (of_getElem?_eq_some hx).le
  have hbefore : a.isBefore = (σ j).isBefore :=
    (isBefore_of_isActive ha).trans (isBefore_of_isActive hactive).symm
  have hmove := hS.move_alike (y := y) hA hx hbefore
    ((isOpen_of_isActive ha).trans (isOpen_of_isActive hactive).symm)
    (ha.trans hactive.symm) (by rintro rfl; cases ha) ?_ hf hq hok
  · exact hmove.staged hw (length_modify ..) rfl hj hP hσ hN
      (by rw [hN]; exact Multiset.singleton_ne_zero _)
  · intro hs
    have honly := hS.only hj (by rw [hσ]; exact Multiset.mem_singleton_self _) hs
    exact ⟨honly.1, fun hb => honly.2 (hbefore ▸ hb)⟩

theorem Stage.threads_serial (hτ : τ ∈ a.threads true r) : a.threads true r = {τ} := by
  cases a with
  | gather owed =>
    cases owed with
    | nil => cases hτ
    | cons p rest =>
      rw [Multiset.mem_singleton.1 hτ]
      rfl
  | fresh => cases hτ
  | closed => cases hτ
  | out => cases hτ
  | _ => rw [Multiset.mem_singleton.1 hτ]; rfl

/-- Where rules follow each other, the thread of the rule under way is the only one. -/
theorem Stages.alone (hS : Stages h v b t w σ) (hs : w.serial = true)
    (hP : w.purse b t σ = τ ::ₘ P) : P = 0 := by
  obtain ⟨j, hj, hτ⟩ := mem_purseOf.1 (hP ▸ Multiset.mem_cons_self τ P)
  rw [purse, hs] at hP
  rw [hs] at hτ
  have hpurse := purseOf_drop (a := .out) hj hP (threads_serial hτ) rfl
  rw [← hpurse, purseOf_eq_zero]
  intro i hi
  by_cases hij : i = j
  · rw [hij, update_self]
    rfl
  · rw [update_of_ne hij, Multiset.eq_zero_iff_forall_notMem]
    intro τ' hτ'
    exact hij ((hS.only hj (by rw [hs]; exact hτ) hs).1 i hi (isCurrent_of_mem hτ'))

/-! ## The cases of a turn -/

section Cases

variable (hS : Stages h v b t w σ) (hw : w.progress = .working)
include hS hw

/-- The prerequisites of a rule are seen to. -/
theorem Stages.staged_sees (hs : Sees b t j w u now late)
    (hP : w.purse b t σ = .resolve ⟨b, t, j⟩ ::ₘ P) :
    Staged h v b t u
      (((now.map Action.post ++ late.map Duty.post).map v.thread : List Thread) + P) := by
  obtain ⟨i, x, hx, hok, ⟨⟩, hσ, hserial⟩ := hS.of_purse hP nofun
  rw [hσ] at hok
  obtain ⟨f, a, rfl, hf, hopen, hc, hok', hN⟩ := hs.stage hx hok
  refine hS.staged_open hw hx hP ?_ (by rw [hσ]; rfl) hf hopen hc hok' (by rw [hN, add_zero])
  rw [hσ, hserial]
  rfl

/-- A rule is not begun, since a recipe has failed. -/
theorem Stages.staged_refuse (hfailed : v.failed b = true) (hkeep : v.keep b = false)
    (hP : w.purse b t σ = .resolve ⟨b, t, j⟩ ::ₘ P) :
    Staged h v b t (w.onRule j fun x => { x with error := true })
      ({.resolved ⟨b, t, j⟩ true} + P) := by
  obtain ⟨i, x, hx, hok, ⟨⟩, hσ, hserial⟩ := hS.of_purse hP nofun
  rw [hσ] at hok
  refine hS.staged_open (R := 0) (a := .ready true) hw hx hP ?_ (by rw [hσ]; rfl)
    (fun _ _ => rfl) rfl
    rfl ⟨hok.1, fun _ => .inr ⟨hfailed, hkeep⟩, rfl, ?_, ?_⟩ rfl
  · rw [hσ, hserial]
    rfl
  · rintro (h | h)
    · cases h
    · simp [show v.keep b = true from h] at hkeep
  · intro h
    cases h

/-- A rule is told about a prerequisite. -/
theorem Stages.staged_hears {name : Text} (hh : Hears (v.keep b) b t j weak error did w u now late)
    (htold : (∃ wd, v.work b name = some wd ∧ wd.progress = .finished ∧ wd.error = error) ∨
      Refused h ⟨b, t, j⟩ name ∧ error = true)
    (hP : w.purse b t σ = .dep ⟨b, t, j⟩ name weak ::ₘ P) :
    Staged h v b t u
      (((now.map Action.post ++ late.map Duty.post).map v.thread : List Thread) + P) := by
  obtain ⟨i, x, hx, hok, ⟨⟩, owed, hσ, howed⟩ := hS.of_purse hP nofun
  rw [hσ] at hok
  obtain ⟨f, a, R, rfl, hf, hopen, hc, hok', hR, hN⟩ := hh.stage hx hok howed htold
  exact hS.staged_open hw hx hP (hσ ▸ hR) (by rw [hσ]; rfl) hf hopen hc hok' hN

/-- The prerequisites of the only rule under way are done, and its recipe is to be run. -/
theorem Stages.staged_run (hs : w.serial = true)
    (hP : w.purse b t σ = .resolved ⟨b, t, j⟩ false ::ₘ P) :
    Staged h v b t { w with didAnything := y, order := w.order.drop 1 }
      ({.recipe ⟨b, t, j⟩} + P) := by
  obtain ⟨_, x, hx, hok, ⟨⟩, hσ⟩ := hS.of_purse hP nofun
  have hj : j ≤ w.rules.length := (of_getElem?_eq_some hx).le
  rw [hσ] at hok
  obtain ⟨hu, _, hxe, hc, _⟩ := hok
  have hmove := hS.move_taken (a := .recipe) (y := y) hx hσ hs rfl (Bool.or_false _).symm
    ⟨hu, hxe.symm, hc (.inl hxe.symm)⟩
  exact hmove.staged hw rfl rfl hj hP (R := 0) (by rw [hσ]; rfl) rfl (Multiset.singleton_ne_zero _)

omit hw in
/-- The prerequisites of the only rule under way are not to be had, and its recipe is left out. -/
theorem Stages.move_skip (hs : w.serial = true)
    (hP : w.purse b t σ = .resolved ⟨b, t, j⟩ true ::ₘ P) :
    Stages h v b t { w with didAnything := y, error := true, order := w.order.drop 1 }
      (update σ j (.done false)) := by
  obtain ⟨_, x, hx, hok, ⟨⟩, hσ⟩ := hS.of_purse hP nofun
  rw [hσ] at hok
  obtain ⟨hu, hb, hxe, hc, _⟩ := hok
  exact hS.move_taken hx hσ hs rfl (Bool.or_true _).symm
    (.inr ⟨hu, hb, rfl, hxe.symm, rfl, fun hk => hc (.inr hk)⟩)

theorem Stages.staged_skip (hs : w.serial = true)
    (hP : w.purse b t σ = .resolved ⟨b, t, j⟩ true ::ₘ P) :
    Staged h v b t { w with didAnything := y, error := true, order := w.order.drop 1 }
      ({.done b t false} + P) := by
  obtain ⟨_, x, hx, -, ⟨⟩, hσ⟩ := hS.of_purse hP nofun
  exact (hS.move_skip hs hP).staged hw rfl rfl (of_getElem?_eq_some hx).le hP (R := 0)
    (by rw [hσ]; rfl) rfl (Multiset.singleton_ne_zero _)

omit hw in
/-- The prerequisites of the only rule under way are not to be had, which is not survived. -/
theorem Stages.staged_halt (hs : w.serial = true) (hkeep : v.keep b = false)
    (hP : w.purse b t σ = .resolved ⟨b, t, j⟩ true ::ₘ P) :
    Staged h v b t { w with didAnything := y, error := true }.finish P := by
  have hE := (hS.move_skip (y := y) hs hP).ended (.inl ⟨rfl, hkeep⟩)
  refine .inr ⟨rfl, hS.alone hs hP, hE.runs, hE.blamed, hE.error, hE.complete,
    hE.concluded, hE.blame⟩

/-- The prerequisites of one of several rules are done, and it waits for its turn. -/
theorem Stages.staged_queue (hs : w.serial = false) (hbusy : w.busy = true)
    (hP : w.purse b t σ = .resolved ⟨b, t, j⟩ e ::ₘ P) :
    Staged h v b t
      { w with didAnything := y, error := w.error || e, remaining := w.remaining - 1 } P := by
  obtain ⟨_, x, hx, -, ⟨⟩, hσ⟩ := hS.of_purse hP nofun
  have hj := of_getElem?_eq_some hx
  have hmove := hS.move_closed (y := y) hj hσ hs
  have hpurse := purseOf_drop (a := .closed) hj.le hP (by rw [hσ]; rfl) rfl
  refine .inl ⟨hw, ?_, _, hmove, hpurse.symm⟩
  obtain ⟨i, hi, hactive⟩ := (hmove.several hs).active hbusy
  rw [← hpurse, Ne, purseOf_eq_zero]
  intro hzero
  exact threads_ne_zero (hmove.rule i _ (getElem?_eq_getElem hi))
    (isCurrent_of_isActive hactive) (hzero i hi.le)

/-- The prerequisites of one of several rules are done, and the target goes on to its next
recipe. -/
theorem Stages.staged_turn (hs : w.serial = false) (hbusy : w.busy = false) (hn : Next stop b t
      { w with didAnything := y, error := w.error || e, remaining := w.remaining - 1 } u late ends)
    (hstop : stop = true → v.failed b = true ∧ v.keep b = false)
    (hP : w.purse b t σ = .resolved ⟨b, t, j⟩ e ::ₘ P)
    (hprompt : ∀ r e, Thread.resolved r e ∉ P) :
    Staged h v b t u (((late.map Duty.post).map v.thread : List Thread) + P) := by
  obtain ⟨_, x, hx, -, ⟨⟩, hσ⟩ := hS.of_purse hP nofun
  have hj := of_getElem?_eq_some hx
  have hmove := hS.move_closed (y := y) hj hσ hs
  have hpurse := purseOf_drop (a := .closed) hj.le hP (by rw [hσ]; rfl) rfl
  exact hn.staged hmove hw hs hbusy hstop hpurse hprompt

omit hS hw in
theorem done_of (hP : w.purse b t σ = .done b t e ::ₘ P) : ∃ j ≤ w.rules.length, σ j = .done e := by
  obtain ⟨j, hj, hτ⟩ := mem_purseOf.1 (hP ▸ Multiset.mem_cons_self (Thread.done b t e) P)
  exact ⟨j, hj, of_mem hτ⟩

omit hw in
/-- The recipe of the only rule under way is done: no rule is under way now. -/
theorem Stages.idle_of_out (hs : w.serial = true) (hj : j ≤ w.rules.length) (hσ : σ j = .done e)
    {i : Nat} (hi : i ≤ w.rules.length) : (update σ j .out i).isCurrent = false := by
  by_cases hij : i = j
  · rw [hij, update_self]
    rfl
  · rw [update_of_ne hij]
    by_contra hc
    exact hij ((hS.single hs).one i j hi hj (by simpa using hc) (by rw [hσ]; rfl))

omit hw in
/-- The last recipe of a target is done, or one has failed and that is not survived. -/
theorem Stages.staged_last (hs : w.serial = true)
    (hover : (w.error || e) = true ∧ v.keep b = false ∨ w.order = [])
    (hfailed : e = true → Failed h b t)
    (hP : w.purse b t σ = .done b t e ::ₘ P) :
    Staged h v b t { w with error := w.error || e }.finish P := by
  obtain ⟨j, hj, hσ⟩ := done_of hP
  have hmove :=
    hS.move_out (y := w.busy) hj hσ (fun h => absurd (h.symm.trans hs) Bool.false_ne_true) hfailed
  have hE := hmove.ended <| by
    refine hover.imp id fun horder i hi => .inl ?_
    have hidle := hS.idle_of_out hs hj hσ (show i ≤ w.rules.length from hi.le)
    have hnever := (hmove.single hs).never i hi.le
    cases hi' : update σ j out i with
    | out => rfl
    | closed => exact absurd hi' hnever
    | fresh =>
      have hx := getElem?_eq_getElem (show i < w.rules.length from hi)
      rcases hmove.order i _ hx (by rw [hi']; rfl) with ho | ⟨hs', _⟩
      · simp [horder] at ho
      · cases hs'.symm.trans hs
    | _ => rw [hi'] at hidle; cases hidle
  exact .inr ⟨rfl, hS.alone hs hP, hE.runs, hE.blamed, hE.error, hE.complete,
    hE.concluded, hE.blame⟩

/-- The recipe of a rule is done, and the next rule is begun. -/
theorem Stages.staged_go {rest : List Nat} (hs : w.serial = true) (horder : w.order = j :: rest)
    (hsees : Sees b t j { w with error := w.error || e } u now late)
    (hfailed : e = true → Failed h b t)
    (hP : w.purse b t σ = .done b t e ::ₘ P) :
    Staged h v b t u
      (((now.map Action.post ++ late.map Duty.post).map v.thread : List Thread) + P) := by
  obtain ⟨k, hk, hσ⟩ := done_of hP
  have hmove :=
    hS.move_out (y := w.busy) hk hσ (fun h => absurd (h.symm.trans hs) Bool.false_ne_true) hfailed
  have hpurse := purseOf_drop (a := .out) hk hP (by rw [hσ]; rfl) rfl
  obtain ⟨hj, hbefore⟩ := hmove.listed j (by rw [horder]; exact mem_cons_self)
  have hidle := fun i hi => hS.idle_of_out hs hk hσ (i := i) hi
  have hfresh : update σ k out j = .fresh := by
    have hc := hidle j (le_of_lt hj)
    have hnever := (hmove.single hs).never j (le_of_lt hj)
    cases hj' : update σ k out j with
    | fresh => rfl
    | closed => exact absurd hj' hnever
    | out => rw [hj'] at hbefore; cases hbefore
    | _ => rw [hj'] at hc; cases hc
  have hx := getElem?_eq_getElem (show j < w.rules.length from hj)
  have hok := hmove.rule j _ hx
  rw [hfresh] at hok
  obtain ⟨f, a, rfl, hf, hopen, hc, hok', hN⟩ := hsees.stage hx hok
  have hstages := hmove.move_alike (y := w.didAnything) (.refl b h v) hx
    (by rw [hfresh, isBefore_of_isOpen hopen]; rfl) (by rw [hfresh, hopen]; rfl)
    (by rw [hfresh, isActive_of_isOpen hopen]; rfl) (by rintro rfl; cases hopen)
    (fun _ => ⟨fun i hi hci => ?_, fun _ => by rw [horder]; rfl⟩) hf (fun _ _ => ⟨rfl, rfl⟩)
    hok'
  · have hnone : (update σ k out j).threads w.serial ⟨b, t, j⟩ = 0 := by
      rw [hfresh, hs]
      rfl
    have hgive := purseOf_give (a := a) (show j ≤ w.rules.length from le_of_lt hj) hnone
    rw [hpurse, show a.threads w.serial ⟨b, t, j⟩ = _ from hN] at hgive
    refine .inl ⟨hw, ?_, _, hstages, ?_⟩
    · rw [← show a.threads w.serial ⟨b, t, j⟩ = _ from hN]
      exact fun hzero => threads_ne_zero hok' hc
        (Multiset.le_zero.1 (hzero ▸ Multiset.le_add_right _ _))
    · rw [← hgive]
      change _ = purseOf b t w.serial (w.rules.modify j f).length _
      rw [length_modify]
  · simp [hidle i hi] at hci

/-- The recipe of one of several rules is done, and the target goes on to its next recipe. -/
theorem Stages.staged_free (hs : w.serial = false)
    (hn : Next stop b t { w with error := w.error || e, busy := false } u late ends)
    (hstop : stop = true → v.failed b = true ∧ v.keep b = false) (hfailed : e = true → Failed h b t)
    (hP : w.purse b t σ = .done b t e ::ₘ P)
    (hprompt : ∀ r e, Thread.resolved r e ∉ P) :
    Staged h v b t u (((late.map Duty.post).map v.thread : List Thread) + P) := by
  obtain ⟨j, hj, hσ⟩ := done_of hP
  have hmove := hS.move_out hj hσ (fun _ => rfl) hfailed
  have hpurse := purseOf_drop (a := .out) hj hP (by rw [hσ]; rfl) rfl
  exact hn.staged hmove hw hs rfl hstop hpurse hprompt

/-- The recipe of a rule was not needed, could not be read, or goes on to its first line. -/
theorem Stages.staged_recipe (hx : w.rules[j]? = some x) (hA : Ahead b h v (d :: h) v')
    (hd : d.action = .recipe ⟨b, t, j⟩)
    (hf : ∀ x : RuleWork, (f x).error = x.error ∧ (f x).running = true ∧ (f x).deps = x.deps ∧
      (f x).remake = x.remake) (ha : a.isActive = true)
    (hok : TakenUp (d :: h) ⟨b, t, j⟩ (f x) → (f x).error = false →
      Complete (d :: h) v' ⟨b, t, j⟩ (f x) →
      exits (d :: h) ⟨b, t, j⟩ = [] → a.Ok (d :: h) v' ⟨b, t, j⟩ (f x) w.serial w.error)
    (hN : a.threads w.serial ⟨b, t, j⟩ = {τ})
    (hP : w.purse b t σ = .recipe ⟨b, t, j⟩ ::ₘ P) :
    Staged (d :: h) v' b t { w.onRule j f with didAnything := y } ({τ} + P) := by
  obtain ⟨_, _, -, -, ⟨⟩, hσ⟩ := hS.of_purse hP nofun
  have hold := hS.rule j x hx
  rw [hσ] at hold
  obtain ⟨⟨_, hexits, hruns⟩, hxe, hc⟩ := hold
  have hother : ∀ i ≠ j, d.action.Silent ⟨b, t, i⟩ := by
    intro i hij
    rw [hd]
    exact ⟨rfl, by simpa [Action.isRecipe] using Ne.symm hij⟩
  refine hS.staged_active hA hw hx hP (by rw [hσ]; rfl) (by rw [hσ]; rfl)
    (fun x hx => (hf x).1.trans hx) ha (fun i hij => (hother i hij).untold)
      (hok ⟨(hf x).2.1, ?_⟩ ((hf x).1.trans hxe) ?_ ?_) hN
  · rw [recipeRuns_cons, hruns, hd]
    simp [Action.isRecipe]
  · intro p hp
    rw [(hf x).2.2.1] at hp
    refine Ahead.accounted hA (fun weak hm => ?_) (hc p hp)
    rwa [RuleWork.minds, (hf x).1, (hf x).2.2.2]
  · rw [exits_cons, hexits, hd]
    rfl

/-- A line of the recipe of a rule is started or has ended, or no line is left. -/
theorem Stages.staged_line {a' : Stage} (hA : Ahead b h v (d :: h) v') (hx : w.rules[j]? = some x)
    (hσ : σ j = a') (hP : w.purse b t σ = τ ::ₘ P)
    (ha' : a'.isActive = true) (hN' : a'.threads w.serial ⟨b, t, j⟩ = {τ})
    (hf : KeepsError f) (ha : a.isActive = true)
    (hd : ∀ i ≠ j, d.action.Silent ⟨b, t, i⟩) (hok : a'.Ok h v ⟨b, t, j⟩ x w.serial w.error →
      a.Ok (d :: h) v' ⟨b, t, j⟩ (f x) w.serial w.error)
        (hN : a.threads w.serial ⟨b, t, j⟩ = {τ'}) :
    Staged (d :: h) v' b t (w.onRule j f) ({τ'} + P) := by
  have hold := hS.rule j x hx
  rw [hσ] at hold
  exact hS.staged_active hA hw hx hP (by rw [hσ, hN']) (by rw [hσ, ha']) hf ha
    (fun i hij => (hd i hij).untold) (hok hold) hN

end Cases

/-! ## Turns -/

/-- **A turn keeps the stages of its target.** The thread it takes up is replaced by those of what
it has left to do. -/
theorem Turn.staged
    (ht : Turn v b t w act u now late fails ends) (hS : Stages h v b t w σ)
    (hw : w.progress = .working) (hd : d.action = act) (hbefore : d.before.view = v)
    (hafter : d.after.work b t = some u)
    (hstack : ∃ rest, d.after.stack = now.map Frame.action ++ rest) (hA : Ahead b h v (d :: h) v')
    (hfailed : v'.failed b = (v.failed b || fails))
    (hP : w.purse b t σ = v.thread act.post ::ₘ P)
    (hprompt : ∀ r e, Thread.resolved r e ∉ P) :
    Staged (d :: h) v' b t u
      (((now.map Action.post ++ late.map Duty.post).map v'.thread : List Thread) + P) := by
  have hsilent : (∀ i, act.Silent ⟨b, t, i⟩) → Stages (d :: h) v' b t w σ := fun hs =>
    hS.ahead hA fun i => Action.Silent.untold (hd ▸ hs i)
  have hstop : ∀ {e : Bool}, ((v.failed b || e) && !v.keep b) = true → (e = true → fails = true) →
      v'.failed b = true ∧ v'.keep b = false := by
    intro e he hf
    rw [hfailed, hA.keep]
    simp only [Bool.and_eq_true, Bool.or_eq_true, Bool.not_eq_true'] at he ⊢
    exact ⟨he.1.imp_right hf, he.2⟩
  have hover : ∀ {r : RuleAt} {e : Bool}, (d.action = .recipe r ∨ ∃ e, d.action = .nextLine r e) →
      d.after.stack.head? = some (.action (.recipeDone r.build r.target e)) → Over (d :: h) r :=
    fun hact hhead => ⟨d, mem_cons_self, hact, _, hhead⟩
  cases ht with
  | refuse failed halt =>
    exact (hsilent fun _ => ⟨rfl, rfl⟩).staged_refuse hw (hA.failed failed) (hA.keep.trans halt) hP
  | see sees => exact (hsilent fun _ => ⟨rfl, rfl⟩).staged_sees hw sees hP
  | hear known ended told hears =>
    obtain ⟨wd, hwd, hf, he⟩ := hA.ended _ _ known ended
    exact (hsilent fun _ => ⟨rfl, rfl⟩).staged_hears hw (hA.keep ▸ hears)
      (.inl ⟨wd, hwd, hf, he.trans told⟩) hP
  | shun failed hears =>
    have hrefused : Refused (d :: h) ⟨b, t, _⟩ _ :=
      ⟨d, mem_cons_self, _, hd, by rw [hbefore]; exact failed⟩
    exact (hsilent fun _ => ⟨rfl, rfl⟩).staged_hears hw (hA.keep ▸ hears) (.inr ⟨hrefused, rfl⟩) hP
  | halt serial halt working =>
    exact (zero_add P).symm ▸ (hsilent fun _ => ⟨rfl, rfl⟩).staged_halt serial
      (hA.keep.trans halt) hP
  | skip serial keep => exact (hsilent fun _ => ⟨rfl, rfl⟩).staged_skip hw serial hP
  | run serial => exact (hsilent fun _ => ⟨rfl, rfl⟩).staged_run hw serial hP
  | queue parallel busy =>
    exact (zero_add P).symm ▸ (hsilent fun _ => ⟨rfl, rfl⟩).staged_queue hw parallel busy hP
  | turn parallel busy next =>
    exact (hsilent fun _ => ⟨rfl, rfl⟩).staged_turn hw parallel busy next
      (fun h => hstop (e := false) (by simpa using h) nofun) hP hprompt
  | needless rule fresh =>
    obtain ⟨rest, hstack⟩ := hstack
    have hhead : d.after.stack.head? = some (.action (.recipeDone b t false)) := by
      rw [hstack]
      rfl
    exact hS.staged_recipe (a := .done false) hw rule hA hd
      (fun _ => ⟨rfl, rfl, rfl, rfl⟩) rfl
        (fun htaken hxe hc _ => .inl ⟨⟨htaken, hover (.inl hd) hhead⟩, hxe, hc,
        fun _ => .inl ⟨d, mem_cons_self, hd, hhead⟩⟩) rfl hP
  | unreadable rule fresh =>
    obtain ⟨rest, hstack⟩ := hstack
    exact hS.staged_recipe (a := .done true) hw rule hA hd (fun _ => ⟨rfl, rfl, rfl, rfl⟩) rfl
      (fun htaken hxe hc _ =>
        .inl ⟨⟨htaken, hover (.inl hd) (by rw [hstack]; rfl)⟩, hxe, hc, nofun⟩) rfl hP
  | begin lines rule fresh =>
    obtain ⟨rest, hstack⟩ := hstack
    refine hS.staged_recipe (a := .next false) hw rule hA hd (fun _ => ⟨rfl, rfl, rfl, rfl⟩) rfl
      (fun htaken hxe hc hexits => ⟨htaken, hxe, hc, lines, ?_, by rw [hexits]; rfl, fun _ => ?_⟩)
      rfl hP
    · exact ⟨d, mem_cons_self, hd, by rw [hstack]; rfl, _, _, hafter,
        (onRule_rule ..).trans (by rw [rule]; rfl), rfl⟩
    · unfold Fine
      rw [hexits]
      exact fun p hp => absurd hp not_mem_nil
  | @fault i =>
    obtain ⟨rest, hstack⟩ := hstack
    obtain ⟨_, x, hx, -, ⟨⟩, hσ⟩ := hS.of_purse hP nofun
    have hok := (hsilent fun _ => ⟨rfl, rfl⟩).rule i x hx
    rw [hσ] at hok
    obtain ⟨htaken, hxe, hc, _⟩ := hok
    have := hS.staged_line (a := .done true) (f := id) hw hA hx hσ hP rfl rfl (fun _ => id) rfl
      (fun _ _ => hd ▸ ⟨rfl, rfl⟩)
        (fun _ => .inl ⟨⟨htaken, hover (.inr ⟨_, hd⟩) (by rw [hstack]; rfl)⟩, hxe, hc, nofun⟩) rfl
    rwa [onRule_id] at this
  | @complete i x hx hlines =>
    obtain ⟨rest, hstack⟩ := hstack
    obtain ⟨_, _, -, -, ⟨⟩, hσ⟩ := hS.of_purse hP nofun
    have hok := (hsilent fun _ => ⟨rfl, rfl⟩).rule i x hx
    rw [hσ] at hok
    obtain ⟨htaken, hxe, hc, lines, hg, hl, hfine⟩ := hok
    rw [hlines, append_nil] at hl
    have := hS.staged_line (a := .done false) (f := id) hw hA hx hσ hP rfl rfl (fun _ => id) rfl
      (fun _ _ => hd ▸ ⟨rfl, rfl⟩)
        (fun _ => .inl ⟨⟨htaken, hover (.inr ⟨_, hd⟩) (by rw [hstack]; rfl)⟩, hxe, hc,
        fun _ => .inr ⟨lines, hg, hl.symm, hfine rfl⟩⟩) rfl
    rwa [onRule_id] at this
  | @line i x l rest _ _ hx hlines starts =>
    obtain ⟨_, _, -, -, ⟨⟩, hσ⟩ := hS.of_purse hP nofun
    have hok := (hsilent fun _ => ⟨rfl, rfl⟩).rule i x hx
    rw [hσ] at hok
    obtain ⟨htaken, hxe, hc, lines, hg, hl, hfine⟩ := hok
    rw [hlines] at hl
    rw [starts]
    exact hS.staged_line (a := .command l) hw hA hx hσ hP rfl rfl (fun _ => id) rfl
      (fun _ _ => hd ▸ ⟨rfl, rfl⟩) (fun _ => ⟨htaken, hxe, hc, lines, hg, hl, hfine rfl⟩) rfl
  | @exit i l code =>
    obtain ⟨_, x, hx, -, ⟨⟩, hσ⟩ := hS.of_purse hP nofun
    have hother : ∀ k ≠ i, d.action.Silent ⟨b, t, k⟩ := by
      intro k hk
      rw [hd]
      exact ⟨by simpa [Action.exitOf] using Ne.symm hk, rfl⟩
    have hexits : exits (d :: h) ⟨b, t, i⟩ = exits h ⟨b, t, i⟩ ++ [(l, code)] := by
      rw [exits_cons, hd]
      simp [Action.exitOf]
    have hruns : recipeRuns (d :: h) ⟨b, t, i⟩ = recipeRuns h ⟨b, t, i⟩ := by
      rw [recipeRuns_cons, hd]
      rfl
    have := hS.staged_line (a := .next (code != 0 && !l.ignore)) (f := id) hw hA hx hσ hP rfl rfl
      (fun _ => id) rfl hother ?_ rfl
    · rwa [onRule_id] at this
    rintro ⟨htaken, hxe, hc, lines, hg, hl, hfine⟩
    refine ⟨⟨htaken.1, hruns.trans htaken.2⟩, hxe, Ahead.complete hA hc, lines,
      Ahead.given hA hg, ?_, fun he => ?_⟩
    · rw [hexits, hl]
      simp
    · unfold Fine at hfine ⊢
      rw [hexits]
      intro p hp
      rcases mem_append.1 hp with hp | hp
      · exact hfine p hp
      · rw [mem_singleton.1 hp]
        simpa [Classical.or_iff_not_imp_left] using he
  | last serial ending working =>
    exact (zero_add P).symm ▸ (hsilent fun _ => ⟨rfl, rfl⟩).staged_last serial (hA.keep ▸ ending)
      (fun he => ⟨d, mem_cons_self, he ▸ hd⟩) hP
  | go serial order goes sees =>
    exact (hsilent fun _ => ⟨rfl, rfl⟩).staged_go hw serial order sees
      (fun he => ⟨d, mem_cons_self, he ▸ hd⟩) hP
  | free parallel busy next =>
    exact (hsilent fun _ => ⟨rfl, rfl⟩).staged_free hw parallel next (fun h => hstop h id)
      (fun he => ⟨d, mem_cons_self, he ▸ hd⟩) hP hprompt

/-! ## The beginning -/

/-- The stages of a target that is begun. -/
def Stage.start (serial : Bool) (n i : Nat) : Stage :=
  if i < n then .fresh else if serial then .done false else .out

/-- The threads of a target that is begun are those of what is put into the queue. -/
theorem purseOf_start (v : View) (b : Nat) (t : Text) (serial : Bool) (n : Nat) :
    purseOf b t serial n (start serial n) =
      ((((if serial then [.recipeDone b t false] else []).map Action.post ++
        (firstDuties b t serial n).map Duty.post).map v.thread : List Thread) :
        Multiset Thread) := by
  have hsum : ∑ i ∈ Finset.range n, (start serial n i).threads serial ⟨b, t, i⟩ =
      ∑ i ∈ Finset.range n, fresh.threads serial ⟨b, t, i⟩ :=
    Finset.sum_congr rfl fun i hi => by rw [start, if_pos (Finset.mem_range.1 hi)]
  have hlead : start serial n n = if serial then .done false else .out :=
    if_neg (Nat.lt_irrefl _)
  unfold purseOf firstDuties
  rw [Finset.sum_range_succ, hsum, hlead]
  cases serial with
  | true =>
    have hnone : ∑ i ∈ Finset.range n, fresh.threads true ⟨b, t, i⟩ = 0 :=
      Finset.sum_eq_zero fun _ _ => rfl
    rw [hnone, zero_add]
    rfl
  | false =>
    have hall : ∀ k, ∑ i ∈ Finset.range k, fresh.threads false ⟨b, t, i⟩ =
        ((List.range k).map fun i => Thread.resolve ⟨b, t, i⟩ : List Thread) := by
      intro k
      induction k with
      | zero => rfl
      | succ k ih =>
        rw [Finset.sum_range_succ, ih, range_succ, map_append]
        rfl
    rw [hall]
    simp only [Bool.false_eq_true, if_false, map_nil, nil_append, map_map]
    exact add_zero _

/-- A target is begun with all of its rules still to be seen to. -/
theorem staged_begun {ρ : Reply} (serial : Bool) (indent : Text) {rules : List RuleWork}
    (hne : rules ≠ [])
    (hfresh : ∀ x ∈ rules, x.running = false ∧ x.error = false ∧ x.depsLeft = x.deps.length + 1)
    (hquiet : ∀ i, exits h ⟨b, t, i⟩ = [] ∧ recipeRuns h ⟨b, t, i⟩ = 0) :
    Staged h v b t (.begun ρ serial indent rules)
      ((((if serial then [.recipeDone b t false] else []).map Action.post ++
        (firstDuties b t serial rules.length).map Duty.post).map v.thread : List Thread) :
        Multiset Thread) := by
  have hstart : ∀ {i}, i < rules.length → start serial rules.length i = .fresh :=
    fun hi => if_pos hi
  have hlead : start serial rules.length rules.length =
      if serial then .done false else .out := if_neg (Nat.lt_irrefl _)
  have hclean : (begun ρ serial indent rules).error ≠ true := Bool.false_ne_true
  refine .inl ⟨rfl, ?_, start serial rules.length,
    ⟨?_, ?_, ?_, ?_, ?_, ?_, ?_, ?_, fun he => absurd he hclean⟩, ?_⟩
  · cases serial with
    | true => exact Multiset.singleton_ne_zero _
    | false =>
      refine fun hzero => hne (length_eq_zero_iff.1 ?_)
      simpa [firstDuties] using hzero
  · intro i x hx
    obtain ⟨hi, rfl⟩ := List.getElem?_eq_some_iff.1 hx
    obtain ⟨hr, he, hl⟩ := hfresh _ (getElem_mem hi)
    rw [hstart hi]
    exact ⟨⟨hr, (hquiet i).1, (hquiet i).2⟩, he, fun _ => hl⟩
  · change start serial rules.length rules.length = _ ∨
      serial = true ∧ start serial rules.length rules.length = _
    rw [hlead]
    cases serial
    · exact .inl rfl
    · exact .inr ⟨rfl, rfl⟩
  · intro i x hx _
    exact .inl (mem_range.2 (List.getElem?_eq_some_iff.1 hx).1)
  · intro i hi
    have hi : i < rules.length := mem_range.1 hi
    exact ⟨hi, by rw [show start _ _ i = _ from hstart hi]; rfl⟩
  · exact pairwise_lt_range
  · intro i hi hb
    rw [hstart hi] at hb
    cases hb
  · intro hs
    obtain rfl : serial = true := hs
    have hcurrent : ∀ i ≤ rules.length, (start true rules.length i).isCurrent = true →
        i = rules.length := by
      intro i hi hc
      rcases hi.lt_or_eq with hi | hi
      · rw [hstart hi] at hc
        cases hc
      · exact hi
    refine ⟨fun i hi => ?_, fun i j hi hj hci hcj => ?_, fun i hi hc hb => ?_⟩
    · rcases Nat.lt_or_eq_of_le (show i ≤ rules.length from hi) with hi | rfl
      · rw [hstart hi]
        exact Stage.noConfusion
      · rw [hlead]
        exact Stage.noConfusion
    · rw [hcurrent i hi hci, hcurrent j hj hcj]
    · rw [hcurrent i hi hc, hlead] at hb
      cases hb
  · intro hs
    obtain rfl : serial = false := hs
    refine ⟨hlead, fun i hi hc => ?_, fun hb => absurd hb Bool.false_ne_true,
      fun i j hi _ hci _ => ?_, ?_⟩
    · rw [hstart hi] at hc
      cases hc
    · rw [hstart hi] at hci
      cases hci
    · change rules.length = ((Finset.range rules.length).filter _).card
      rw [Finset.filter_true_of_mem, Finset.card_range]
      intro i hi
      rw [hstart (Finset.mem_range.1 hi)]
      rfl
  · exact (purseOf_start v b t serial rules.length).symm

/-- A target without rules is over at once. -/
theorem staged_barren (error serial : Bool) (indent : Text) :
    Staged h v b t (.barren error serial indent) 0 :=
  .inr ⟨rfl, rfl, nofun, nofun, nofun, fun _ => nofun, fun _ => nofun, fun _ => .inr (.inl rfl)⟩

end Rebuild
