import Rebuild.Proofs.Build.Line
import Rebuild.Proofs.Build.Turn
/-!
# What the functions on targets do

Each function that works on a target takes up one thread of it, as `Turn` describes. The proofs
follow the functions from one operation on the state to the next and read off the view at the
end.
-/

namespace Rebuild

open View Work

namespace RunM

variable {s s' : Run} {b : Nat} {t : Text} {r : RuleAt} {u : Unit} {as : List Action}
  {weak error did : Bool} {w : Work} {s1 : Run} {d : Text} {line : RecipeLine} {e : Error}

/-! ## Telling that a target is done -/

theorem notifyDone_view (h : Gives (notifyDone b t) s u s') :
    ∃ w, s.view.work b t = some w ∧ w.progress = .working ∧
      s'.view = (s.view.put b t w.finish).later (w.released b t w.error w.didAnything) := by
  obtain ⟨w, hwork, h⟩ := h.of_work
  extract_lets tell look at h
  split at h
  · cases h
  · rename_i hp
    refine ⟨w, hwork, by simpa using hp, ?_⟩
    obtain ⟨x, s2, hx, h⟩ := h.of_bind
    obtain ⟨_, -, -, rfl⟩ := target_gives hx
    -- whatever is noted about the file, the work is finished and the replies follow
    obtain ⟨s1, e1, h⟩ := h.of_when (by
      refine keeps_onMakefile (keeps_bind (MakeM.keeps_firstFile _) fun found => ?_) b
      exact keeps_modify fun _ => rfl)
    obtain ⟨_, s2, h2, h⟩ := h.of_bind
    obtain ⟨w', hw', e2⟩ := onWork_view h2
    rw [e1, hwork] at hw'
    cases hw'
    rw [e1] at e2
    rw [forM_defer_view h, e2]
    rfl

/-! ## Prerequisites -/

/-- The next prerequisite of a rule whose work was changed. -/
theorem nextDep_view {f : RuleWork → RuleWork} {v : View}
    (e : s.view = v.put r.build r.target (w.onRule r.rule f))
    (h : Gives (nextDep r) s as s') :
    ∃ x, w.rules[r.rule]? = some x ∧
      ((∃ d weak rest, (f x).queue = (d, weak) :: rest ∧ as = [] ∧
        s'.view =
        (v.put r.build r.target (w.onRule r.rule fun x => { f x with queue := rest })).later
          [.task (.make r.build d (f x).stack (.dependent r weak) false true)]) ∨
      ((f x).queue = [] ∧ as = [.resolved r (f x).error (f x).didAnything] ∧
        s'.view = s.view)) := by
  obtain ⟨x, hx, h⟩ := h.of_ruleWork_put e
  refine ⟨x, hx, ?_⟩
  split at h
  · rename_i d weak rest hq
    obtain ⟨s1, e1, h⟩ := h.of_onRule_put e
    obtain ⟨_, s2, h2, h⟩ := h.of_bind
    have e2 := (defer_view h2).2
    cases h
    exact .inl ⟨d, weak, rest, hq, rfl, by rw [e2, e1, onRule_onRule]; rfl⟩
  · rename_i hq
    cases h
    exact .inr ⟨hq, rfl, rfl⟩

theorem resolveRule_sees (h : Gives (resolveRule r) s as s') :
    ∃ w w' late, s.view.work r.build r.target = some w ∧
      Sees r.build r.target r.rule w w' as late ∧
      s'.view = (s.view.put r.build r.target w').later late := by
  obtain ⟨w, s1, hw, e1, h⟩ := h.of_onRule
  obtain ⟨w1, hw1, h⟩ := h.of_work
  rw [e1, put_work_self] at hw1
  cases hw1
  split at h
  · rename_i hserial
    obtain ⟨s2, e2, h⟩ := h.of_onRule_put e1
    rw [onRule_onRule] at e2
    obtain ⟨x, hx, ⟨d, weak, rest, hq, rfl, e3⟩ | ⟨hq, rfl, e3⟩⟩ :=
      nextDep_view e2 h
    · exact ⟨w, _, _, hw, .first hserial hx hq, e3⟩
    · refine ⟨w, _, _, hw, .none (x := x) hserial hx hq, ?_⟩
      rw [e3, e2, later_nil]
      congr 1
      exact onRule_congr hx (by simp [show x.deps = [] from hq])
  · rename_i hserial
    obtain ⟨s2, e2, h⟩ := h.of_onRule_put e1
    rw [onRule_onRule] at e2
    obtain ⟨x, hx, h⟩ := h.of_ruleWork_put e2
    have hparallel : w.serial = false := by simpa using hserial
    split at h
    · rename_i hleft
      cases h
      refine ⟨w, _, _, hw, .ready (x := x) hparallel hx (by simpa using hleft), ?_⟩
      rw [e2, later_nil]
      rfl
    · rename_i hleft
      obtain ⟨_, h3, rfl⟩ := h.of_pure
      refine ⟨w, _, _, hw, .all hparallel hx (by simpa using hleft), ?_⟩
      rw [forM_defer_view h3, e2]
      rfl

/-- Seeing to the prerequisites of a rule. -/
theorem resolveAction_took (h : Gives (resolveAction r) s as s') :
    Took s.view r.build r.target (.resolve r) as s'.view := by
  obtain ⟨x, hb, h⟩ := h.of_build
  obtain ⟨k, -, hkeep, h⟩ := h.of_keepsGoing
  split at h
  · rename_i hstop
    rw [Bool.and_eq_true] at hstop
    obtain ⟨w, s1, hw, e1, h⟩ := h.of_onRule
    cases h
    have hfailed : s.view.failed r.build = true := by
      simpa [Run.view, hb] using hstop.1
    refine .of_turn hw (.refuse hfailed (by rw [hkeep]; simpa using hstop.2)) ?_
    simpa using e1
  · obtain ⟨w, w', late, hw, hsees, e⟩ := resolveRule_sees h
    exact .of_turn hw (.see hsees) (by simpa using e)

/-! ## Outcomes of prerequisites -/

/-- A rule that was told goes on: with the next prerequisite, or when all are done. -/
theorem afterHearing_hears
    (e1 : s1.view = s.view.put r.build r.target (w.onRule r.rule fun x => x.hear weak error did))
    (h : Gives (if w.serial then do
        if (error && !weak) && !(← keepsGoing r.build) then
          return [.resolved r true (← ruleWork r).didAnything]
        nextDep r
      else do
        onRule r fun x => { x with depsLeft := x.depsLeft - 1 }
        let x ← ruleWork r
        if x.depsLeft == 0 then return [.resolved r x.error x.didAnything]
        return []) s1 as s') :
    ∃ w' late,
      Hears (s.view.keep r.build) r.build r.target r.rule weak error did w w' as late ∧
      s'.view = (s.view.put r.build r.target w').later late := by
  split at h
  · rename_i hserial
    obtain ⟨k, -, hkeep, h⟩ := h.of_keepsGoing
    rw [e1] at hkeep
    split at h
    · rename_i hstop
      simp only [Bool.and_eq_true, Bool.not_eq_eq_eq_not, Bool.not_true] at hstop
      obtain ⟨x, hx, h⟩ := h.of_ruleWork_put e1
      cases h
      refine ⟨_, _, .stop hserial hx hstop.1.1 hstop.1.2 (hkeep.trans hstop.2), ?_⟩
      rw [e1, later_nil]
    · rename_i hgoes
      obtain ⟨x, hx, ⟨d, weak', rest, hq, rfl, e3⟩ | ⟨hq, rfl, e3⟩⟩ := nextDep_view e1 h
      · refine ⟨_, _, .walk hserial hx hq (fun hweak herror => hkeep.trans ?_), e3⟩
        simpa [hweak, herror] using hgoes
      · refine ⟨_, _, .last hserial hx hq, ?_⟩
        rw [e3, e1, later_nil]
  · rename_i hserial
    have hparallel : w.serial = false := by simpa using hserial
    obtain ⟨s2, e2, h⟩ := h.of_onRule_put e1
    rw [onRule_onRule] at e2
    obtain ⟨x, hx, h⟩ := h.of_ruleWork_put e2
    split at h
    · rename_i hleft
      cases h
      refine ⟨_, _, .ready hparallel hx (by simpa [RuleWork.hear] using hleft), ?_⟩
      rw [e2, later_nil]
      rfl
    · rename_i hleft
      cases h
      refine ⟨_, _, .more hparallel hx (by simpa [RuleWork.hear] using hleft), ?_⟩
      rw [e2, later_nil]
      rfl

theorem depDone_hears (h : Gives (depDone r weak error did) s as s') :
    ∃ w w' late, s.view.work r.build r.target = some w ∧
      Hears (s.view.keep r.build) r.build r.target r.rule weak error did w w' as late ∧
      s'.view = (s.view.put r.build r.target w').later late := by
  unfold depDone at h
  extract_lets fault rest at h
  have hrest : ∀ {s1 : Run} {w : Work} {g : RuleWork → RuleWork},
      s.view.work r.build r.target = some w →
      s1.view = s.view.put r.build r.target (w.onRule r.rule g) →
      ((fun x : RuleWork =>
        { x with error := x.error || fault, didAnything := x.didAnything || did }) ∘ g) =
          (fun x => x.hear weak error did) →
      Gives (rest ()) s1 as s' →
      ∃ w w' late, s.view.work r.build r.target = some w ∧
        Hears (s.view.keep r.build) r.build r.target r.rule weak error did w w' as late ∧
        s'.view = (s.view.put r.build r.target w').later late := by
    intro s1 w g hw e1 hg h
    obtain ⟨w1, hw1, h⟩ := h.of_work
    rw [e1, put_work_self] at hw1
    cases hw1
    obtain ⟨s2, e2, h⟩ := h.of_when (keeps_print _)
    obtain ⟨s3, e3, h⟩ := h.of_onRule_put (e2.trans e1)
    rw [onRule_onRule, hg] at e3
    obtain ⟨w', late, hh, e⟩ := afterHearing_hears e3 h
    exact ⟨w, w', late, hw, hh, e⟩
  split at h
  · rename_i hwe
    obtain ⟨w, s1, hw, e1, h⟩ := h.of_onRule
    rw [Bool.and_eq_true] at hwe
    refine hrest hw e1 (funext fun x => ?_) h
    simp [RuleWork.hear, fault, hwe.1, hwe.2]
  · rename_i hwe
    obtain ⟨w, s1, hg, -⟩ := h.of_bind
    obtain ⟨hw, -⟩ := gives_work.1 hg
    refine hrest (g := id) hw ?_ (funext fun x => ?_) h
    · rw [onRule_id, put_eq_self _ hw]
    · simp [RuleWork.hear, fault, hwe]

theorem depDone_took {wd : Work} (known : s.view.work r.build d = some wd)
    (ended : wd.progress = .finished) (told : wd.error = error)
    (h : Gives (depDone r weak error did) s as s') :
    Took s.view r.build r.target (.reply r.build d (.dependent r weak) error did) as s'.view := by
  obtain ⟨w, w', late, hw, hh, e⟩ := depDone_hears h
  exact .of_turn hw (.hear known ended told hh) (by simpa using e)

/-- A prerequisite is made, or counts as failed after a failure. -/
theorem startDep_view (h : Gives (startDep r d weak) s as s') :
    (s.view.failed r.build = true ∧
      Took s.view r.build r.target (.startDep r d weak) as s'.view) ∨
      (s.view.failed r.build = false ∧ s'.view = s.view ∧
        ∃ stack, as = [.make r.build d stack (.dependent r weak) false true]) := by
  obtain ⟨x, hb, h⟩ := h.of_build
  have hfailed : s.view.failed r.build = x.failed := by simp [Run.view, hb]
  split at h
  · rename_i hf
    rw [hfailed]
    refine .inl ⟨hf, ?_⟩
    obtain ⟨w, w', late, hw, hh, e⟩ := depDone_hears h
    exact .of_turn hw (.shun (hfailed.trans hf) hh) (by simpa using e)
  · rename_i hf
    obtain ⟨y, _, -, -, h⟩ := h.of_ruleWork
    cases h
    exact .inr ⟨hfailed.trans (by simpa using hf), rfl, _, rfl⟩

/-! ## Recipes in their order -/

theorem runNext_next (h : Gives (runNext b t) s u s') :
    ∃ w w' late ends, s.view.work b t = some w ∧ w.busy = false ∧
      Next (s.view.failed b && !s.view.keep b) b t w w' late ends ∧
      s'.view = (s.view.put b t w').later
        (late ++ if ends then w.released b t w'.error w'.didAnything else []) := by
  obtain ⟨w, hw, h⟩ := h.of_work
  extract_lets isBroken go at h
  split at h
  · cases h
  rename_i hbusy
  obtain ⟨x, hb, h⟩ := h.of_build
  obtain ⟨k, -, hkeep, h⟩ := h.of_keepsGoing
  have hfailed : s.view.failed b = x.failed := by simp [Run.view, hb]
  rw [hfailed, hkeep]
  extract_lets stop order at h
  have horder : w.leftOrder (x.failed && !k) = order := rfl
  clear_value order
  have hfree : w.busy = false := by simpa using hbusy
  cases order with
  | nil =>
    obtain ⟨s1, e1, h⟩ := h.of_onWork_at hw
    split at h
    · rename_i hrem
      obtain ⟨w2, hw2, hp, e2⟩ := notifyDone_view h
      rw [e1, put_work_self] at hw2
      cases hw2
      refine ⟨w, _, _, true, hw, hfree, .closes horder (by simpa using hrem) hp, ?_⟩
      rw [e2, e1, put_put]
      rfl
    · rename_i hrem
      cases h
      refine ⟨w, _, _, false, hw, hfree, .idle horder (by simpa using hrem), ?_⟩
      simpa using e1
  | cons i rest =>
    dsimp only at h
    split at h
    · rename_i hleft
      obtain ⟨w1, hw1, e1⟩ := onWork_view h
      rw [hw] at hw1
      cases hw1
      refine ⟨w, _, _, false, hw, hfree, .wait horder (by simpa [depsLeft] using hleft), ?_⟩
      simpa using e1
    · rename_i hleft
      obtain ⟨s1, e1, h⟩ := h.of_onWork_at hw
      have e2 := (defer_view h).2
      refine ⟨w, _, _, false, hw, hfree, .start horder (by simpa [depsLeft] using hleft), ?_⟩
      rw [e2, e1]
      rfl

/-- A target whose work is over is told about, after a change of its work. -/
theorem notifyDone_took {a : Action} {w1 : Work} {fails : Bool}
    (hw : s.view.work b t = some w) (e1 : s1.view = (s.view.put b t w1).failIf b fails)
    (hr : w1.replies = w.replies)
    (hturn : w1.progress = .working → Turn s.view b t w a w1.finish [] [] fails true)
    (h : Gives (notifyDone b t) s1 u s') : Took s.view b t a [] s'.view := by
  obtain ⟨w2, hw2, hp, e2⟩ := notifyDone_view h
  rw [e1, failIf_work, put_work_self] at hw2
  cases hw2
  refine .of_turn hw (hturn hp) ?_
  rw [e2, e1]
  simp [released, finish, hr]

theorem recipeDone_took (h : Gives (recipeDone b t error) s as s') :
    Took s.view b t (.recipeDone b t error) as s'.view := by
  unfold recipeDone at h
  extract_lets free go at h
  have hgo : ∀ {s1 : Run} {w : Work}, s.view.work b t = some w →
      s1.view = (s.view.put b t { w with error := w.error || error }).failIf b error →
      Gives (go ()) s1 as s' → Took s.view b t (.recipeDone b t error) as s'.view := by
    intro s1 w hw e1 h
    obtain ⟨w1, hw1, h⟩ := h.of_work
    rw [e1, failIf_work, put_work_self] at hw1
    cases hw1
    split at h
    · rename_i hs
      have hserial : w.serial = true := hs
      obtain ⟨k, -, hkeep, h⟩ := h.of_keepsGoing
      rw [e1, failIf_keep, put_keep] at hkeep
      split at h
      · rename_i hstop
        simp only [Bool.and_eq_true, Bool.not_eq_eq_eq_not, Bool.not_true] at hstop
        obtain ⟨_, h2, rfl⟩ := h.of_pure
        exact notifyDone_took hw e1 rfl
          (fun hp => .last hserial (.inl ⟨hstop.1, hkeep.trans hstop.2⟩) hp) h2
      · split at h
        · rename_i ho
          have horder : w.order = [] := ho
          obtain ⟨_, h2, rfl⟩ := h.of_pure
          exact notifyDone_took hw e1 rfl (fun hp => .last hserial (.inr horder) hp) h2
        · rename_i hgoes _ i rest ho
          have horder : w.order = i :: rest := ho
          obtain ⟨w2, w', late, hw2, hsees, e2⟩ := resolveRule_sees h
          rw [e1, failIf_work, put_work_self] at hw2
          cases hw2
          refine .of_turn hw (.go hserial horder (fun herror => hkeep.trans ?_) hsees) ?_
          · simpa [herror] using hgoes
          rw [e2, e1]
          simp
    · rename_i hserial
      have hparallel : w.serial = false := by simpa using hserial
      split at h
      · cases h
      · rename_i hbusy
        obtain ⟨s2, e2, h⟩ := h.of_onWork_at (by rw [e1, failIf_work, put_work_self])
        rw [e1, failIf_put, put_put] at e2
        obtain ⟨_, h3, rfl⟩ := h.of_pure
        obtain ⟨w3, w', late, ends, hw3, -, hnext, e3⟩ := runNext_next h3
        rw [e2, failIf_work, put_work_self] at hw3
        cases hw3
        rw [e2, failIf_failed_self, failIf_keep, put_keep, put_failed] at hnext
        refine .of_turn hw (.free hparallel (by simpa using hbusy) hnext) ?_
        rw [e3, e2]
        simp [released]
  split at h
  · rename_i he
    obtain ⟨w, s1, hw, e1, h⟩ := h.of_onWork
    obtain ⟨_, s2, h2, h⟩ := h.of_bind
    have e2 := fail_view h2 (by rw [e1]; exact boss_of_work hw)
    refine hgo hw ?_ h
    rw [e2, e1, he]
    simp
  · rename_i he
    obtain ⟨w, s1, hg, -⟩ := h.of_bind
    obtain ⟨hw, -⟩ := gives_work.1 hg
    refine hgo hw ?_ h
    have hef : error = false := by simpa using he
    subst hef
    simp [put_eq_self _ hw]

/-- The prerequisites of a rule are done. -/
theorem resolved_took (h : Gives (resolved r error did) s as s') :
    Took s.view r.build r.target (.resolved r error did) as s'.view := by
  obtain ⟨w, s1, hw, e1, h⟩ := h.of_onWork
  obtain ⟨w1, hw1, h⟩ := h.of_work
  rw [e1, put_work_self] at hw1
  cases hw1
  split at h
  · rename_i hs
    have hserial : w.serial = true := hs
    split at h
    · rename_i he
      rw [he, Bool.or_true] at e1
      rw [he]
      obtain ⟨_, s2, h2, h⟩ := h.of_bind
      have e2 := fail_view h2 (by rw [e1]; exact boss_of_work hw)
      rw [e1, ← failIf_true] at e2
      obtain ⟨k, -, hkeep, h⟩ := h.of_keepsGoing
      rw [e2, failIf_keep, put_keep] at hkeep
      split at h
      · rename_i hhalt
        obtain ⟨_, h3, rfl⟩ := h.of_pure
        exact notifyDone_took hw e2 rfl
          (fun hp => .halt hserial (hkeep.trans (by simpa using hhalt)) hp) h3
      · rename_i hgoes
        obtain ⟨s3, e3, h⟩ := h.of_onWork_at (by rw [e2, failIf_work, put_work_self])
        cases h
        refine .of_turn hw (.skip hserial (hkeep.trans (by simpa using hgoes))) ?_
        rw [e3, e2, failIf_put, put_put]
        simp
    · rename_i he
      have hef : error = false := by simpa using he
      rw [hef, Bool.or_false] at e1
      rw [hef]
      obtain ⟨s2, e2, h⟩ := h.of_onWork_put e1
      cases h
      refine .of_turn hw (.run hserial) ?_
      rw [e2]
      simp
  · rename_i hs
    have hparallel : w.serial = false := by simpa using hs
    obtain ⟨s2, e2, h⟩ := h.of_onWork_put e1
    extract_lets leave at h
    split at h
    · rename_i hfree
      obtain ⟨_, h3, rfl⟩ := h.of_pure
      obtain ⟨w3, w', late, ends, hw3, -, hnext, e3⟩ := runNext_next h3
      rw [e2, put_work_self] at hw3
      cases hw3
      rw [e2, put_keep, put_failed] at hnext
      refine .of_turn hw (.turn hparallel (by simpa using hfree) hnext) ?_
      rw [e3, e2]
      simp [released]
    · rename_i hbusy
      cases h
      refine .of_turn hw (.queue hparallel (by simpa using hbusy)) ?_
      rw [e2]
      simp

/-! ## Recipes -/

theorem keeps_beingRemade (b : Nat) (name : Text) : Keeps SameView (beingRemade b name) := by
  refine keeps_onMakefile ?_ b
  exact keeps_modify fun _ => rfl

theorem keeps_recipeLines (b : Nat) (name : Text) (rule : RuleRef) :
    Keeps SameView (onMakefile b (Recipe.lines name rule)) :=
  keeps_onMakefile
    (Recipe.keeps_lines Below.keepsFrame_steady MakeM.keeps_mention name rule).sameHabits b

/-- The recipe of a rule is run if it has one and that is needed. -/
theorem runRecipe_took (h : Gives (runRecipe r) s as s') :
    Took s.view r.build r.target (.recipe r) as s'.view := by
  obtain ⟨x, w, hw, hrule, h⟩ := h.of_ruleWork
  extract_lets done go at h
  split at h
  · cases h
  rename_i hrunning
  have hfresh : x.running = false := by simpa using hrunning
  obtain ⟨s1, e1, h⟩ := h.of_onRule_at hw
  obtain ⟨y, hb, h⟩ := h.of_build
  obtain ⟨w2, -, h⟩ := h.of_work
  have hneedless : ∀ {s2 : Run}, s2.view = s1.view →
      Took s.view r.build r.target (.recipe r) (done false) s2.view := by
    intro s2 e2
    refine .of_turn hw (.needless hrule hfresh) ?_
    rw [e2, e1]
    simp
  split at h
  · obtain ⟨_, h2, rfl⟩ := h.of_pure
    exact hneedless
      ((holds_withoutRecipe (P := fun _ => Keeps SameView) (keeps_beingRemade _ _) _ _).of_gives h2)
  extract_lets indent doubleColon subject at h
  split at h
  · obtain ⟨_, h2, rfl⟩ := h.of_pure
    exact hneedless ((keeps_remark _).of_gives h2)
  obtain ⟨why, s2, h2, h⟩ := h.of_bind
  have e2 : s2.view = s1.view := (keeps_need _ _ _).of_gives (R := SameView) h2
  cases why with
  | none =>
    cases h
    exact hneedless e2
  | some why =>
    obtain ⟨_, s3, h3, h⟩ := h.of_bind
    obtain ⟨_, s4, h4, h⟩ := h.of_bind
    have e4 : s4.view = s1.view :=
      ((keeps_beingRemade _ _).of_gives h4).trans (((keeps_remark _).of_gives h3).trans e2)
    obtain ⟨s5, e5, h⟩ := h.of_onWork_put (e4.trans e1)
    obtain ⟨outcome, s6, h6, h⟩ := h.of_bind
    have e6 : s6.view = s5.view := by
      refine (keeps_tryCatch (keeps_return (keeps_recipeLines _ _ _)) fun e => ?_).of_gives h6
      split
      · exact keeps_return (keeps_print _)
      · exact keeps_throw _
    cases outcome with
    | none =>
      cases h
      refine .of_turn hw (.unreadable hrule hfresh) ?_
      rw [e6, e5]
      simp
    | some lines =>
      obtain ⟨s7, e7, h⟩ := h.of_onRule_put (e6.trans e5)
      cases h
      refine .of_turn hw (.begin lines hrule hfresh) ?_
      rw [e7]
      simp [Work.onRule, List.modify_modify_eq, Function.comp_def]

/-! ## Lines of recipes -/

theorem startLine_view (h : Gives (startLine r line) s as s') :
    ∃ late, as.map Action.post ++ late.map Duty.post = [.own (.command r line)] ∧
      s'.view = s.view.later late := by
  obtain ⟨x, ps, w, hx, hstarted, hroom, rfl⟩ := startLine_gives h
  refine ⟨ps.map .ofPending, ?_, ?_⟩
  · cases hstarted <;> rfl
  · rcases hroom with rfl | hroom
    · rw [Loop.queue_nil, List.map_nil, later_nil]
      rfl
    · exact view_queue (Loop.lt_of_hasRoom hroom) w ps

/-- A recipe goes on after a line. -/
theorem nextLine_took (hw : s.view.work r.build r.target = some w)
    (h : Gives (nextLine r error) s as s') :
    Took s.view r.build r.target (.nextLine r error) as s'.view := by
  cases error with
  | true =>
    cases h
    exact .of_turn hw .fault (by simp [put_eq_self _ hw])
  | false =>
    obtain ⟨x, w1, hw1, hrule, h⟩ := h.of_ruleWork
    rw [hw] at hw1
    cases hw1
    split at h
    · rename_i hlines
      cases h
      exact .of_turn hw (.complete hrule hlines) (by simp [put_eq_self _ hw])
    · rename_i line rest hlines
      obtain ⟨s1, e1, h⟩ := h.of_onRule_at hw
      obtain ⟨late, hstarts, e⟩ := startLine_view h
      refine .of_turn hw (.line hrule hlines hstarts) ?_
      rw [e, e1]
      simp

/-- A recipe that cannot go on has changed nothing but its own lines. -/
theorem nextLine_fails (h : Fails (nextLine r error) s e s') :
    s'.view = s.view ∨ ∃ w rest, s.view.work r.build r.target = some w ∧ s'.view =
      s.view.put r.build r.target (w.onRule r.rule fun x => { x with lines := rest }) := by
  cases error with
  | true => cases h
  | false =>
    rcases fails_bind.1 h with h | ⟨x, s1, hx, h⟩
    · exact .inl ((keeps_ruleWork (R := SameView) r).of_fails h)
    obtain ⟨w, hw, -, rfl⟩ := gives_ruleWork.1 hx
    split at h
    · cases h
    · rcases fails_bind.1 h with h | ⟨_, s1, h1, h⟩
      · refine .inl ?_
        rcases fails_bind.1 h with h | ⟨_, _, -, h⟩
        · exact (keeps_work (R := SameView) _ _).of_fails h
        · exact absurd h fails_modify
      · obtain ⟨w1, hw1, e1⟩ := onRule_view h1
        obtain ⟨⟨_, rfl⟩, -⟩ := startLine_fails h
        exact .inr ⟨w1, _, hw1, e1⟩

theorem exit_took {code : Int} (hw : s.view.work r.build r.target = some w)
    (h : Gives (exit (.recipe r line) code) s as s') :
    Took s.view r.build r.target (.exit (.recipe r line) code) as s'.view := by
  have hview : as = [.nextLine r (code != 0 && !line.ignore)] ∧ s'.view = s.view := by
    unfold exit at h
    dsimp only at h
    split at h
    · rename_i hfault
      obtain ⟨_, h1, rfl⟩ := h.of_pure
      exact ⟨by rw [hfault], (keeps_print _).of_gives h1⟩
    · rename_i hfault
      cases h
      rw [Bool.not_eq_true] at hfault
      exact ⟨by rw [hfault], rfl⟩
  obtain ⟨rfl, e⟩ := hview
  exact .of_turn hw .exit (by rw [e]; simp [put_eq_self _ hw])

end RunM

end Rebuild
