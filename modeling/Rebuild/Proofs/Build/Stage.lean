import Rebuild.Proofs.Build.History
import Mathlib.Algebra.BigOperators.Group.Finset.Basic
import Mathlib.Algebra.BigOperators.Group.Multiset.Basic
/-!
# Stages of rules

Each rule of a target that is being worked on is at a stage: its prerequisites are to be seen to,
some of them are owed, they are done, its recipe is running, or all is done. The stages say which
threads the target has, and each stage says what is known of the rule (`Stage.Ok`): which
prerequisites are settled, why there is an error, and which lines of the recipe have ended. One
turn of the target takes one rule to its next stage, or two in a row.
-/

open Function

namespace Rebuild

variable {r : RuleAt} {serial : Bool} {τ : Thread}

/-- How far a rule of a target is. -/
inductive Stage where
  /-- Its prerequisites are to be seen to. -/
  | fresh
  /-- These prerequisites are not done. -/
  | gather (owed : List (Text × Bool))
  /-- The prerequisites are done, which is to be told. -/
  | ready (error : Bool)
  /-- The rule waits for its turn. -/
  | closed
  | recipe
  | next (error : Bool)
  | command (line : RecipeLine)
  | done (error : Bool)
  /-- Nothing more happens to the rule. -/
  | out

namespace Stage

/-- The recipe is not taken up yet. -/
def isBefore : Stage → Bool
  | .fresh | .gather _ | .ready _ | .closed => true
  | _ => false

/-- The prerequisites are not known to be done. -/
def isOpen : Stage → Bool
  | .fresh | .gather _ | .ready _ => true
  | _ => false

/-- The recipe is taken up and not done. -/
def isActive : Stage → Bool
  | .recipe | .next _ | .command _ | .done _ => true
  | _ => false

/-- Something is under way for the rule. -/
def isCurrent : Stage → Bool
  | .fresh | .closed | .out => false
  | _ => true

/-- The threads of a rule at a stage. Where rules and prerequisites follow each other, one that is
not begun has none, and only the first prerequisite that is owed has one. -/
def threads (serial : Bool) (r : RuleAt) : Stage → Multiset Thread
  | .fresh => if serial then 0 else {.resolve r}
  | .gather owed =>
    ((if serial then owed.take 1 else owed).map fun d => Thread.dep r d.1 d.2 : List Thread)
  | .ready e => {.resolved r e}
  | .closed => 0
  | .recipe => {.recipe r}
  | .next e => {.next r e}
  | .command line => {.command r line}
  | .done e => {.done r.build r.target e}
  | .out => 0

end Stage

/-! ## What is known of a rule -/

/-- Does a rule know that a prerequisite, weak or not, is not to be had? -/
def RuleWork.minds (x : RuleWork) (weak : Bool) : Bool := if weak then x.remake else x.error

section Facts

variable (h : List Deed) (v : View) (r : RuleAt) (x : RuleWork)

/-- A prerequisite is done, or was refused; if it is not to be had, the rule knows that. -/
def Accounted (d : Text × Bool) : Prop :=
  (∃ wd, v.work r.build d.1 = some wd ∧ wd.progress = .finished ∧
    (wd.error = true → x.minds d.2 = true)) ∨
  (Refused h r d.1 ∧ x.minds d.2 = true)

/-- All prerequisites are accounted for. -/
def Complete : Prop := ∀ d ∈ x.deps, Accounted h v r x d

/-- The error of a rule has a reason: a prerequisite that failed or was refused, or a recipe that
failed before. -/
def Blamed : Prop :=
  x.error = true →
    (∃ d, (d, false) ∈ x.deps ∧
      ((∃ wd, v.work r.build d = some wd ∧ wd.progress = .finished ∧ wd.error = true) ∨
        Refused h r d)) ∨
    (v.failed r.build = true ∧ v.keep r.build = false)

/-- The recipe was not taken up. -/
def Untouched : Prop := x.running = false ∧ exits h r = [] ∧ recipeRuns h r = 0

/-- The recipe was taken up, once. -/
def TakenUp : Prop := x.running = true ∧ recipeRuns h r = 1

/-- The recipe was taken up and is over, or it was left out since the rule has an error. -/
def Past : Prop := recipeRuns h r = 1 ∧ Over h r ∨ recipeRuns h r = 0 ∧ x.error = true

/-- What is known of a rule at a stage; `serial` and `error` are those of its target. -/
def Stage.Ok (serial error : Bool) : Stage → Prop
  | .fresh => Untouched h r x ∧ x.error = false ∧
    (serial = false → x.depsLeft = x.deps.length + 1)
  | .gather owed => Untouched h r x ∧ Blamed h v r x ∧ owed ≠ [] ∧
    (∃ met, (met ++ owed).Perm x.deps ∧ ∀ d ∈ met, Accounted h v r x d) ∧
    (serial = true → x.queue = owed.tail) ∧ (serial = false → x.depsLeft = owed.length)
  | .ready e => Untouched h r x ∧ Blamed h v r x ∧ e = x.error ∧
    (x.error = false ∨ v.keep r.build = true → Complete h v r x) ∧
    (x.error = false → serial = false → x.depsLeft = 0)
  | .closed => Untouched h r x ∧ Blamed h v r x ∧ (x.error = true → error = true) ∧
    (x.error = false ∨ v.keep r.build = true → Complete h v r x) ∧
    (x.error = false → x.depsLeft = 0)
  | .recipe => Untouched h r x ∧ x.error = false ∧ Complete h v r x
  | .next e => TakenUp h r x ∧ x.error = false ∧ Complete h v r x ∧
    ∃ lines, Given h r lines ∧ lines = (exits h r).map (·.1) ++ x.lines ∧ (e = false → Fine h r)
  | .command line => TakenUp h r x ∧ x.error = false ∧ Complete h v r x ∧
    ∃ lines, Given h r lines ∧ lines = (exits h r).map (·.1) ++ line :: x.lines ∧ Fine h r
  | .done e =>
    ((TakenUp h r x ∧ Over h r) ∧ x.error = false ∧ Complete h v r x ∧
      (e = false → Concluded h r)) ∨
    (Untouched h r x ∧ Blamed h v r x ∧ e = false ∧ x.error = true ∧ error = true ∧
      (v.keep r.build = true → Complete h v r x))
  | .out => Past h r x ∧ Blamed h v r x ∧ (x.error = true → error = true) ∧
    (x.error = false ∨ v.keep r.build = true → Complete h v r x) ∧
    (error = false → Concluded h r)

end Facts

/-- A later state of a build: what was done is still known, what is finished stays so, and a
failure is not forgotten. -/
structure Ahead (b : Nat) (h : List Deed) (v : View) (h' : List Deed) (v' : View) : Prop where
  past : ∀ d ∈ h, d ∈ h'
  ended : ∀ d wd, v.work b d = some wd → wd.progress = .finished →
    ∃ wd', v'.work b d = some wd' ∧ wd'.progress = .finished ∧ wd'.error = wd.error
  failed : v.failed b = true → v'.failed b = true
  keep : v'.keep b = v.keep b

/-- Nothing more is told about the recipe of a rule. -/
def Untold (h h' : List Deed) (r : RuleAt) : Prop :=
  exits h' r = exits h r ∧ recipeRuns h' r = recipeRuns h r

namespace Ahead

variable {h h' : List Deed} {v v' : View} {x : RuleWork}

theorem refl (b : Nat) (h : List Deed) (v : View) : Ahead b h v h v :=
  ⟨fun _ => id, fun _ wd hwd hf => ⟨wd, hwd, hf, rfl⟩, id, rfl⟩

variable (hA : Ahead r.build h v h' v')
include hA

theorem refused {name : Text} (hr : Refused h r name) : Refused h' r name :=
  let ⟨d, hd, hp⟩ := hr
  ⟨d, hA.past d hd, hp⟩

theorem given {lines : List RecipeLine} (hg : Given h r lines) : Given h' r lines :=
  let ⟨d, hd, hp⟩ := hg
  ⟨d, hA.past d hd, hp⟩

theorem isOver (ho : Over h r) : Over h' r :=
  let ⟨d, hd, hp⟩ := ho
  ⟨d, hA.past d hd, hp⟩

/-- What is accounted for stays so, also if the rule learns more. -/
theorem accounted {x' : RuleWork} (hx : ∀ weak, x.minds weak = true → x'.minds weak = true)
    {d : Text × Bool} (hd : Accounted h v r x d) : Accounted h' v' r x' d := by
  rcases hd with ⟨wd, hwd, hf, he⟩ | ⟨hr, hm⟩
  · obtain ⟨wd', hwd', hf', he'⟩ := hA.ended _ wd hwd hf
    exact .inl ⟨wd', hwd', hf', fun h => hx _ (he (he' ▸ h))⟩
  · exact .inr ⟨hA.refused hr, hx _ hm⟩

theorem complete (hc : Complete h v r x) : Complete h' v' r x :=
  fun d hd => hA.accounted (fun _ h => h) (hc d hd)

theorem blamed (hb : Blamed h v r x) : Blamed h' v' r x := by
  intro he
  rcases hb he with ⟨d, hd, ⟨wd, hwd, hf, hwe⟩ | hr⟩ | ⟨hf, hk⟩
  · obtain ⟨wd', hwd', hf', he'⟩ := hA.ended d wd hwd hf
    exact .inl ⟨d, hd, .inl ⟨wd', hwd', hf', he'.trans hwe⟩⟩
  · exact .inl ⟨d, hd, .inr (hA.refused hr)⟩
  · exact .inr ⟨hA.failed hf, hA.keep.trans hk⟩

variable (hq : Untold h h' r)
include hq

omit hA in
theorem fine (hf : Fine h r) : Fine h' r := by
  unfold Fine
  rwa [hq.1]

theorem concluded (hc : Concluded h r) : Concluded h' r := by
  rcases hc with ⟨d, hd, hp⟩ | ⟨lines, hg, hl, hf⟩
  · exact .inl ⟨d, hA.past d hd, hp⟩
  · exact .inr ⟨lines, hA.given hg, by rwa [hq.1], fine hq hf⟩

omit hA in
theorem untouched (hu : Untouched h r x) : Untouched h' r x := by
  unfold Untouched
  rwa [hq.1, hq.2]

/-- What is known of a rule stays so while nothing happens to it. -/
theorem ok {error error' : Bool} (herr : error = true → error' = true) {σ : Stage}
    (hσ : σ.Ok h v r x serial error) : σ.Ok h' v' r x serial error' := by
  have hk : v'.keep r.build = v.keep r.build := hA.keep
  have hcomplete : (x.error = false ∨ v.keep r.build = true → Complete h v r x) →
      (x.error = false ∨ v'.keep r.build = true → Complete h' v' r x) := by
    intro hc ho
    rw [hk] at ho
    exact hA.complete (hc ho)
  have htaken : TakenUp h r x → TakenUp h' r x := by
    unfold TakenUp
    rw [hq.2]
    exact id
  cases σ with
  | fresh =>
    obtain ⟨hu, hrest⟩ := hσ
    exact ⟨untouched hq hu, hrest⟩
  | gather owed =>
    obtain ⟨hu, hb, hne, ⟨met, hperm, hmet⟩, hrest⟩ := hσ
    exact ⟨untouched hq hu, hA.blamed hb, hne,
      ⟨met, hperm, fun d hd => hA.accounted (fun _ h => h) (hmet d hd)⟩, hrest⟩
  | ready e =>
    obtain ⟨hu, hb, hee, hc, hleft⟩ := hσ
    exact ⟨untouched hq hu, hA.blamed hb, hee, hcomplete hc, hleft⟩
  | closed =>
    obtain ⟨hu, hb, hxe, hc, hleft⟩ := hσ
    exact ⟨untouched hq hu, hA.blamed hb, herr ∘ hxe, hcomplete hc, hleft⟩
  | recipe =>
    obtain ⟨hu, hxe, hc⟩ := hσ
    exact ⟨untouched hq hu, hxe, hA.complete hc⟩
  | next e =>
    obtain ⟨ht, hxe, hc, lines, hg, hl, hf⟩ := hσ
    exact ⟨htaken ht, hxe, hA.complete hc, lines, hA.given hg, by rwa [hq.1],
      fun h => fine hq (hf h)⟩
  | command line =>
    obtain ⟨ht, hxe, hc, lines, hg, hl, hf⟩ := hσ
    exact ⟨htaken ht, hxe, hA.complete hc, lines, hA.given hg, by rwa [hq.1], fine hq hf⟩
  | done e =>
    rcases hσ with ⟨⟨ht, ho⟩, hxe, hc, hdone⟩ | ⟨hu, hb, hee, hxe, herror, hc⟩
    · exact .inl ⟨⟨htaken ht, hA.isOver ho⟩, hxe, hA.complete hc, fun h =>
        hA.concluded hq (hdone h)⟩
    · exact .inr ⟨untouched hq hu, hA.blamed hb, hee, hxe, herr herror, fun h =>
        hA.complete (hc (hk ▸ h))⟩
  | out =>
    obtain ⟨hpast, hb, hxe, hc, hdone⟩ := hσ
    have hpast' := hpast.imp (fun h => And.intro (hq.2.trans h.1) (hA.isOver h.2)) fun h =>
      And.intro (hq.2.trans h.1) h.2
    refine ⟨hpast', hA.blamed hb, herr ∘ hxe, hcomplete hc, fun h => hA.concluded hq (hdone ?_)⟩
    cases error with
    | false => rfl
    | true => simp [herr rfl] at h

end Ahead

/-! ## Purses -/

/-- The threads of a target with rules at these stages. A target whose rules follow each other is
led to its first rule by a thread of its own, which has the number after those of the rules. -/
def purseOf (b : Nat) (t : Text) (serial : Bool) (n : Nat) (σ : Nat → Stage) : Multiset Thread :=
  ∑ i ∈ Finset.range (n + 1), (σ i).threads serial ⟨b, t, i⟩

section Purse

variable {b : Nat} {t : Text} {n j : Nat} {σ : Nat → Stage} {a : Stage}
  {P N : Multiset Thread}

theorem mem_purseOf : τ ∈ purseOf b t serial n σ ↔ ∃ j ≤ n, τ ∈ (σ j).threads serial ⟨b, t, j⟩ := by
  simp only [purseOf, Multiset.mem_sum, Finset.mem_range, Nat.lt_succ_iff]

/-- A rule goes to another stage. -/
theorem purseOf_update (b : Nat) (t : Text) (serial : Bool) (σ : Nat → Stage) (a : Stage)
    (hj : j ≤ n) :
    purseOf b t serial n (update σ j a) + (σ j).threads serial ⟨b, t, j⟩ =
      purseOf b t serial n σ + a.threads serial ⟨b, t, j⟩ := by
  have hmem : j ∈ Finset.range (n + 1) := Finset.mem_range.2 (by omega)
  unfold purseOf
  rw [← Finset.add_sum_erase _ _ hmem, ← Finset.add_sum_erase _ (fun i => (σ i).threads _ _) hmem,
    update_self]
  have hrest : ∑ i ∈ (Finset.range (n + 1)).erase j, (update σ j a i).threads serial ⟨b, t, i⟩ =
      ∑ i ∈ (Finset.range (n + 1)).erase j, (σ i).threads serial ⟨b, t, i⟩ :=
    Finset.sum_congr rfl fun i hi => by rw [update_of_ne (Finset.ne_of_mem_erase hi)]
  rw [hrest]
  ac_rfl

/-- A rule takes up one of its threads and leaves others. -/
theorem purseOf_take {R : Multiset Thread} (hj : j ≤ n) (hP : purseOf b t serial n σ = τ ::ₘ P)
    (hσ : (σ j).threads serial ⟨b, t, j⟩ = τ ::ₘ R) (ha : a.threads serial ⟨b, t, j⟩ = N + R) :
    purseOf b t serial n (update σ j a) = N + P := by
  have h := purseOf_update b t serial σ a hj
  rw [hP, hσ, ha] at h
  have h' : purseOf b t serial n (update σ j a) + (τ ::ₘ R) = (N + P) + (τ ::ₘ R) := by
    rw [h, Multiset.cons_add, Multiset.add_cons, ← add_assoc, add_comm P N]
  exact add_right_cancel h'

/-- A rule gives up its only thread. -/
theorem purseOf_drop (hj : j ≤ n) (hP : purseOf b t serial n σ = τ ::ₘ P)
    (hσ : (σ j).threads serial ⟨b, t, j⟩ = {τ}) (ha : a.threads serial ⟨b, t, j⟩ = 0) :
    purseOf b t serial n (update σ j a) = P := by
  have h := purseOf_take (N := 0) hj hP hσ ha
  rwa [zero_add] at h

/-- A rule without threads gets some. -/
theorem purseOf_give (hj : j ≤ n) (hσ : (σ j).threads serial ⟨b, t, j⟩ = 0) :
    purseOf b t serial n (update σ j a) =
      a.threads serial ⟨b, t, j⟩ + purseOf b t serial n σ := by
  have h := purseOf_update b t serial σ a hj
  rw [hσ, add_zero] at h
  rw [h, add_comm]

theorem purseOf_eq_zero :
    purseOf b t serial n σ = 0 ↔ ∀ j ≤ n, (σ j).threads serial ⟨b, t, j⟩ = 0 := by
  simp only [Multiset.eq_zero_iff_forall_notMem, mem_purseOf, not_exists, not_and]
  exact ⟨fun h j hj τ => h τ j hj, fun h τ j hj => h j hj τ⟩

end Purse

/-- A rule at a stage has this thread. -/
def Thread.At (serial : Bool) (r : RuleAt) (σ : Stage) : Thread → Prop
  | .top => False
  | .resolve r' => r' = r ∧ σ = .fresh ∧ serial = false
  | .dep r' d weak =>
    r' = r ∧ ∃ owed, σ = .gather owed ∧ (d, weak) ∈ if serial then owed.take 1 else owed
  | .resolved r' e => r' = r ∧ σ = .ready e
  | .recipe r' => r' = r ∧ σ = .recipe
  | .next r' e => r' = r ∧ σ = .next e
  | .command r' line => r' = r ∧ σ = .command line
  | .done _ _ e => σ = .done e

theorem Stage.of_mem {σ : Stage} (h : τ ∈ σ.threads serial r) : τ.At serial r σ := by
  cases σ with
  | fresh =>
    cases serial with
    | true => cases h
    | false =>
      cases Multiset.mem_singleton.1 h
      exact ⟨rfl, rfl, rfl⟩
  | gather owed =>
    obtain ⟨p, hp, rfl⟩ := List.mem_map.1 (Multiset.mem_coe.1 h)
    exact ⟨rfl, owed, rfl, hp⟩
  | closed | out => cases h
  | done e =>
    cases Multiset.mem_singleton.1 h
    rfl
  | _ =>
    cases Multiset.mem_singleton.1 h
    exact ⟨rfl, rfl⟩

end Rebuild
