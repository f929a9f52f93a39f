import Rebuild.Proofs.Build.Stage
import Mathlib.Data.Finset.Card
/-!
# A target and its stages

A target that is being worked on has its rules at stages that fit together (`Stages`): the rules
still to be run are those in its order; where rules follow each other, one of them is under way;
where several are, one recipe is. A target that is finished has accounted for all of its rules
(`Ended`). This module shows how the stages of a target move on, one rule at a time.
-/

open Function

namespace Rebuild

open List

/-- Rules that follow each other: one is under way, and as long as its recipe is not taken up it is
the first in the order. -/
structure Single (w : Work) (σ : Nat → Stage) : Prop where
  never : ∀ i ≤ w.rules.length, σ i ≠ .closed
  one : ∀ i j, i ≤ w.rules.length → j ≤ w.rules.length → (σ i).isCurrent = true →
    (σ j).isCurrent = true → i = j
  head : ∀ i ≤ w.rules.length, (σ i).isCurrent = true → (σ i).isBefore = true →
    w.order.head? = some i

/-- Rules that go on at the same time: the recipe of one of them may be running, and the others
that are not resolved are counted. -/
structure Several (w : Work) (σ : Nat → Stage) : Prop where
  lead : σ w.rules.length = .out
  busy : ∀ i < w.rules.length, (σ i).isActive = true → w.busy = true
  active : w.busy = true → ∃ i < w.rules.length, (σ i).isActive = true
  one : ∀ i j, i < w.rules.length → j < w.rules.length → (σ i).isActive = true →
    (σ j).isActive = true → i = j
  remaining : w.remaining = ((Finset.range w.rules.length).filter fun i => (σ i).isOpen = true).card

/-- The rules of a target that is being worked on are at these stages. -/
structure Stages (h : List Deed) (v : View) (b : Nat) (t : Text) (w : Work) (σ : Nat → Stage) :
    Prop where
  rule : ∀ i x, w.rules[i]? = some x → (σ i).Ok h v ⟨b, t, i⟩ x w.serial w.error
  lead : σ w.rules.length = .out ∨ w.serial = true ∧ σ w.rules.length = .done false
  order : ∀ (i : Nat) (x : RuleWork), w.rules[i]? = some x → (σ i).isBefore = true →
    i ∈ w.order ∨ w.serial = false ∧ (x.error = true ∨ v.failed b = true ∧ v.keep b = false)
  listed : ∀ i ∈ w.order, i < w.rules.length ∧ (σ i).isBefore = true
  sorted : w.order.Pairwise (· < ·)
  past : ∀ i < w.rules.length, (σ i).isBefore = false → ∀ j,
    j ∈ w.order ∨ j < w.rules.length ∧ (σ j).isActive = true → i ≤ j
  single : w.serial = true → Single w σ
  several : w.serial = false → Several w σ
  blame : w.error = true → Failed h b t ∨ w.rules = [] ∨
    ∃ (i : Nat) (x : RuleWork), w.rules[i]? = some x ∧ x.error = true

/-- The rules of a target that is finished are accounted for. With an error that is not survived
some may never have been begun; and after a failure elsewhere a target with several rules at a time
leaves out recipes. -/
structure Ended (h : List Deed) (v : View) (b : Nat) (t : Text) (w : Work) : Prop where
  runs : ∀ (i : Nat) (x : RuleWork), w.rules[i]? = some x → recipeRuns h ⟨b, t, i⟩ = 1 ∨
    recipeRuns h ⟨b, t, i⟩ = 0 ∧
    (x.error = true ∨ v.keep b = false ∧ (w.error = true ∨ v.failed b = true))
  blamed : ∀ i x, w.rules[i]? = some x → Blamed h v ⟨b, t, i⟩ x
  error : ∀ (i : Nat) (x : RuleWork), w.rules[i]? = some x → x.error = true → w.error = true
  complete : w.error = false ∨ v.keep b = true → ∀ i x, w.rules[i]? = some x →
    Complete h v ⟨b, t, i⟩ x
  concluded : w.error = false → ∀ i x, w.rules[i]? = some x → Concluded h ⟨b, t, i⟩ ∨
    w.serial = false ∧ v.failed b = true ∧ v.keep b = false
  blame : w.error = true → Failed h b t ∨ w.rules = [] ∨
    ∃ (i : Nat) (x : RuleWork), w.rules[i]? = some x ∧ x.error = true

/-- The threads of a target at work. -/
abbrev Work.purse (w : Work) (b : Nat) (t : Text) (σ : Nat → Stage) : Multiset Thread :=
  purseOf b t w.serial w.rules.length σ

/-- A target with its threads: one that is being worked on has some, one that is finished none. -/
def Staged (h : List Deed) (v : View) (b : Nat) (t : Text) (w : Work) (P : Multiset Thread) :
    Prop :=
  (w.progress = .working ∧ P ≠ 0 ∧ ∃ σ, Stages h v b t w σ ∧ P = w.purse b t σ) ∨
  (w.progress = .finished ∧ P = 0 ∧ Ended h v b t w)

/-- An action does not tell about the recipe of a rule. -/
def Action.Silent (a : Action) (r : RuleAt) : Prop := a.exitOf r = [] ∧ a.isRecipe r = false

section

variable {h : List Deed} {d : Deed} {v v' : View} {b : Nat} {t : Text} {w u : Work}
  {σ : Nat → Stage} {r : RuleAt}

theorem Action.Silent.untold (hd : d.action.Silent r) : Untold h (d :: h) r := by
  constructor
  · rw [exits_cons, hd.1, append_nil]
  · rw [recipeRuns_cons, hd.2]
    rfl

/-- A thread of a target belongs to one of its rules, unless it tells that a recipe is done. -/
theorem Stages.of_mem {τ : Thread} (hS : Stages h v b t w σ) (hτ : τ ∈ w.purse b t σ)
    (hdone : ∀ e, τ ≠ .done b t e) : ∃ j x, w.rules[j]? = some x ∧
      (σ j).Ok h v ⟨b, t, j⟩ x w.serial w.error ∧ τ.At w.serial ⟨b, t, j⟩ (σ j) := by
  obtain ⟨j, hj, hmem⟩ := mem_purseOf.1 hτ
  have hlt : j < w.rules.length := by
    refine lt_of_le_of_ne hj ?_
    rintro rfl
    rcases hS.lead with hl | ⟨-, hl⟩ <;> rw [hl] at hmem
    · cases hmem
    · exact hdone _ (Multiset.mem_singleton.1 hmem)
  have hx := getElem?_eq_getElem hlt
  exact ⟨j, _, hx, hS.rule j _ hx, Stage.of_mem hmem⟩

/-! ## Targets to which nothing happens -/

section Ahead

variable {h' : List Deed} (hA : Ahead b h v h' v') (hq : ∀ i, Untold h h' ⟨b, t, i⟩)
include hA hq

theorem Stages.ahead (hS : Stages h v b t w σ) : Stages h' v' b t w σ where
  rule i x hx := Ahead.ok hA (hq i) id (hS.rule i x hx)
  lead := hS.lead
  order i x hx hb := by
    rcases hS.order i x hx hb with ho | ⟨hs, he | ⟨hf, hk⟩⟩
    · exact .inl ho
    · exact .inr ⟨hs, .inl he⟩
    · exact .inr ⟨hs, .inr ⟨hA.failed hf, hA.keep.trans hk⟩⟩
  listed := hS.listed
  sorted := hS.sorted
  past := hS.past
  single := hS.single
  several := hS.several
  blame he := by
    rcases hS.blame he with ⟨d, hd, hp⟩ | hrest
    · exact .inl ⟨d, hA.past d hd, hp⟩
    · exact .inr hrest

theorem Ended.ahead (hE : Ended h v b t w) : Ended h' v' b t w where
  runs i x hx := by
    rw [(hq i).2, hA.keep]
    exact (hE.runs i x hx).imp_right fun ⟨hz, hwhy⟩ =>
      ⟨hz, hwhy.imp_right fun ⟨hk, hwhy⟩ => ⟨hk, hwhy.imp_right hA.failed⟩⟩
  blamed i x hx := Ahead.blamed hA (hE.blamed i x hx)
  error := hE.error
  complete ho i x hx := Ahead.complete hA (hE.complete (hA.keep ▸ ho) i x hx)
  concluded ho i x hx := by
    rcases hE.concluded ho i x hx with hc | ⟨hs, hf, hk⟩
    · exact .inl (Ahead.concluded hA (hq i) hc)
    · exact .inr ⟨hs, hA.failed hf, hA.keep.trans hk⟩
  blame ho := by
    rcases hE.blame ho with ⟨d, hd, hp⟩ | hrest
    · exact .inl ⟨d, hA.past d hd, hp⟩
    · exact .inr hrest

theorem Staged.ahead {P : Multiset Thread} (hS : Staged h v b t w P) : Staged h' v' b t w P := by
  rcases hS with ⟨hw, hP, σ, hS, e⟩ | ⟨hw, hP, hE⟩
  · exact .inl ⟨hw, hP, σ, hS.ahead hA hq, e⟩
  · exact .inr ⟨hw, hP, hE.ahead hA hq⟩

end Ahead

/-! ## One rule goes to another stage -/

section Move

variable {h' : List Deed} {x : RuleWork} {f : RuleWork → RuleWork} {j : Nat} {a : Stage}
  {e y : Bool} {err : Bool}

/-- The rules other than one are at the stages they were at, with what is known of them. -/
theorem Stages.rule_move (hS : Stages h v b t w σ) (hA : Ahead b h v h' v')
    (hrules : u.rules = w.rules.modify j f) (hserial : u.serial = w.serial)
    (herror : w.error = true → u.error = true)
    (hq : ∀ i ≠ j, Untold h h' ⟨b, t, i⟩)
    (hok : ∀ x, w.rules[j]? = some x → a.Ok h' v' ⟨b, t, j⟩ (f x) u.serial u.error) (i : Nat)
    (y : RuleWork) (hy : u.rules[i]? = some y) :
    (update σ j a i).Ok h' v' ⟨b, t, i⟩ y u.serial u.error := by
  rw [hrules] at hy
  by_cases hij : i = j
  · subst hij
    obtain ⟨x, hx, rfl⟩ : ∃ x, w.rules[i]? = some x ∧ f x = y := by
      simpa [getElem?_modify] using hy
    rw [update_self]
    exact hok x hx
  · have hx : w.rules[i]? = some y := by
      simpa [getElem?_modify, Ne.symm hij] using hy
    rw [update_of_ne hij, hserial]
    exact Ahead.ok hA (hq i hij) herror (hS.rule i y hx)

/-- Work that changes so keeps its error. -/
def KeepsError (f : RuleWork → RuleWork) : Prop := ∀ x, x.error = true → (f x).error = true

/-- An error of a target has its reason as long as rules keep their errors. -/
theorem Stages.blame_move (hS : Stages h v b t w σ) (hpast : ∀ d ∈ h, d ∈ h')
    (hrules : u.rules = w.rules.modify j f) (hf : KeepsError f)
    (hwhy : u.error = true → w.error = true ∨ Failed h' b t ∨
      ∃ (i : Nat) (x : RuleWork), u.rules[i]? = some x ∧ x.error = true) (he : u.error = true) :
    Failed h' b t ∨ u.rules = [] ∨
      ∃ (i : Nat) (x : RuleWork), u.rules[i]? = some x ∧ x.error = true := by
  rcases hwhy he with hw | hfailed | hrule
  · rcases hS.blame hw with ⟨d, hd, hp⟩ | hnil | ⟨i, x, hx, hxe⟩
    · exact .inl ⟨d, hpast d hd, hp⟩
    · exact .inr (.inl (by rw [hrules, hnil, modify_nil]))
    · refine .inr (.inr ?_)
      by_cases hij : i = j
      · exact ⟨i, f x, by simp [hrules, hij.symm, hx], hf x hxe⟩
      · exact ⟨i, x, by simp [hrules, Ne.symm hij, hx], hxe⟩
  · exact .inl hfailed
  · exact .inr (.inr hrule)

/-- What a stage is asked and both stages of a rule answer alike does not change. -/
theorem update_eq {p : Stage → Bool} (hp : p a = p (σ j)) (i : Nat) :
    p (update σ j a i) = p (σ i) := by
  by_cases hij : i = j
  · rw [hij, update_self, hp]
  · rw [update_of_ne hij]

theorem Stage.isBefore_of_isOpen (ha : a.isOpen = true) : a.isBefore = true := by
  cases a <;> first | rfl | cases ha

theorem Stage.isActive_of_isOpen (ha : a.isOpen = true) : a.isActive = false := by
  cases a <;> first | rfl | cases ha

theorem Stage.isBefore_of_isActive (ha : a.isActive = true) : a.isBefore = false := by
  cases a <;> first | rfl | cases ha

theorem Stage.isOpen_of_isActive (ha : a.isActive = true) : a.isOpen = false := by
  cases a <;> first | rfl | cases ha

theorem Stage.isCurrent_of_isActive (ha : a.isActive = true) : a.isCurrent = true := by
  cases a <;> first | rfl | cases ha

/-- The order of a target while a rule goes to another stage: the rule keeps its place, or it was
the first and its recipe is taken up. -/
theorem Stages.order_move (hS : Stages h v b t w σ) (hA : Ahead b h v h' v')
    (hrules : u.rules = w.rules.modify j f) (hf : KeepsError f)
    (hserial : u.serial = w.serial) (horder : (u.order = w.order ∧ a.isBefore = (σ j).isBefore ∧
      (a.isActive = true → (σ j).isActive = true)) ∨ w.order = j :: u.order ∧ a.isActive = true)
    (hone : a.isActive = true → ∀ i < w.rules.length, (σ i).isActive = true → i = j) :
    (∀ (i : Nat) (x : RuleWork), u.rules[i]? = some x → (update σ j a i).isBefore = true →
      i ∈ u.order ∨ u.serial = false ∧ (x.error = true ∨ v'.failed b = true ∧ v'.keep b = false)) ∧
    (∀ i ∈ u.order, i < u.rules.length ∧ (update σ j a i).isBefore = true) ∧
    u.order.Pairwise (· < ·) ∧ ∀ i < u.rules.length, (update σ j a i).isBefore = false → ∀ k,
      k ∈ u.order ∨ k < u.rules.length ∧ (update σ j a k).isActive = true → i ≤ k := by
  have hlen : u.rules.length = w.rules.length := by rw [hrules, length_modify]
  have hbefore : ∀ {i}, (update σ j a i).isBefore = true →
      (σ i).isBefore = true ∧ (i ∈ w.order → i ∈ u.order) := by
    intro i hb
    rcases horder with ⟨ho, hsame, -⟩ | ⟨ho, ha⟩
    · exact ⟨update_eq hsame i ▸ hb, fun hi => ho ▸ hi⟩
    · have hij : i ≠ j := by
        rintro rfl
        simp [update_self, Stage.isBefore_of_isActive ha] at hb
      rw [update_of_ne hij] at hb
      exact ⟨hb, fun hi => (mem_cons.1 (ho ▸ hi)).resolve_left hij⟩
  refine ⟨fun i z hz hb => ?_, fun i hi => ?_, ?_, fun i hi hb k hk => ?_⟩
  · obtain ⟨x, hx, hxz⟩ : ∃ x, w.rules[i]? = some x ∧ (x.error = true → z.error = true) := by
      rw [hrules, getElem?_modify] at hz
      obtain ⟨x, hx, rfl⟩ := Option.map_eq_some_iff.1 hz
      refine ⟨x, hx, fun h => ?_⟩
      split
      · exact hf x h
      · exact h
    rw [hserial]
    rcases hS.order i x hx (hbefore hb).1 with ho | ⟨hs, hxe | ⟨hf', hk⟩⟩
    · exact .inl ((hbefore hb).2 ho)
    · exact .inr ⟨hs, .inl (hxz hxe)⟩
    · exact .inr ⟨hs, .inr ⟨hA.failed hf', hA.keep.trans hk⟩⟩
  · rw [hlen]
    rcases horder with ⟨ho, hsame, -⟩ | ⟨ho, -⟩
    · rw [update_eq hsame]
      exact hS.listed i (ho ▸ hi)
    · have hij : i ≠ j := ((pairwise_cons.1 (ho ▸ hS.sorted)).1 i hi).ne'
      rw [update_of_ne hij]
      exact hS.listed i (ho ▸ mem_cons_of_mem j hi)
  · rcases horder with ⟨ho, -⟩ | ⟨ho, -⟩
    · exact ho ▸ hS.sorted
    · exact (pairwise_cons.1 (ho ▸ hS.sorted)).2
  · rw [hlen] at hi hk
    rcases horder with ⟨ho, hsame, hactive⟩ | ⟨ho, ha⟩
    · rw [update_eq hsame] at hb
      refine hS.past i hi hb k (hk.imp (ho ▸ ·) fun ⟨hkn, hc⟩ => ⟨hkn, ?_⟩)
      by_cases hkj : k = j
      · rw [hkj, update_self] at hc
        exact hkj ▸ hactive hc
      · rwa [update_of_ne hkj] at hc
    · -- the rule that is taken up is the first of those in the order, and no other is active
      have hjk : k = j ∨ k ∈ u.order := hk.symm.imp_left fun ⟨hkn, hc⟩ => by
        by_contra hkj
        rw [update_of_ne hkj] at hc
        exact hkj (hone ha k hkn hc)
      have hmem : k ∈ w.order := ho ▸ mem_cons.2 hjk
      by_cases hij : i = j
      · rcases hjk with rfl | hk
        · exact hij.le
        · exact hij ▸ ((pairwise_cons.1 (ho ▸ hS.sorted)).1 k hk).le
      · rw [update_of_ne hij] at hb
        exact hS.past i hi hb k (.inl hmem)

/-- Where rules follow each other, the one under way goes to another stage. -/
theorem Single.move (hold : Single w σ) (hlen : u.rules.length = w.rules.length)
    (hnot : a ≠ .closed)
    (honly : ∀ i ≤ w.rules.length, (σ i).isCurrent = true → i = j)
    (hhead : a.isCurrent = true → a.isBefore = true → u.order.head? = some j) :
    Single u (update σ j a) := by
  have honly' : ∀ i ≤ u.rules.length, (update σ j a i).isCurrent = true → i = j := by
    intro i hi hc
    by_contra hij
    rw [update_of_ne hij] at hc
    exact hij (honly i (hi.trans_eq hlen) hc)
  refine ⟨fun i hi hc => ?_, fun i k hi hk hci hck => ?_, fun i hi hc hb => ?_⟩
  · by_cases hij : i = j
    · rw [hij, update_self] at hc
      exact hnot hc
    · rw [update_of_ne hij] at hc
      exact hold.never i (hi.trans_eq hlen) hc
  · rw [honly' i hi hci, honly' k hk hck]
  · obtain rfl := honly' i hi hc
    rw [update_self] at hc hb
    exact hhead hc hb

/-- Where several rules go on, one of them goes to another stage. -/
theorem Several.move (hold : Several w σ) (hj : j < w.rules.length)
    (hlen : u.rules.length = w.rules.length) (hopen : a.isOpen = true → (σ j).isOpen = true)
    (hbusy : u.busy = (a.isActive || w.busy && !(σ j).isActive))
    (hfree : a.isActive = true → w.busy = true → (σ j).isActive = true)
    (hleft : u.remaining = w.remaining - if (σ j).isOpen && !a.isOpen then 1 else 0) :
    Several u (update σ j a) := by
  have hactive : ∀ {i}, i ≠ j → i < w.rules.length → (σ i).isActive = true →
      w.busy = true ∧ (σ j).isActive = false := by
    intro i hij hi hc
    refine ⟨hold.busy i hi hc, ?_⟩
    by_contra hcj
    exact hij (hold.one i j hi hj hc (by simpa using hcj))
  refine ⟨?_, fun i hi hc => ?_, fun hb => ?_, fun i k hi hk hci hck => ?_, ?_⟩
  · rw [hlen, update_of_ne hj.ne']
    exact hold.lead
  · by_cases hij : i = j
    · rw [hij, update_self] at hc
      simp [hbusy, hc]
    · rw [update_of_ne hij] at hc
      simp [hbusy, hactive hij (hi.trans_eq hlen) hc]
  · rw [hbusy, Bool.or_eq_true, Bool.and_eq_true, Bool.not_eq_true'] at hb
    rcases hb with ha | ⟨hw, hcj⟩
    · exact ⟨j, hj.trans_eq hlen.symm, by rwa [update_self]⟩
    · obtain ⟨i, hi, hc⟩ := hold.active hw
      refine ⟨i, hi.trans_eq hlen.symm, ?_⟩
      rwa [update_of_ne]
      rintro rfl
      simp [hcj] at hc
  · -- A rule other than this one is active only if this one was not, and then it is not now.
    have hother : ∀ {i}, i < w.rules.length → (update σ j a i).isActive = true → i ≠ j →
        a.isActive = false ∧ (σ i).isActive = true := by
      intro i hi hc hij
      rw [update_of_ne hij] at hc
      obtain ⟨hw, hcj⟩ := hactive hij hi hc
      exact ⟨by by_contra ha; simp [hfree (by simpa using ha) hw] at hcj, hc⟩
    replace hi := hi.trans_eq hlen
    replace hk := hk.trans_eq hlen
    by_cases hij : i = j <;> by_cases hkj : k = j
    · rw [hij, hkj]
    · simp [hij, update_self, (hother hk hck hkj).1] at hci
    · simp [hkj, update_self, (hother hi hci hij).1] at hck
    · exact hold.one i k hi hk (hother hi hci hij).2 (hother hk hck hkj).2
  · rw [hleft, hlen, hold.remaining]
    by_cases hclose : (σ j).isOpen = true ∧ a.isOpen = false
    · -- The rules that are left are those that were, without this one.
      have hmem : j ∈ (Finset.range w.rules.length).filter fun i => (σ i).isOpen = true :=
        Finset.mem_filter.2 ⟨Finset.mem_range.2 hj, hclose.1⟩
      rw [if_pos (by simp [hclose]), ← Finset.card_erase_of_mem hmem]
      congr 1
      ext i
      by_cases hij : i = j <;> simp [hij, hclose.2]
    · have hsame : a.isOpen = (σ j).isOpen := by
        cases ha : a.isOpen with
        | true => exact (hopen ha).symm
        | false => simpa [ha] using Ne.symm (fun h => hclose ⟨h, ha⟩)
      simp only [update_eq (p := Stage.isOpen) hsame]
      simp [hsame]

section

variable (hS : Stages h v b t w σ)
include hS

/-- **A rule goes to another stage**, and the target goes on. -/
theorem Stages.move (hA : Ahead b h v h' v')
    (hj : j < w.rules.length ∨ a = .out) (hrules : u.rules = w.rules.modify j f)
    (hf : KeepsError f) (hserial : u.serial = w.serial)
    (herror : w.error = true → u.error = true)
    (hq : ∀ i ≠ j, Untold h h' ⟨b, t, i⟩)
    (hok : ∀ x, w.rules[j]? = some x → a.Ok h' v' ⟨b, t, j⟩ (f x) u.serial u.error)
    (horder : (u.order = w.order ∧ a.isBefore = (σ j).isBefore ∧
      (a.isActive = true → (σ j).isActive = true)) ∨
      w.order = j :: u.order ∧ a.isActive = true)
    (hsingle : w.serial = true → a ≠ .closed ∧
      (∀ i ≤ w.rules.length, (σ i).isCurrent = true → i = j) ∧
      (a.isCurrent = true → a.isBefore = true → u.order.head? = some j))
    (hseveral : w.serial = false → Several u (update σ j a))
    (hwhy : u.error = true → w.error = true ∨ Failed h' b t ∨
      ∃ (i : Nat) (x : RuleWork), u.rules[i]? = some x ∧ x.error = true) :
    Stages h' v' b t u (update σ j a) := by
  have hlen : u.rules.length = w.rules.length := by rw [hrules, length_modify]
  have hone : a.isActive = true → ∀ i < w.rules.length, (σ i).isActive = true → i = j := by
    intro ha i hi hc
    by_contra hij
    cases hs : w.serial with
    | true => exact hij ((hsingle hs).2.1 i hi.le (Stage.isCurrent_of_isActive hc))
    | false =>
      have hjn : j < w.rules.length := hj.resolve_right (by rintro rfl; cases ha)
      refine hij ((hseveral hs).one i j (hi.trans_eq hlen.symm) (hjn.trans_eq hlen.symm) ?_ ?_)
      · rwa [update_of_ne hij]
      · rwa [update_self]
  obtain ⟨hbefore, hlisted, hsorted, hpast⟩ := hS.order_move hA hrules hf hserial horder hone
  refine ⟨hS.rule_move hA hrules hserial herror hq hok, ?_, hbefore, hlisted, hsorted, hpast,
    fun hs => ?_,
    fun hs => hseveral (hserial ▸ hs), hS.blame_move hA.past hrules hf hwhy⟩
  · rw [hlen, hserial]
    rcases eq_or_ne w.rules.length j with hjn | hjn
    · exact .inl (by rw [hjn, update_self]; exact hj.resolve_left (hjn ▸ lt_irrefl _))
    · rw [update_of_ne hjn]
      exact hS.lead
  · obtain ⟨hnot, honly, hhead⟩ := hsingle (hserial ▸ hs)
    exact (hS.single (hserial ▸ hs)).move hlen hnot honly hhead

/-- A rule stays on the same side of its recipe: it goes on with its prerequisites, or with the
lines of its recipe. -/
theorem Stages.move_alike (hA : Ahead b h v h' v')
    (hx : w.rules[j]? = some x) (hbefore : a.isBefore = (σ j).isBefore)
    (hopen : a.isOpen = (σ j).isOpen) (hactive : a.isActive = (σ j).isActive) (hnot : a ≠ .closed)
    (hcurrent : w.serial = true → (∀ i ≤ w.rules.length, (σ i).isCurrent = true → i = j) ∧
      (a.isBefore = true → w.order.head? = some j))
    (hf : KeepsError f)
    (hq : ∀ i ≠ j, Untold h h' ⟨b, t, i⟩)
    (hok : a.Ok h' v' ⟨b, t, j⟩ (f x) w.serial w.error) :
    Stages h' v' b t { w.onRule j f with didAnything := y } (update σ j a) := by
  have hjn := of_getElem?_eq_some hx
  refine hS.move hA (.inl hjn) rfl hf rfl id hq (fun z hz => ?_)
    (.inl ⟨rfl, hbefore, (hactive ▸ ·)⟩)
    (fun hs => ⟨hnot, (hcurrent hs).1, fun _ => (hcurrent hs).2⟩) (fun hs => ?_) .inl
  · cases hx.symm.trans hz
    exact hok
  · refine (hS.several hs).move hjn (length_modify ..) (hopen ▸ id) ?_ (fun ha _ => hactive ▸ ha)
      (by simp [hopen, Work.onRule])
    change w.busy = _
    cases hc : (σ j).isActive with
    | true => simp [hactive, hc, (hS.several hs).busy j hjn hc]
    | false => simp [hactive, hc]

/-- The recipe of a rule is done. -/
theorem Stages.move_out (hj : j ≤ w.rules.length) (hfrom : σ j = .done e)
    (hy : w.serial = false → y = false) (hfailed : e = true → Failed h b t) :
    Stages h v b t { w with error := w.error || e, busy := y } (update σ j .out) := by
  have hmono : w.error = true → (w.error || e) = true := fun h => by rw [h, Bool.true_or]
  refine hS.move (.refl b h v) (.inr rfl) (modify_id ..).symm (fun _ => id) rfl hmono
    (fun _ _ => ⟨rfl, rfl⟩) (fun x hx => ?_) (.inl ⟨rfl, by rw [hfrom]; rfl, nofun⟩) (fun hs => ?_)
      (fun hs => ?_)
    fun herr => (Bool.or_eq_true_iff.1 herr).imp_right fun he' => .inl (hfailed he')
  · have hok := Ahead.ok (.refl b h v) ⟨rfl, rfl⟩ hmono (hS.rule j x hx)
    rw [hfrom] at hok
    rcases hok with ⟨⟨⟨_, hruns⟩, hover⟩, hxe, hc, hconcluded⟩ | ⟨⟨_, _, hruns⟩, hb, _,
      hxe, herr, hc⟩
    · exact ⟨.inl ⟨hruns, hover⟩, fun h => by simp [hxe] at h, fun h =>
        by simp [hxe] at h, fun _ => hc,
        fun h => hconcluded (Bool.or_eq_false_iff.1 h).2⟩
    · refine ⟨.inr ⟨hruns, hxe⟩, hb, fun _ => herr, fun ho => hc ?_, fun h => ?_⟩
      · exact ho.resolve_left (by simp [hxe])
      · simp [herr] at h
  · exact ⟨Stage.noConfusion, fun i hi hc => (hS.single hs).one i j hi hj hc (by rw [hfrom]; rfl),
      nofun⟩
  · have hjn : j < w.rules.length := by
      refine lt_of_le_of_ne hj ?_
      rintro rfl
      simp [(hS.several hs).lead] at hfrom
    refine (hS.several hs).move hjn rfl nofun ?_ nofun (by rw [hfrom]; rfl)
    rw [hfrom]
    exact (hy hs).trans (Bool.and_false _).symm

/-- The prerequisites of a rule are done, and other rules go on. -/
theorem Stages.move_closed (hj : j < w.rules.length) (hfrom : σ j = .ready e)
    (hs : w.serial = false) : Stages h v b t
      { w with didAnything := y, error := w.error || e, remaining := w.remaining - 1 }
      (update σ j .closed) := by
  have hmono : w.error = true → (w.error || e) = true := fun h => by rw [h, Bool.true_or]
  obtain ⟨x, hx⟩ : ∃ x, w.rules[j]? = some x := ⟨_, getElem?_eq_getElem hj⟩
  have hready := hS.rule j x hx
  rw [hfrom] at hready
  refine hS.move (.refl b h v) (.inl hj) (modify_id ..).symm (fun _ => id) rfl hmono
    (fun _ _ => ⟨rfl, rfl⟩) (fun x hx => ?_) (.inl ⟨rfl, by rw [hfrom]; rfl, nofun⟩)
    (fun hs' => absurd (hs.symm.trans hs') Bool.false_ne_true) (fun _ => ?_)
    fun herr => (Bool.or_eq_true_iff.1 herr).imp_right fun he' =>
    .inr ⟨j, x, hx, hready.2.2.1.symm.trans he'⟩
  · have hok := Ahead.ok (.refl b h v) ⟨rfl, rfl⟩ hmono (hS.rule j x hx)
    rw [hfrom] at hok
    obtain ⟨hu, hb, hee, hc, hleft⟩ := hok
    refine ⟨hu, hb, fun hxe => ?_, hc, fun hxe => hleft hxe hs⟩
    exact Bool.or_eq_true_iff.2 (.inr (hee.trans hxe))
  · refine (hS.several hs).move hj rfl nofun ?_ nofun (by rw [hfrom]; rfl)
    rw [hfrom]
    exact (Bool.and_true _).symm

/-- The prerequisites of the only rule under way are done, and its recipe is taken up or left
out. -/
theorem Stages.move_taken (hx : w.rules[j]? = some x) (hfrom : σ j = .ready e)
    (hs : w.serial = true) (hto : a.isActive = true) (herr : err = (w.error || e))
    (hok : a.Ok h v ⟨b, t, j⟩ x w.serial err) :
    Stages h v b t { w with didAnything := y, error := err, order := w.order.drop 1 }
      (update σ j a) := by
  have hjn := of_getElem?_eq_some hx
  have hold := hS.single hs
  have hcurrentj : (σ j).isCurrent = true := by rw [hfrom]; rfl
  have hbefore : a.isBefore = false := Stage.isBefore_of_isActive hto
  have horder : w.order = j :: w.order.drop 1 := by
    have hhead := hold.head j hjn.le hcurrentj (by rw [hfrom]; rfl)
    cases ho : w.order with
    | nil => simp [ho] at hhead
    | cons i rest => rw [ho] at hhead; rw [Option.some.inj hhead]; rfl
  have hready := hS.rule j x hx
  rw [hfrom] at hready
  refine hS.move (.refl b h v) (.inl hjn) (modify_id ..).symm (fun _ => id) rfl
    (fun h => by rw [herr, h, Bool.true_or]) (fun _ _ => ⟨rfl, rfl⟩) (fun z hz => ?_)
    (.inr ⟨horder, hto⟩) (fun _ => ⟨?_, ?_, ?_⟩)
    (fun hs' => absurd (hs.symm.trans hs').symm Bool.false_ne_true) fun herr' => ?_
  · cases hx.symm.trans hz
    exact hok
  · rintro rfl
    cases hto
  · exact fun i hi hc => hold.one i j hi hjn.le hc hcurrentj
  · intro _ hb
    simp [hbefore] at hb
  · exact (Bool.or_eq_true_iff.1 (herr.symm.trans herr')).imp_right fun he' =>
      .inr ⟨j, x, hx, hready.2.2.1.symm.trans he'⟩

/-- Rules with errors are left out, or all rules are since a recipe has failed. -/
theorem Stages.move_order {stop : Bool} (hs : w.serial = false)
    (hstop : stop = true → v.failed b = true ∧ v.keep b = false) :
    Stages h v b t { w with order := w.leftOrder stop } σ := by
  have hsub : (w.leftOrder stop).Sublist w.order := by
    unfold Work.leftOrder
    split
    · exact nil_sublist _
    · exact dropWhile_sublist _
  refine ⟨hS.rule, hS.lead, fun i x hx hb => ?_, fun i hi => hS.listed i (hsub.subset hi),
    hS.sorted.sublist hsub, fun i hi hb k hk => hS.past i hi hb k (hk.imp_left (hsub.subset ·)),
    fun hs' => absurd (hs.symm.trans hs') Bool.false_ne_true,
    fun hs => let hold := hS.several hs; ⟨hold.lead, hold.busy, hold.active, hold.one,
      hold.remaining⟩,
    hS.blame⟩
  rcases hS.order i x hx hb with ho | hout
  · cases stop with
    | true => exact .inr ⟨hs, .inr (hstop rfl)⟩
    | false =>
      rw [← takeWhile_append_dropWhile (l := w.order)] at ho
      rcases mem_append.1 ho with hleft | hkept
      · have hbroken : w.isBroken i = true := mem_takeWhile_imp hleft
        rw [Work.isBroken, hx] at hbroken
        exact .inr ⟨hs, .inl hbroken⟩
      · exact .inl hkept
  · exact .inr hout

/-- The recipe of the next rule is taken up. -/
theorem Stages.move_recipe {rest : List Nat} (hs : w.serial = false)
    (hbusy : w.busy = false) (horder : w.order = j :: rest) (hx : w.rules[j]? = some x)
    (hfrom : σ j = .closed) (hxe : x.error = false) :
    Stages h v b t { w with order := rest, busy := true } (update σ j .recipe) := by
  have hjn := of_getElem?_eq_some hx
  refine hS.move (.refl b h v) (.inl hjn) (modify_id ..).symm (fun _ => id) rfl id
    (fun _ _ => ⟨rfl, rfl⟩) (fun z hz => ?_)
    (.inr ⟨horder, rfl⟩) (fun hs' => absurd (hs.symm.trans hs') Bool.false_ne_true)
      (fun _ => ?_) .inl
  · cases hx.symm.trans hz
    have hclosed := hS.rule j x hx
    rw [hfrom] at hclosed
    obtain ⟨hu, _, _, hc, _⟩ := hclosed
    exact ⟨hu, hxe, hc (.inl hxe)⟩
  · refine (hS.several hs).move hjn rfl nofun rfl (fun _ hb => ?_) (by rw [hfrom]; rfl)
    simp [hbusy] at hb

end

/-- No rule has had its recipe taken up twice, and none has an error without a reason. -/
theorem Stage.Ok.known {serial : Bool} (hok : a.Ok h v r x serial err) :
    (recipeRuns h r = 1 ∨ recipeRuns h r = 0) ∧ Blamed h v r x := by
  have hfalse : x.error = false → Blamed h v r x := by
    intro hf he
    simp [hf] at he
  cases a with
  | fresh | recipe => exact ⟨.inr hok.1.2.2, hfalse hok.2.1⟩
  | gather | ready | closed => exact ⟨.inr hok.1.2.2, hok.2.1⟩
  | next | command => exact ⟨.inl hok.1.2, hfalse hok.2.1⟩
  | done e =>
    rcases hok with ⟨ht, hxe, _⟩ | ⟨hu, hb, _⟩
    · exact ⟨.inl ht.1.2, hfalse hxe⟩
    · exact ⟨.inr hu.2.2, hb⟩
  | out => exact ⟨hok.1.imp And.left And.left, hok.2.1⟩

/-- A target is over when no rule is left, or when it has an error that is not survived. -/
theorem Stages.ended (hS : Stages h v b t w σ)
    (hquiet : w.error = true ∧ v.keep b = false ∨
      ∀ i < w.rules.length, σ i = .out ∨ σ i = .closed ∧ i ∉ w.order) : Ended h v b t w := by
  refine ⟨fun i x hx => ?_, fun i x hx => (hS.rule i x hx).known.2,
    fun i x hx hxe => ?_, fun ho i x hx => ?_, fun ho i x hx => ?_, hS.blame⟩
  all_goals
    have hok := hS.rule i x hx
    have hi := of_getElem?_eq_some hx
    rcases hquiet with ⟨hwe, hk⟩ | hquiet
  · exact hok.known.1.imp_right fun hz => ⟨hz, .inr ⟨hk, .inl hwe⟩⟩
  · rcases hquiet i hi with hout | ⟨hclosed, horder⟩
    · rw [hout] at hok
      exact hok.1.imp And.left fun ⟨hz, hxe⟩ => ⟨hz, .inl hxe⟩
    · rw [hclosed] at hok
      refine .inr ⟨hok.1.2.2, ?_⟩
      exact ((hS.order i x hx (by rw [hclosed]; rfl)).resolve_left horder).2.imp_right
        fun ⟨hf, hk⟩ => ⟨hk, .inr hf⟩
  · exact hwe
  · rcases hquiet i hi with hout | ⟨hclosed, horder⟩
    · rw [hout] at hok
      exact hok.2.2.1 hxe
    · rw [hclosed] at hok
      exact hok.2.2.1 hxe
  · rw [hwe, hk] at ho
    rcases ho with ho | ho <;> cases ho
  · have herror : (x.error = true → w.error = true) → x.error = false ∨ v.keep b = true := by
      intro himp
      rcases ho with ho | ho
      · exact .inl (by simpa [ho] using himp)
      · exact .inr ho
    rcases hquiet i hi with hout | ⟨hclosed, horder⟩
    · rw [hout] at hok
      exact hok.2.2.2.1 (herror hok.2.2.1)
    · rw [hclosed] at hok
      exact hok.2.2.2.1 (herror hok.2.2.1)
  · simp [hwe] at ho
  · rcases hquiet i hi with hout | ⟨hclosed, horder⟩
    · rw [hout] at hok
      exact .inl (hok.2.2.2.2 ho)
    · rw [hclosed] at hok
      rcases hS.order i x hx (by rw [hclosed]; rfl) with hin | ⟨hs, hxe | hstop⟩
      · exact absurd hin horder
      · simp [hok.2.2.1 hxe] at ho
      · exact .inr ⟨hs, hstop⟩

end Move

end

end Rebuild
