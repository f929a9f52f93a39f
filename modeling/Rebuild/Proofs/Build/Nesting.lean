import Rebuild.Proofs.Build.Settle
/-!
# Makes within makes

A make that a line of a recipe starts has builds of its own, which come after the build of that
recipe (`Run.Ranked`). Whoever asks for a target of a build is a rule of the same build or the make
to which the build belongs (`Run.Seats`). So the waiting of targets for each other goes from a build
to the same build or to a later one.
-/

namespace Rebuild

open List RunM

variable {a : Action} {frames : List Frame}

/-- The latest build of a make belongs to it. -/
def Run.Rooted (s : Run) (m : Nat) : Prop :=
  ∃ x, s.view.make m = some x ∧ s.view.boss x.build = some m

/-- Makes are there before their builds, and a make that answers to a recipe comes after the build
of that recipe; `e` is another one to whom someone may answer. -/
structure Run.Ranked (e : ExitTo) (s : Run) : Prop where
  make : ∀ b m, s.view.boss b = some m → (s.view.make m).isSome
  below : ∀ b m x r line, s.view.boss b = some m → s.view.make m = some x →
    x.receiver = .recipe r line → r.build < b
  there : ∀ m x r line, s.view.make m = some x → x.receiver = .recipe r line →
    (s.view.boss r.build).isSome
  guest : ∀ r line, e = .recipe r line → (s.view.boss r.build).isSome

/-- Builds and makes stay whose they are, and keep their ranks. -/
structure Run.Enlarges (e : ExitTo) (s s' : Run) : Prop where
  boss : ∀ b m, s.view.boss b = some m → s'.view.boss b = some m
  rooted : ∀ m, s.Rooted m → s'.Rooted m
  ranked : s.Ranked e → s'.Ranked e

variable {e : ExitTo} {s s' : Run} {m : Nat} {α : Type} {b : Nat} (schedule : Schedule)

namespace Run.Enlarges

/-- Nothing happens to makes but that they have other goals. -/
theorem of_same (hboss : s'.view.boss = s.view.boss)
    (hmake : ∀ m, (s'.view.make m).map (fun x => (x.receiver, x.build)) =
      (s.view.make m).map fun x => (x.receiver, x.build)) : s.Enlarges e s' := by
  have hback : ∀ {m : Nat} {x' : Make}, s'.view.make m = some x' →
      ∃ x, s.view.make m = some x ∧ x.receiver = x'.receiver ∧ x.build = x'.build := by
    intro m x' hx'
    have h := hmake m
    rw [hx'] at h
    obtain ⟨x, hx, he⟩ := Option.map_eq_some_iff.1 h.symm
    exact ⟨x, hx, (Prod.mk.inj he).1, (Prod.mk.inj he).2⟩
  have hforth : ∀ {m : Nat} {x : Make}, s.view.make m = some x →
      ∃ x', s'.view.make m = some x' ∧ x'.build = x.build := by
    intro m x hx
    have h := hmake m
    rw [hx] at h
    obtain ⟨x', hx', he⟩ := Option.map_eq_some_iff.1 h
    exact ⟨x', hx', (Prod.mk.inj he).2⟩
  refine ⟨fun b m hb => by rw [hboss]; exact hb, fun m hm => ?_,
    fun hr => ⟨fun b m hb => ?_,
      fun b m x' r line hb hx' hrec => ?_, fun m x' r line hx' hrec => ?_,
      fun r line he => by rw [hboss]; exact hr.guest r line he⟩⟩
  · obtain ⟨x, hx, hb⟩ := hm
    obtain ⟨x', hx', hbuild⟩ := hforth hx
    exact ⟨x', hx', by rw [hboss, hbuild]; exact hb⟩
  · rw [hboss] at hb
    obtain ⟨x, hx⟩ := Option.isSome_iff_exists.1 (hr.make b m hb)
    obtain ⟨x', hx', -⟩ := hforth hx
    exact Option.isSome_iff_exists.2 ⟨x', hx'⟩
  · rw [hboss] at hb
    obtain ⟨x, hx, hsame, -⟩ := hback hx'
    exact hr.below b m x r line hb hx (hsame.trans hrec)
  · obtain ⟨x, hx, hsame, -⟩ := hback hx'
    rw [hboss]
    exact hr.there m x r line hx (hsame.trans hrec)

end Run.Enlarges

theorem boss_modify (s : Run) (b : Nat) {f : Build → Build} (hf : ∀ x, (f x).make = x.make) :
    ({ s with builds := s.builds.modify b f } : Run).view.boss = s.view.boss :=
  funext fun _ => map_modify _ _ _ _ _ hf

instance (e : ExitTo) : LoopFrame (Run.Enlarges e) where
  refl _ := .of_same rfl fun _ => rfl
  trans _ _ _ h₁ h₂ :=
    ⟨fun b m h => h₂.boss b m (h₁.boss b m h), fun m h => h₂.rooted m (h₁.rooted m h),
    fun h => h₂.ranked (h₁.ranked h)⟩
  world _ _ _ := .of_same rfl fun _ => rfl
  builds s b _ hf := .of_same (boss_modify s b fun x => (hf x).2.2) fun _ => rfl
  work s b _ _ _ := .of_same (boss_modify s b fun _ => rfl) fun _ => rfl
  makes s m _ hf := .of_same rfl fun m' => map_modify _ _ _ _ _ fun x =>
    Prod.ext (by rw [(hf x).1]) (hf x).2
  loop _ _ := .of_same rfl fun _ => rfl
  stack _ _ _ := .of_same rfl fun _ => rfl
  outcome _ _ := .of_same rfl fun _ => rfl

namespace RunM

theorem enlarges_onMakefile (b : Nat) (x : MakeM α) : Keeps (Run.Enlarges e) (onMakefile b x) :=
  keeps_onMakefile_of b fun _ => .of_same (boss_modify _ b fun _ => rfl) fun _ => rfl

/-- A build that is added comes after all others. -/
theorem enlarges_append (s : Run) {y : Build} (hm : (s.view.make y.make).isSome) :
    s.Enlarges e { s with builds := s.builds ++ [y] } ∧
      ({ s with builds := s.builds ++ [y] } : Run).view.boss s.builds.length = some y.make := by
  have hlt : ∀ {b : Nat}, (s.view.boss b).isSome → b < s.builds.length := by
    intro b hb
    obtain ⟨m', hm'⟩ := Option.isSome_iff_exists.1 hb
    obtain ⟨y, hy, -⟩ := Option.map_eq_some_iff.1 (show (s.builds[b]?).map _ = _ from hm')
    exact (List.getElem?_eq_some_iff.1 hy).1
  generalize hs' : ({ s with builds := s.builds ++ [y] } : Run) = s'
  have hmake : s'.view.make = s.view.make := by rw [← hs']; rfl
  have hold : ∀ b < s.builds.length, s'.view.boss b = s.view.boss b := by
    intro b hb
    rw [← hs']
    simp [Run.view, getElem?_append_left hb]
  have hlast : s'.view.boss s.builds.length = some y.make := by
    rw [← hs']
    simp [Run.view]
  have hnew : ∀ b m', s'.view.boss b = some m' →
      b = s.builds.length ∧ m' = y.make ∨ s.view.boss b = some m' := by
    intro b m' hb
    rcases Nat.lt_trichotomy b s.builds.length with hlt | rfl | hgt
    · exact .inr (by rw [← hold b hlt]; exact hb)
    · exact .inl ⟨rfl, Option.some.inj (hb.symm.trans hlast)⟩
    · have hnone : (s.builds ++ [y])[b]? = none :=
        getElem?_eq_none (by rw [length_append]; exact hgt)
      rw [← hs'] at hb
      simp [Run.view, hnone] at hb
  have hboss : ∀ b m', s.view.boss b = some m' → s'.view.boss b = some m' := by
    intro b m' hb
    rw [hold b (hlt (Option.isSome_iff_exists.2 ⟨m', hb⟩))]
    exact hb
  have hsome : ∀ b, (s.view.boss b).isSome → (s'.view.boss b).isSome := by
    intro b hb
    rw [hold b (hlt hb)]
    exact hb
  refine ⟨⟨hboss, fun m' hm' => ?_, fun hr =>
    ⟨fun b m' hb => ?_, fun b m' x r line hb hx hrec => ?_, fun m' x r line hx hrec => ?_,
      fun r line he => hsome _ (hr.guest r line he)⟩⟩, hlast⟩
  · obtain ⟨x, hx, hb⟩ := hm'
    exact ⟨x, by rw [hmake]; exact hx, hboss _ _ hb⟩
  · rw [hmake]
    rcases hnew b m' hb with ⟨-, rfl⟩ | hb
    · exact hm
    · exact hr.make b m' hb
  · rw [hmake] at hx
    rcases hnew b m' hb with ⟨rfl, rfl⟩ | hb
    · exact hlt (hr.there _ x r line hx hrec)
    · exact hr.below b m' x r line hb hx hrec
  · rw [hmake] at hx
    exact hsome _ (hr.there m' x r line hx hrec)

/-- A make gets a build that belongs to it. -/
theorem enlarges_setBuild {c : Nat} (hc : s.view.boss c = some m) (f : Make → Make)
    (hf : ∀ x, (f x).receiver = x.receiver ∧ (f x).build = c) :
    s.Enlarges e { s with makes := s.makes.modify m f } := by
  have hmake : ∀ m', ({ s with makes := s.makes.modify m f } : Run).view.make m' =
      if m = m' then (s.view.make m').map f else s.view.make m' := by
    intro m'
    simp only [Run.view, getElem?_modify]
    split
    · rfl
    · simp
  have hback : ∀ {m' : Nat} {x' : Make},
      ({ s with makes := s.makes.modify m f } : Run).view.make m' = some x' →
      ∃ x, s.view.make m' = some x ∧ x.receiver = x'.receiver := by
    intro m' x' hx'
    rw [hmake] at hx'
    split at hx'
    · obtain ⟨x, hx, rfl⟩ := Option.map_eq_some_iff.1 hx'
      exact ⟨x, hx, (hf x).1.symm⟩
    · exact ⟨x', hx', rfl⟩
  refine ⟨fun _ _ => id, fun m' hm' => ?_, fun hr => ⟨fun b m' hb => ?_,
    fun b m' x' r line hb hx' hrec => ?_, fun m' x' r line hx' hrec => ?_, hr.guest⟩⟩
  · obtain ⟨x, hx, hb⟩ := hm'
    by_cases hmm : m = m'
    · subst hmm
      refine ⟨f x, by rw [hmake, if_pos rfl, hx]; rfl, ?_⟩
      rw [(hf x).2]
      exact hc
    · exact ⟨x, by rw [hmake, if_neg hmm]; exact hx, hb⟩
  · have hold := hr.make b m' hb
    rw [hmake]
    split
    · rw [Option.isSome_map]
      exact hold
    · exact hold
  · obtain ⟨x, hx, hsame⟩ := hback hx'
    exact hr.below b m' x r line hb hx (hsame.trans hrec)
  · obtain ⟨x, hx, hsame⟩ := hback hx'
    exact hr.there m' x r line hx (hsame.trans hrec)

/-- A new build becomes the latest of its make. -/
theorem enlarges_newBuild (m : Nat) : Keeps (Run.Enlarges e) (newBuild m) := by
  intro s
  refine keeps_bind_gives (keeps_make m s) fun x _ hx => ?_
  obtain ⟨hm, rfl⟩ := gives_make.1 hx
  refine keeps_bind_get ?_
  extract_lets config c fresh
  obtain ⟨hgrows, hlast⟩ := enlarges_append s (y := fresh)
    (Option.isSome_iff_exists.2 ⟨x, hm⟩)
  refine keeps_bind_gives hgrows fun _ s1 h1 => ?_
  have hc1 : s1.view.boss c = some m := by
    rw [← gives_set.1 h1]
    exact hlast
  refine keeps_bind_gives (enlarges_onMakefile c _ s1) fun _ s2 h2 => ?_
  have hc2 : s2.view.boss c = some m :=
    ((enlarges_onMakefile (e := e) c _).of_gives h2).boss c m hc1
  exact enlarges_setBuild hc2 _ fun _ => ⟨rfl, rfl⟩

theorem enlarges_newMake {x : Make} (hx : x.receiver = e) (s : Run) :
    s.Enlarges e { s with makes := s.makes ++ [x] } := by
  generalize hs' : ({ s with makes := s.makes ++ [x] } : Run) = s'
  have hboss : s'.view.boss = s.view.boss := by rw [← hs']; rfl
  have hold : ∀ {m y}, s.view.make m = some y → s'.view.make m = some y := by
    intro m y hy
    rw [← hs']
    have hlt := (List.getElem?_eq_some_iff.1 (show s.makes[m]? = some y from hy)).1
    exact (getElem?_append_left hlt).trans hy
  have hnew : ∀ {m y}, s'.view.make m = some y → y = x ∧ s.view.make m = none ∨
      s.view.make m = some y := by
    intro m y hy
    rw [← hs'] at hy
    have hy : (s.makes ++ [x])[m]? = some y := hy
    rw [getElem?_append] at hy
    split at hy
    · exact .inr hy
    · rename_i hge
      refine .inl ⟨?_, getElem?_eq_none (Nat.not_lt.1 hge)⟩
      rw [getElem?_singleton] at hy
      split at hy
      · exact (Option.some.inj hy).symm
      · cases hy
  refine ⟨fun b m hb => by rw [hboss]; exact hb, fun m hm => ?_,
    fun hr => ⟨fun b m hb => ?_, fun b m y r line hb hy hrec => ?_, fun m y r line hy hrec => ?_,
      fun r line he => by rw [hboss]; exact hr.guest r line he⟩⟩
  · obtain ⟨y, hy, hb⟩ := hm
    exact ⟨y, hold hy, by rw [hboss]; exact hb⟩
  · rw [hboss] at hb
    obtain ⟨y, hy⟩ := Option.isSome_iff_exists.1 (hr.make b m hb)
    exact Option.isSome_iff_exists.2 ⟨y, hold hy⟩
  · rw [hboss] at hb
    rcases hnew hy with ⟨-, hnone⟩ | hy
    · have := hr.make b m hb
      simp [hnone] at this
    · exact hr.below b m y r line hb hy hrec
  · rw [hboss]
    rcases hnew hy with ⟨rfl, -⟩ | hy
    · exact hr.guest r line (hx.symm.trans hrec)
    · exact hr.there m y r line hy hrec

end RunM

/-- To whom the make answers that an action starts. -/
def Action.receiver : Action → ExitTo
  | .start _ _ _ e => e
  | _ => .outside

namespace Run

theorem enlarges_perform (a : Action) : Keeps (Enlarges a.receiver) (perform a) := by
  refine frame_perform_blind enlarges_onMakefile
    (fun b _ s _ _ => .of_same (boss_modify s b fun _ => rfl) fun _ => rfl) enlarges_newBuild
    fun args env cwd e ha x hx s => ?_
  rw [ha]
  exact enlarges_newMake hx.receiver s

/-- **Every step keeps makes in their ranks.** -/
theorem step_enlarges (s : Run) :
    s.Enlarges ((s.doing.map Action.receiver).getD .outside) (s.step schedule) := by
  refine frame_step schedule s (fun a ha => ?_) (frame_turn schedule s fun _ _ =>
    .of_same rfl fun _ => rfl)
  rw [ha]
  exact enlarges_perform a s

end Run

/-! ## Seats -/

/-- The view of a run that has nothing. -/
def View.empty : View :=
  ⟨[], 0, fun _ _ => none, fun _ => false, fun _ => false, fun _ => none, fun _ => none, [],
    fun _ => none⟩

namespace Run

/-- Who asks for a target of a build belongs there: a rule of it, or the make of the build. -/
def Seats (s : Run) (b : Nat) : Reply → Prop
  | .dependent _ _ => True
  | .makefiles b' => b' = b ∧ ∃ m, s.view.boss b = some m ∧ s.Rooted m
  | .goals m => s.view.boss b = some m ∧ s.Rooted m

/-- What is to be done is for one who belongs there. -/
def Seated (s : Run) : Action → Prop
  | .make b _ _ ρ _ _ | .reply b _ ρ _ _ => s.Seats b ρ
  | .proceed m false _ => s.Rooted m
  | _ => True

theorem Enlarges.seats (he : s.Enlarges e s') {ρ : Reply} (h : s.Seats b ρ) : s'.Seats b ρ := by
  cases ρ with
  | dependent => trivial
  | makefiles b' =>
    obtain ⟨rfl, m, hb, hm⟩ := h
    exact ⟨rfl, m, he.boss _ m hb, he.rooted m hm⟩
  | goals m => exact ⟨he.boss b m h.1, he.rooted m h.2⟩

theorem Enlarges.seated (he : s.Enlarges e s') (h : s.Seated a) : s'.Seated a := by
  cases a with
  | make | reply => exact he.seats h
  | proceed m remade error =>
    cases remade with
    | false => exact he.rooted m h
    | true => trivial
  | _ => trivial

theorem seated_of_isPlain (h : a.isPlain = true) : s.Seated a := by
  cases a with
  | make | reply | proceed => cases h
  | _ => trivial

/-- What relies on nothing is for a rule. -/
theorem seated_of_admits (h : ∀ v : View, v.Admits a) : s.Seated a := by
  have hempty := h .empty
  cases a with
  | make b t stack ρ =>
    cases ρ with
    | dependent => trivial
    | makefiles | goals => exact Bool.noConfusion hempty.1
  | reply =>
    obtain ⟨-, -, w, hw, -⟩ := hempty
    cases hw
  | proceed => exact Bool.noConfusion hempty
  | _ => trivial

end Run

namespace RunM

variable {as : List Action}

theorem AsksGoal.seats (h : AsksGoal s m as) (hm : s.Rooted m) (he : s.Enlarges e s') :
    ∀ a ∈ as, s'.Seated a := by
  obtain rfl | ⟨x, t, stack, hx, rfl⟩ := h
  · exact fun a ha => absurd ha not_mem_nil
  intro a ha
  cases mem_singleton.1 ha
  obtain ⟨x', hx', hb⟩ := hm
  cases hx'.symm.trans hx
  exact ⟨he.boss _ m hb, he.rooted m ⟨x, hx, hb⟩⟩

theorem proceed_seats {remade : Bool} {error : Option Error} (hm : remade = false → s.Rooted m)
    (he : s.Enlarges e s') (h : Gives (proceed m remade error) s frames s') :
    ∀ a ∈ actions frames, s'.Seated a := by
  unfold proceed at h
  split at h
  · obtain ⟨_, s1, -, h⟩ := h.of_bind
    obtain ⟨_, -, rfl⟩ := h.of_pure
    exact fun a ha => absurd ha not_mem_nil
  · split at h
    · obtain ⟨x, s1, -, h⟩ := h.of_bind
      obtain ⟨s2, -, h⟩ := h.of_when (keeps_grown (keeps_onWorld _))
      obtain ⟨_, -, rfl⟩ := h.of_pure
      intro a ha
      cases mem_singleton.1 ha
      trivial
    · obtain ⟨as, h1, rfl⟩ := h.of_pure
      rw [actions_map]
      exact (beginGoals_asks h1).seats (hm (Bool.eq_false_iff.2 ‹_›)) he

/-- The makefiles of a build are asked for by its make, which then goes on. -/
theorem remakeNext_seats {s0 : Run} {error : Bool} (hb0 : s0.view.boss b = some m)
    (hb : s'.view.boss b = some m) (hm : s'.Rooted m) (h : Gives (remakeNext b error) s0 as s') :
    ∀ a ∈ as, s'.Seated a := by
  obtain ⟨m', hm', has⟩ := remakeNext_gives h
  cases hb0.symm.trans hm'
  intro a ha
  rcases has with ⟨t, rfl⟩ | ⟨remade, error, rfl⟩
  · cases mem_singleton.1 ha
    exact ⟨rfl, m, hb, hm⟩
  · cases mem_singleton.1 ha
    cases remade with
    | false => exact hm
    | true => trivial

end RunM

namespace Run

theorem perform_seats (hadm : s.view.Admits a) (hseat : s.Seated a)
    (hown : ∀ τ, a.post ≠ .own τ) (h : Gives (perform a) s frames s')
    (hask : ∀ b t stack ρ avoidLoop report, a ≠ .make b t stack ρ avoidLoop report) :
    ∀ a' ∈ actions frames, s'.Seated a' := by
  have he := (enlarges_perform a).of_gives h
  cases a with
  | make b t stack ρ avoidLoop report => cases hask b t stack ρ avoidLoop report rfl
  | reply b t ρ error did =>
    obtain ⟨as, h1, rfl⟩ := h.of_pure
    rw [actions_map]
    cases ρ with
    | dependent => cases hown _ rfl
    | makefiles b' =>
      obtain ⟨rfl, m, hb, hm⟩ := hseat
      exact remakeNext_seats hb (he.boss _ m hb) (he.rooted m hm) h1
    | goals m =>
      unfold RunM.tell at h1
      dsimp only at h1
      split at h1
      · obtain ⟨_, -, rfl⟩ := h1.of_pure
        exact fun a ha => absurd ha not_mem_nil
      · exact (nextGoal_asks h1).seats hseat.2 he
  | proceed m remade error =>
    exact proceed_seats (by rintro rfl; exact hseat) he h
  | parse m =>
    obtain ⟨as, h1, rfl⟩ := h.of_pure
    rw [actions_map]
    obtain ⟨x, hx, hb, -⟩ := hadm
    obtain ⟨x', s2, hx', hg, h2, -⟩ := parseMakefiles_remakes h1
    cases hx.symm.trans hx'
    exact remakeNext_seats (hg.boss _ m hb) (he.boss _ m hb) (he.rooted m ⟨x, hx, hb⟩) h2
  | _ => cases hown _ rfl

end Run

end Rebuild
