import Rebuild.Proofs.Build.Operations
/-!
# One recipe line

A line of a recipe that is started becomes a job, a make or nothing at all (`RecipeLine.Started`),
each of which answers to the rule with an exit code; nothing else of the run changes but the world
and the queue. A line that is not started cannot be turned into anything (`RecipeLine.Unfit`), or
finds no room in the queue.
-/

namespace Rebuild

open CommandLine

/-- A recipe line cannot be turned into a job in a directory, for a reason. -/
inductive RecipeLine.Unfit (w : World) (cwd : Text) (line : RecipeLine) : Error → Prop
  /-- A quote is not closed. A line that starts with a slash may go to a shell unread. -/
  | openQuote (unclosed : words line.line = .error .openQuote)
      (read : line.native = none → ∃ shell slash, shellOf w.environ = .ok (shell, slash) ∧
        (slash && line.line.head? == some '/') = false) : Unfit w cwd line .openQuote
  /-- A native command needs a shell. -/
  | special {c : Char} (native : line.native ≠ none)
      (shell : split w.files w.cwd line.line cwd = .ok (.shell c)) :
      Unfit w cwd line (.refused (.nativeSpecial line.line [c]) line.loc)
  /-- A native command has no method. -/
  | noMethod {words : List Text} (native : line.native ≠ none)
      (argv : split w.files w.cwd line.line cwd = .ok (.argv words)) (few : words.length < 2) :
      Unfit w cwd line (.refused (.nativeMethod line.line) line.loc)
  /-- No shell is known. -/
  | noShell (process : line.native = none)
      (unknown : shellOf w.environ = .error (.breach .undefinedName)) :
      Unfit w cwd line (.breach .undefinedName)

/-- What a recipe line that is started leads to, at once or from a queue. All of it answers to the
rule. -/
inductive RecipeLine.Started (w : World) (mk : Makefile) (r : RuleAt) (line : RecipeLine) :
    List Action → List (Pending Action ExitTo) → Prop
  | native {path : Option (List Text)} {library name : Text} {args : List Text}
      (native : line.native = some path)
      (argv : split w.files w.cwd line.line mk.workdir = .ok (.argv (library :: name :: args))) :
      Started w mk r line [] [.launch (.native library name args line.env mk.workdir (path.getD []))
        (.recipe r line) line.echo mk.habits.justPrint]
  | process {launch : CommandLine.Launch} {w' : World} (process : line.native = none)
      (prepared : Gives (prepare line.line mk.workdir line.loc) w launch w')
      (some : launch.argv ≠ [])
      (other : ∀ args, launch.argv ≠ RunM.program :: args ∧ launch.argv ≠ RunM.interpreter ::
        RunM.program :: args) :
      Started w mk r line []
        [.launch (.process launch line.env mk.workdir) (.recipe r line) line.echo
        mk.habits.justPrint]
  | nothing {launch : CommandLine.Launch} {w' : World} (process : line.native = none)
      (prepared : Gives (prepare line.line mk.workdir line.loc) w launch w')
      (empty : launch.argv = []) :
      Started w mk r line [.exit (.recipe r line) 0] []
  | make {launch : CommandLine.Launch} {w' : World} {args : List Text}
      (process : line.native = none)
      (prepared : Gives (prepare line.line mk.workdir line.loc) w launch w')
      (calls : launch.argv = RunM.program :: args ∨ launch.argv = RunM.interpreter ::
        RunM.program :: args) :
      Started w mk r line [.start args line.env mk.workdir (.recipe r line)] []

namespace CommandLine

variable {w w' : World} {line cwd : Text} {loc : Option Location} {e : Error}

theorem split_eq_error_iff {fs : Files} {here : Text} :
    split fs here line cwd = .error e ↔ e = .openQuote ∧ words line = .error .openQuote := by
  unfold split
  cases h : words line with
  | ok ws =>
    dsimp only
    split <;> simp
  | error halt => cases halt <;> simp [eq_comm]

theorem shellOf_eq_error {env : Env} (h : shellOf env = .error e) : e = .breach .undefinedName := by
  unfold shellOf at h
  generalize env.get? "SHELL" = shell, env.get? "MOZILLABUILD" = build,
    env.get? "COMSPEC" = comspec at h
  rcases shell with _ | shell
  · rcases build with _ | build
    · rcases comspec with _ | comspec
      · cases h
        rfl
      · split at h <;> cases h
    · split at h <;> cases h
  · split at h <;> cases h

theorem direct_eq_error_iff {slash : Bool} : direct w line cwd slash = .error e ↔
    (slash && line.head? == some '/') = false ∧ split w.files w.cwd line cwd = .error e := by
  unfold direct
  split
  · rename_i h
    simp [h]
  · rename_i h
    have hread : (slash && line.head? == some '/') = false := by simpa using h
    cases hsplit : split w.files w.cwd line cwd with
    | error e' => simp [hread, bind, Except.bind]
    | ok found =>
      rcases found with ⟨_ | ⟨first, args⟩⟩ | c <;> simp [bind, Except.bind, pure, Except.pure]

/-- Nothing is done about a line that cannot be prepared. -/
theorem prepare_fails_iff :
    Fails (prepare line cwd loc) w e w' ↔ w = w' ∧ (shellOf w.environ = .error e ∨
    ∃ shell slash, shellOf w.environ = .ok (shell, slash) ∧
    (slash && line.head? == some '/') = false ∧
      split w.files w.cwd line cwd = .error e) := by
  have hlift {α : Type} (r : Except Error α) : (liftM r : WorldM α) = ofExcept r := by
    cases r <;> rfl
  unfold prepare
  simp only [hlift]
  constructor
  · intro h
    rcases fails_bind.1 h with h | ⟨_, _, hg, h⟩
    · exact absurd h fails_get
    cases hg
    rcases fails_bind.1 h with h | ⟨⟨shell, slash⟩, w1, hs, h⟩
    · obtain ⟨he, rfl⟩ := fails_ofExcept.1 h
      exact ⟨rfl, .inl he⟩
    obtain ⟨hshell, rfl⟩ := gives_ofExcept.1 hs
    rcases fails_bind.1 h with h | ⟨found, w1, -, h⟩
    · obtain ⟨he, rfl⟩ := fails_ofExcept.1 h
      exact ⟨rfl, .inr ⟨shell, slash, hshell, direct_eq_error_iff.1 he⟩⟩
    · cases found with
      | ok argv => cases h
      | error reason =>
        exact absurd h.of_pure fails_modify
  · rintro ⟨rfl, h⟩
    refine fails_bind.2 (.inr ⟨_, _, gives_get.2 ⟨rfl, rfl⟩, ?_⟩)
    rcases h with he | ⟨shell, slash, hs, he⟩
    · exact fails_bind.2 (.inl (fails_ofExcept.2 ⟨he, rfl⟩))
    · refine fails_bind.2 (.inr ⟨_, _, gives_ofExcept.2 ⟨hs, rfl⟩, ?_⟩)
      exact fails_bind.2 (.inl (fails_ofExcept.2 ⟨direct_eq_error_iff.2 he, rfl⟩))

end CommandLine

namespace RecipeLine

variable {w : World} {cwd : Text} {line : RecipeLine} {e : Error}

/-- A line that is to be a process cannot be started exactly if it cannot be prepared. -/
theorem unfit_iff_of_process (h : line.native = none) :
    line.Unfit w cwd e ↔ Fails (prepare line.line cwd line.loc) w e w := by
  rw [prepare_fails_iff]
  constructor
  · rintro (⟨unclosed, read⟩ | ⟨native, -⟩ | ⟨native, -, -⟩ | ⟨-, unknown⟩)
    · obtain ⟨shell, slash, hshell, hread⟩ := read h
      exact ⟨rfl, .inr ⟨shell, slash, hshell, hread, split_eq_error_iff.2 ⟨rfl, unclosed⟩⟩⟩
    · exact absurd h native
    · exact absurd h native
    · exact ⟨rfl, .inl unknown⟩
  · rintro ⟨-, hshell | ⟨shell, slash, hshell, hread, hsplit⟩⟩
    · obtain rfl := shellOf_eq_error hshell
      exact .noShell h hshell
    · obtain ⟨rfl, unclosed⟩ := split_eq_error_iff.1 hsplit
      exact .openQuote unclosed fun _ => ⟨shell, slash, hshell, hread⟩

end RecipeLine

variable {s s' : Run} {b : Nat} {r : RuleAt} {line : RecipeLine} {x : Build} {e : Error}
  {as : List Action} {u : Unit}
  {α : Type} {m : WorldM α} {path : Option (List Text)}

/-- A line is not started for a reason: it cannot be turned into a job, or its job finds no room. -/
def Run.Refuses (s : Run) (r : RuleAt) (line : RecipeLine) (e : Error) : Prop :=
  ∀ x, s.builds[r.build]? = some x →
    line.Unfit s.world x.makefile.workdir e ∨ ¬ s.loop.hasRoom x.context ∧ e = .breach .assertion

theorem Run.Refuses.of_none (h : s.builds[r.build]? = none) : s.Refuses r line e :=
  fun _ hx => absurd (h.symm.trans hx) nofun

theorem Run.Refuses.of_unfit (hx : s.builds[r.build]? = some x)
    (h : line.Unfit s.world x.makefile.workdir e ∨ ¬ s.loop.hasRoom x.context ∧
      e = .breach .assertion) :
    s.Refuses r line e :=
  fun _ hy => Option.some.inj (hx.symm.trans hy) ▸ h

namespace RunM

theorem run_act (m : WorldM α) (s : Run) :
    (act m).run s = ((m.run s.world).1, { s with world := (m.run s.world).2 }) := by
  have hset : Gives (set { s with world := (m.run s.world).2 } : RunM Unit) s () _ :=
    gives_set.2 rfl
  cases h : (m.run s.world).1 with
  | ok a =>
    refine gives_bind.2 ⟨s, s, gives_get.2 ⟨rfl, rfl⟩, ?_⟩
    exact gives_bind.2 ⟨(), _, hset, gives_ofExcept.2 ⟨h, rfl⟩⟩
  | error e =>
    refine fails_bind.2 (.inr ⟨s, s, gives_get.2 ⟨rfl, rfl⟩, ?_⟩)
    exact fails_bind.2 (.inr ⟨(), _, hset, fails_ofExcept.2 ⟨h, rfl⟩⟩)

theorem gives_act {a : α} :
    Gives (act m) s a s' ↔ ∃ w, Gives m s.world a w ∧ s' = { s with world := w } := by
  unfold Gives
  rw [run_act, Prod.mk.injEq]
  constructor
  · rintro ⟨ha, rfl⟩
    exact ⟨_, Prod.ext ha rfl, rfl⟩
  · rintro ⟨w, hw, rfl⟩
    rw [hw]
    exact ⟨rfl, rfl⟩

theorem fails_act :
    Fails (act m) s e s' ↔ ∃ w, Fails m s.world e w ∧ s' = { s with world := w } := by
  unfold Fails
  rw [run_act, Prod.mk.injEq]
  constructor
  · rintro ⟨he, rfl⟩
    exact ⟨_, Prod.ext he rfl, rfl⟩
  · rintro ⟨w, hw, rfl⟩
    rw [hw]
    exact ⟨rfl, rfl⟩

theorem fails_build (h : Fails (build b) s e s') : s.builds[b]? = none ∧ s = s' := by
  obtain ⟨_, _, hget, h⟩ := (fails_bind.1 h).resolve_left fails_get
  cases hget
  split at h
  · cases h
  · exact ⟨‹_›, (fails_throw.1 h).2⟩

theorem startNative_gives (hn : line.native = some path)
    (h : Gives (startNative r line path) s u s') :
    ∃ x ps, s.builds[r.build]? = some x ∧ line.Started s.world x.makefile r [] ps ∧
      s.loop.hasRoom x.context ∧ s' = { s with loop := s.loop.queue x.context ps } := by
  obtain ⟨x, hx, h⟩ := h.of_build
  replace h := h.of_get
  obtain ⟨found, hsplit, h⟩ := h.of_ofExcept
  split at h
  · cases h
  · obtain ⟨hroom, rfl⟩ := gives_deferIn.1 h
    exact ⟨x, _, hx, .native hn hsplit, hroom, rfl⟩
  · cases h

theorem startNative_fails (hn : line.native = some path)
    (h : Fails (startNative r line path) s e s') :
    s = s' ∧ s.Refuses r line e := by
  have hnative : line.native ≠ none := by simp [hn]
  rcases fails_bind.1 h with h | ⟨x, s1, hb, h⟩
  · obtain ⟨hnone, rfl⟩ := fails_build h
    exact ⟨rfl, .of_none hnone⟩
  obtain ⟨hx, rfl⟩ := gives_build.1 hb
  obtain ⟨_, _, hget, h⟩ := (fails_bind.1 h).resolve_left fails_get
  cases hget
  rcases fails_bind.1 h with h | ⟨found, s1, hfound, h⟩
  · obtain ⟨hsplit, rfl⟩ := fails_ofExcept.1 h
    obtain ⟨rfl, unclosed⟩ := split_eq_error_iff.1 hsplit
    exact ⟨rfl, .of_unfit hx (.inl (.openQuote unclosed fun hn => absurd hn hnative))⟩
  obtain ⟨hsplit, rfl⟩ := gives_ofExcept.1 hfound
  split at h
  · obtain ⟨rfl, rfl⟩ := fails_throw.1 h
    exact ⟨rfl, .of_unfit hx (.inl (.special hnative hsplit))⟩
  · obtain ⟨hroom, rfl, rfl⟩ := fails_deferIn.1 h
    exact ⟨rfl, .of_unfit hx (.inr ⟨hroom, rfl⟩)⟩
  · rename_i words hshort
    obtain ⟨rfl, rfl⟩ := fails_throw.1 h
    refine ⟨rfl, .of_unfit hx (.inl (.noMethod hnative hsplit ?_))⟩
    rcases words with _ | ⟨library, _ | ⟨name, args⟩⟩
    · decide
    · simp
    · cases hshort library name args rfl

/-- What a line that is started leads to answers to its rule. -/
theorem startLine_gives (h : Gives (startLine r line) s as s') :
    ∃ x ps w, s.builds[r.build]? = some x ∧ line.Started s.world x.makefile r as ps ∧
      (ps = [] ∨ s.loop.hasRoom x.context) ∧
      s' = { s with world := w, loop := s.loop.queue x.context ps } := by
  unfold startLine at h
  split at h
  · rename_i path hn
    obtain ⟨_, hnative, rfl⟩ := h.of_pure
    obtain ⟨x, ps, hx, hstarted, hroom, rfl⟩ := startNative_gives hn hnative
    exact ⟨x, ps, s.world, hx, hstarted, .inr hroom, rfl⟩
  · rename_i hn
    obtain ⟨x, hx, h⟩ := h.of_build
    refine ⟨x, ?_⟩
    obtain ⟨launch, s1, hl, h⟩ := h.of_bind
    obtain ⟨w, hprepared, rfl⟩ := gives_act.1 hl
    have hkeeps : ({ s with world := w } : Run) =
        { s with world := w, loop := s.loop.queue x.context [] } := by
      rw [Loop.queue_nil]
    extract_lets receiver direct at h
    have hdirect (h : Gives direct { s with world := w } as s') (hsome : launch.argv ≠ [])
        (hother : ∀ args, launch.argv ≠ program :: args ∧
          launch.argv ≠ interpreter :: program :: args) :
        ∃ ps w, s.builds[r.build]? = some x ∧ line.Started s.world x.makefile r as ps ∧
          (ps = [] ∨ s.loop.hasRoom x.context) ∧
          s' = { s with world := w, loop := s.loop.queue x.context ps } := by
      obtain ⟨_, h2, rfl⟩ := h.of_pure
      obtain ⟨hroom, rfl⟩ := gives_deferIn.1 h2
      exact ⟨_, w, hx, .process hn hprepared hsome hother, .inr hroom, rfl⟩
    split at h
    · rename_i hargv
      cases h
      exact ⟨[], w, hx, .nothing hn hprepared hargv, .inl rfl, hkeeps⟩
    · rename_i first rest hargv
      have hsome : launch.argv ≠ [] := by simp [hargv]
      split at h
      · rename_i hfirst
        cases h
        exact ⟨[], w, hx, .make hn hprepared (.inl (by rw [hargv, beq_iff_eq.1 hfirst])), .inl rfl,
          hkeeps⟩
      · rename_i hfirst
        split at h
        · split at h
          · rename_i hcalls
            cases h
            simp only [Bool.and_eq_true, beq_iff_eq] at hcalls
            exact ⟨[], w, hx, .make hn hprepared (.inr (by rw [hargv, hcalls.1, hcalls.2])),
              .inl rfl, hkeeps⟩
          · rename_i hcalls
            refine hdirect h hsome fun args' => ?_
            simp only [Bool.and_eq_true, beq_iff_eq] at hfirst hcalls
            rw [hargv]
            simp only [ne_eq, List.cons.injEq]
            exact ⟨fun he => hfirst he.1, fun he => hcalls ⟨he.1, he.2.1⟩⟩
        · refine hdirect h hsome fun args' => ?_
          rw [beq_iff_eq] at hfirst
          rw [hargv]
          exact ⟨fun he => hfirst (List.cons.inj he).1, by simp⟩

/-- Of a line that is not started nothing is left but a remark. -/
theorem startLine_fails (h : Fails (startLine r line) s e s') :
    (∃ w, s' = { s with world := w }) ∧ s.Refuses r line e := by
  unfold startLine at h
  split at h
  · rename_i path hn
    obtain ⟨rfl, hrefuses⟩ := startNative_fails hn h.of_pure
    exact ⟨⟨s.world, rfl⟩, hrefuses⟩
  · rename_i hn
    rcases fails_bind.1 h with h | ⟨x, s1, hb, h⟩
    · obtain ⟨hnone, rfl⟩ := fails_build h
      exact ⟨⟨s.world, rfl⟩, .of_none hnone⟩
    obtain ⟨hx, rfl⟩ := gives_build.1 hb
    rcases fails_bind.1 h with h | ⟨launch, s1, hl, h⟩
    · obtain ⟨w, hprepare, rfl⟩ := fails_act.1 h
      obtain ⟨rfl, -⟩ := prepare_fails_iff.1 hprepare
      exact ⟨⟨s.world, rfl⟩, .of_unfit hx (.inl ((RecipeLine.unfit_iff_of_process hn).2 hprepare))⟩
    obtain ⟨w, -, rfl⟩ := gives_act.1 hl
    extract_lets receiver direct at h
    have hdirect (h : Fails direct { s with world := w } e s') :
        (∃ w, s' = { s with world := w }) ∧ s.Refuses r line e := by
      obtain ⟨hroom, rfl, rfl⟩ := fails_deferIn.1 h.of_pure
      exact ⟨⟨w, rfl⟩, .of_unfit hx (.inr ⟨hroom, rfl⟩)⟩
    split at h
    · cases h
    · split at h
      · cases h
      · split at h
        · split at h
          · cases h
          · exact hdirect h
        · exact hdirect h

end RunM

end Rebuild
