import Rebuild.Proofs.Build.Balance
/-!
# The balance is kept

Every step of a run keeps the balance, unless it ends the run with an error: an action hands its
thread on to what follows from it, a target that has its turn takes up one thread and leaves
others, the event loop only moves threads from the queue to the stack, and a complaint that a guard
answers gives up one target at most. So the balance holds of every state that a run comes to
(`Course.balanced`).
-/

namespace Rebuild

open List
open Multiset (map_add mem_add map_coe notMem_zero mem_coe)

variable {L : Ledger} {b : Nat} {t : Text} {h : List Deed} {u : Work} {now : List Action}

variable {r : RuleAt} {args : List Text} {env : Env} {cwd : Text} {e : ExitTo} {s : Run}

/-- Those who wait for a target are told, and wait no more. -/
theorem Ledger.posts_without {w : Work} (error did : Bool)
    (frames : List Frame) (queue : Multiset Duty)
    (h : L.waitsFor b t = (w.replies : Multiset Reply)) :
    ((w.released b t error did).map Duty.post : Multiset Post) +
    (L.without b t).posts frames queue =
      L.posts frames queue := by
  have htold : ((w.released b t error did).map Duty.post : Multiset Post) =
      (L.waits.filter fun p => p.1 = b ∧ p.2.1 = t).map fun p => p.2.2.post p.2.1 := by
    have hposts : ((w.released b t error did).map Duty.post : Multiset Post) =
        (L.waitsFor b t).map fun ρ => ρ.post t := by
      rw [h, map_coe]
      unfold Work.released
      rw [map_map]
      rfl
    rw [hposts]
    unfold waitsFor
    rw [Multiset.map_map]
    refine Multiset.map_congr rfl fun p hp => ?_
    rw [(Multiset.mem_filter.1 hp).2.2]
    rfl
  have hsplit : L.waits = L.waits.filter (fun p => p.1 = b ∧ p.2.1 = t) + (L.without b t).waits :=
    (Multiset.filter_add_not _ _).symm
  unfold posts
  conv_rhs => rw [hsplit]
  rw [map_add, htold]
  ac_rfl

namespace Balanced

variable {d : Deed} {v v' : View} {L' : Ledger} {a : Action}
  {rest : List Frame} {s1 s' : Run} {code : Int} {frames : List Frame} {g : Guard}

/-- A target that has its turn is being worked on. -/
theorem working_of_turn {w : Work} {late : List Duty}
    {fails ends : Bool} (hB : Balanced h v L) (hs : v.stack = .action a :: rest)
    (known : v.work b t = some w) (turn : Turn v b t w a u now late fails ends) :
    ¬ L.lost b t ∧ w.progress = .working := by
  obtain ⟨τ, hpost, howner⟩ := turn.owner
  obtain ⟨hlost, w', hw', hp, -⟩ := (hB.accounts_cons hs).stages
    (by rw [hpost]; exact Multiset.mem_cons_self _ _) howner
  cases hw'.symm.trans known
  exact ⟨hlost, hp⟩

/-- The balance is kept by a turn of a target. -/
theorem exists_of_took (hB : Balanced h s.view L)
    (hs : s.view.stack = .action a :: rest) (ht : Took s.view b t a now s1.view)
    (hs' : s' = { s1 with stack := now.map .action ++ rest }) :
    ∃ L', Balanced (⟨a, s, s'⟩ :: h) s'.view L' := by
  obtain ⟨w, u, late, fails, ends, known, turn, hv1, hwork1, hqueue1⟩ := ht.exists_turn
  have hv : s'.view = { ((s.view.put b t u).failIf b fails).later (late ++
      if ends then w.released b t u.error u.didAnything else []) with
      stack := now.map .action ++ rest } := by
    rw [← hv1, hs']
    rfl
  have hwork : s'.view.work = (s.view.put b t u).work := by
    rw [hs']
    exact hwork1
  have hrest := hB.rest_of hs
  have hacc := hB.accounts_cons hs
  obtain ⟨hlost, hp⟩ := hB.working_of_turn hs known turn
  have ho : s.view.Onward s'.view := by
    refine .of_work ?_ ?_ hwork fun w' hw' => ?_
    · rw [hv]
      cases fails <;> rfl
    · rw [hv]
      cases fails <;> rfl
    · cases hw'.symm.trans known
      exact ⟨by rw [hp]; exact Progress.noConfusion, turn.goesOn.serial⟩
  have hwaits : L.waitsFor b t = (w.replies : Multiset Reply) := by
    have := hacc.replies b t hlost
    rwa [known] at this
  refine ⟨if ends then L.without b t else L, hB.of_onward now [] _ hrest ho
    (hv ▸ ((hB.wired.put b t u).failIf b fails).restack ..) (by rw [hv]; rfl) (forall_mem_nil _)
    (fun a' ha' => ?_) (by rw [hs']; exact hqueue1) (fun a' ha' => ?_)
      (fun b' t' ρ hρ => .inl ?_) ?_⟩
  · obtain ⟨τ, hpost, howner⟩ := turn.owner
    rcases turn.follows with rfl | ⟨hends, a'', τ', rfl, hplain, hpost', hdep⟩
    · cases ha'
    cases mem_singleton.1 ha'
    refine ⟨rfl, Action.admits_of_isPlain hplain _, ?_⟩
    refine ho.guarded (hB.guarded _ _ hs) (fun m e => ?_) fun τ'' hl => ?_
    · rw [e] at hpost
      cases hpost
    · cases hl with
      | same make _ =>
        rw [hpost] at make
        cases make
      | @waits b' t' ρ w'' τ1 own owner past known' serial mem make thread =>
        rw [hpost] at own
        cases own
        cases owner.symm.trans howner
        cases known'.symm.trans known
        obtain ⟨τ2, e2, howner'⟩ := turn.posts (p := a'.post) (by simp)
        obtain rfl : τ' = τ2 := Post.own.inj (hpost'.symm.trans e2)
        refine .waits hpost' howner' hdep (by rw [hwork, View.put_work_self])
          (turn.goesOn.serial.trans serial) ?_ make
            ((ho.thread _ (hB.waiting _ _ _ mem).1).trans thread)
        rw [hends]
        exact mem
  · rcases mem_append.1 ha' with hlate | htold
    · exact ⟨(turn.defers hlate).1 _, (turn.defers hlate).2⟩
    · cases ends with
      | false => cases htold
      | true =>
        obtain ⟨ρ, hρ, e⟩ := mem_map.1 htold
        cases e
        have hmem : (b, t, ρ) ∈ L.waits := by
          rw [← Ledger.mem_waitsFor, hwaits]
          exact mem_coe.2 hρ
        obtain ⟨hknows, hwithin⟩ := hB.waiting b t ρ hmem
        exact ⟨⟨ho.knows _ hknows, hwithin, u, by rw [hwork, View.put_work_self],
          turn.goesOn.progress, rfl⟩, rfl⟩
  · cases ends with
    | false => exact hρ
    | true => exact (Multiset.mem_filter.1 hρ).1
  · have hturn : Accounts (⟨a, s, s'⟩ :: h) s'.view (if ends then L.without b t else L)
        (((now.map Action.post ++ late.map Duty.post).map s'.view.thread : List Thread) +
          (L.posts rest s.view.queue).map s.view.thread) :=
      hacc.of_turn known turn rfl rfl
        (by rw [show s'.work = s'.view.work from rfl, hwork]; exact View.put_work_self ..)
        ⟨rest, by rw [hs']⟩ (Ledger.resolved_not_mem hrest fun a ha => (hB.queued a ha).2)
        (by rw [hv]; cases fails <;> rfl)
    rw [← map_coe, ← hB.map_thread hs ho, ← map_add] at hturn
    cases ends with
    | false => rwa [if_neg Bool.false_ne_true, if_neg Bool.false_ne_true, append_nil]
    | true =>
      rw [if_pos rfl, if_pos rfl, map_append, ← append_assoc, ← Multiset.coe_add, add_assoc,
        Ledger.posts_without _ _ _ _ hwaits]
      exact hturn

/-- The thread of an action is handed on to another action that is for the same. -/
theorem same_post {v1 : View} (a' : Action) (hB : Balanced h v L)
    (hs : v.stack = .action a :: rest) (hg : v.Grows v1) (hd : ∀ r, d.action.Silent r)
    (hv : v' = { v1 with stack := .action a' :: rest }) (hadm : v'.Admits a')
    (hpost : a'.post = a.post) (ha : ∀ m, a ≠ .proceed m true none) : Balanced (d :: h) v' L := by
  obtain ⟨ho, -⟩ := hB.onward_of_grows hg hv
  refine hB.hand_on [] hs (hB.rest_of hs) rfl hg hd hv (forall_mem_nil _) hadm ?_
    (hB.guarded_of hs ho ha hpost)
  rw [hpost]
  exact ho.thread _ (hB.admits a (by rw [hs]; exact mem_cons_self)).knows

/-- The balance is kept where the run is told its exit code. -/
theorem cons_of_exit (hB : Balanced h v L) (hs : v.stack = .action (.exit .outside code) :: rest)
    (hd : ∀ r, d.action.Silent r) (hv : v' = { v with stack := rest }) :
    Balanced (d :: h) v' L := by
  obtain ⟨ho, hw⟩ := hB.onward_of_grows (.refl v) hv
  refine hB.of_onward [] [] [] (hB.rest_of hs) ho hw (by rw [hv]; rfl) (forall_mem_nil _)
    (forall_mem_nil _) (by rw [hv]; exact (add_zero _).symm) (fun a ha => absurd ha not_mem_nil)
    (fun b t ρ => .inl) ?_
  rw [show ((([] : List Action).map Action.post ++ ([] : List Duty).map Duty.post : List Post) :
    Multiset Post) = 0 from rfl, zero_add, hB.map_thread hs ho, hv]
  exact (((hB.accounts_cons hs).of_cons_outside rfl).cons_of_silent hd).restack _ _

/-- The balance is kept by an action that succeeds. -/
theorem exists_of_does (hB : Balanced h s.view L) (hs : s.view.stack = .action a :: rest)
    (hd : Does s s1 a frames) (hs' : s' = { s1 with stack := frames ++ rest }) :
    ∃ L', Balanced (⟨a, s, s'⟩ :: h) s'.view L' := by
  have hv : s'.view = { s1.view with stack := frames ++ rest } := by
    rw [hs']
    rfl
  cases hd with
  | took ht => exact hB.exists_of_took hs ht hs'
  | @asks r d weak stack calm view =>
    exact ⟨L, hB.same_post (.make r.build d stack (.dependent r weak) false true) hs (.refl _)
      (fun r => ⟨rfl, rfl⟩) (by rw [hv, view]; rfl)
      ⟨trivial, rfl, nofun⟩ rfl fun _ => nofun⟩
  | asked ha => exact hB.exists_of_asked hs ha (fun r => ⟨rfl, rfl⟩) hv
  | @told b t ρ error did now make hp =>
    refine ⟨L, hB.cons_of_passes hs hp ?_ (fun _ => nofun) (fun r => ⟨rfl, rfl⟩) hv⟩
    cases ρ with
    | dependent => cases make
    | _ => rfl
  | @proceeds m remade e now hp known =>
    refine ⟨L, hB.cons_of_passes hs hp rfl (fun m' e' => known ?_) (fun r => ⟨rfl, rfl⟩) hv⟩
    cases e'
    exact ⟨rfl, rfl⟩
  | @reads m remade e x hg known boss new =>
    refine ⟨L, hB.hand_on [.guard (.parse m)] hs (hB.rest_of hs) rfl hg (fun r => ⟨rfl, rfl⟩) hv
      (fun f hf => ⟨_, mem_singleton.1 hf⟩) ?_ ?_ ?_⟩
    · rw [hv]
      refine ⟨x, known, boss, fun t => ?_⟩
      rw [hg.work]
      by_contra hne
      obtain ⟨w, hw⟩ := Option.ne_none_iff_exists'.1 hne
      have hthere := RunM.boss_of_work hw
      simp [new] at hthere
    · have hknows : s.view.Knows (.make m) :=
        (hB.admits (.proceed m remade e) (by rw [hs]; exact mem_cons_self)).knows
      rw [hv]
      exact hg.thread hB.wired hknows
    · refine ⟨.same rfl rfl, ?_⟩
      rw [hv]
      exact Option.isSome_iff_exists.2 ⟨x, known⟩
  | parses hp => exact ⟨L, hB.cons_of_passes hs hp rfl (fun _ => nofun) (fun r => ⟨rfl, rfl⟩) hv⟩
  | @starts args env cwd e frames hg started =>
    cases started with
    | quits code =>
      exact ⟨L, hB.same_post (.exit e code) hs hg (fun r => ⟨rfl, rfl⟩) hv trivial rfl
        fun _ => nofun⟩
    | @there m x level workdir printDir new known receiver goals =>
      have hthread : s'.view.thread (.make m) = e.thread := by
        rw [hv]
        show (s1.view.make m).elim _ _ = e.thread
        rw [known, ← receiver]
        rfl
      refine ⟨L, hB.hand_on [.guard (.start level workdir printDir e)] hs (hB.rest_of hs) rfl hg
        (fun r => ⟨rfl, rfl⟩) hv (fun f hf => ⟨_, mem_singleton.1 hf⟩) ?_ hthread ?_⟩
      · rw [hv]
        exact Option.isSome_iff_exists.2 ⟨x, known⟩
      · exact ⟨⟨m, rfl⟩, hthread, hB.guarded_of hs (hB.onward_of_grows hg hv).1
          (fun _ => nofun) rfl⟩
  | ends state =>
    refine ⟨L, hB.cons_of_exit hs (fun r => ⟨rfl, rfl⟩) ?_⟩
    rw [hv, state]
    rfl

/-! ## Complaints -/

/-- A recipe that cannot go on gives up its target, and with it the make that waits for the target
behind a guard: in its place the exit code of the make is told. -/
theorem exists_of_loss {error : Bool} {ρ : Reply} {w : Work} (hB : Balanced h s.view L)
    (hs : s.view.stack = .action (.nextLine r error) :: .guard g :: rest)
    (howner : (Thread.next r error).owner = some (b, t)) (hw : s.view.work b t = some w)
    (hserial : w.serial = true) (hmem : (b, t, ρ) ∈ L.waits)
    (hthread : s.view.thread (ρ.post t) = e.thread) (hd : d.action = .nextLine r error)
    (hescaped : Escaped (d :: h)) (hu : u.serial = w.serial) (hp : u.progress = w.progress)
    (hv : v' = { (s.view.put b t u).later [.task (.exit e code)] with stack := rest }) :
    ∃ L', Balanced (d :: h) v' L' := by
  obtain ⟨W, hW⟩ := Multiset.exists_cons_of_mem hmem
  have hacc := (hB.accounts_cons hs).cons_of_silent fun r => by rw [hd]; exact ⟨rfl, rfl⟩
  obtain ⟨_, w', hw', hworking, -⟩ := hacc.stages (Multiset.mem_cons_self _ _) howner
  cases hw'.symm.trans hw
  have hrest := (hB.rest_of hs).of_guard
  have ho : s.view.Onward v' := .of_put hv fun w'' hw'' => by
    cases hw''.symm.trans hw
    exact ⟨by rw [hworking]; exact Progress.noConfusion, hu⟩
  -- The target is given up, and the one who waited for it behind the guard waits no more.
  let L' : Ledger := ⟨W, fun b' t' => L.lost b' t' ∨ (b', t') = (b, t)⟩
  have hL : Ledger.posts { L' with waits := (b, t, ρ) ::ₘ L'.waits } rest s.view.queue =
      L.posts (.guard g :: rest) s.view.queue := by
    unfold Ledger.posts
    rw [hW]
    rfl
  have hwaits : ∀ b' t', (b', t') ≠ (b, t) → L'.waitsFor b' t' = L.waitsFor b' t' := by
    intro b' t' hbt
    rw [← Accounts.waitsFor_cons_of_ne ρ hbt]
    unfold Ledger.waitsFor
    rw [hW]
  refine ⟨L', hB.of_onward [] [] [.task (.exit e code)] hrest ho (hv ▸ (hB.wired.put ..).restack ..)
    (by rw [hv]; rfl) (forall_mem_nil _) (forall_mem_nil _) (by rw [hv]; rfl) (fun a ha => ?_)
    (fun b' t' ρ' hρ' => .inl ?_) ?_⟩
  · cases mem_singleton.1 ha
    exact ⟨trivial, rfl⟩
  · rw [hW]
    exact Multiset.mem_cons_of_mem hρ'
  · have hlost : Accounts (d :: h) s.view L'
        ((L.posts (.guard g :: rest) s.view.queue).map s.view.thread) :=
      hacc.of_loss howner hw hserial hescaped (fun _ _ => Iff.rfl) hwaits
    have hput := hlost.put_lost (.inr rfl) (hp.trans hworking)
    rw [← hB.map_thread hs ho, ← hL, Ledger.posts_wait, Multiset.map_cons,
      ho.thread _ (hB.waiting _ _ _ hmem).1, hthread] at hput
    rw [map_add]
    exact hput.of_same_work (by rw [hv]; rfl) (by rw [hv]; rfl) (fun _ _ => by rw [hv]; rfl)
      (fun _ hb => by rw [hv]; exact hb) (fun _ => id) fun _ => ⟨rfl, rfl⟩

/-- The balance is kept by a complaint that a guard answers. -/
theorem exists_of_complaint {s2 : Run} {e : Error} (hB : Balanced h s.view L)
    (hs : s.view.stack = .action a :: .guard g :: rest) (hmay : a.mayComplain = true)
    (hf : Fails (Run.perform a) s e s1) (hans : Gives (Run.answer e g) s1 frames s2)
    (hs' : s' = { s2 with stack := frames ++ rest }) :
    ∃ L', Balanced (⟨a, s, s'⟩ :: h) s'.view L' := by
  have hrest := (hB.rest_of hs).of_guard
  have hsilent : ∀ r, a.Silent r := by
    intro r
    cases a <;> first | exact ⟨rfl, rfl⟩ | cases hmay
  have hv : s'.view = { s2.view with stack := frames ++ rest } := by
    rw [hs']
    rfl
  have hgrown : (∀ r error, a ≠ .nextLine r error) → RunM.Grown s s1 := by
    intro hne
    cases a with
    | nextLine r error => cases hne r error rfl
    | proceed m remade error => exact RunM.proceed_fails hf
    | parse m =>
      exact (RunM.keeps_parseMakefiles m).of_fails hf.of_pure
    | _ => cases hmay
  cases g with
  | start level workdir printDir receiver =>
    obtain ⟨⟨m, rfl⟩, hthread, hguard⟩ := hB.guarded _ _ hs
    have hg : RunM.Grown s s1 := hgrown fun _ _ => nofun
    obtain ⟨rfl, hsame⟩ : frames = [.action (.exit receiver 2)] ∧ s2.view = s1.view := by
      obtain ⟨_, s3, h3, hans⟩ := hans.of_bind
      have e3 := (RunM.keeps_print _).of_gives h3
      split at hans
      · obtain ⟨_, h4, rfl⟩ := hans.of_pure
        exact ⟨rfl, ((RunM.keeps_print _).of_gives h4).trans e3⟩
      · cases hans
        exact ⟨rfl, e3⟩
    rw [hsame] at hv
    obtain ⟨ho, -⟩ := hB.onward_of_grows hg hv
    refine ⟨L, hB.hand_on [] hs hrest rfl hg hsilent hv (forall_mem_nil _) trivial hthread.symm ?_⟩
    exact ho.guarded hguard (fun _ => nofun) fun τ hl =>
      ho.linked trivial (fun _ => id) (fun b t ρ hρ => (hB.waiting b t ρ hρ).1) hl
  | parse m =>
    obtain ⟨hlinked, hknows⟩ := hB.guarded _ _ hs
    obtain ⟨_, s3, h3, hans⟩ := hans.of_bind
    have e3 : s3.view = s1.view := (RunM.keeps_print _).of_gives h3
    obtain ⟨_, h4, rfl⟩ := hans.of_pure
    cases hlinked with
    | same make thread =>
      have hg : RunM.Grown s s1 := hgrown fun r error h => by rw [h] at make; cases make
      obtain ⟨x, hx, e4⟩ := RunM.exitLater_view h4
      rw [e3] at hx e4
      rw [e4] at hv
      refine ⟨L, hB.put_off (.exit x.receiver 2) hs hrest rfl hg hsilent hv trivial rfl ?_⟩
      rw [thread, ← hg.thread hB.wired hknows]
      show x.receiver.thread = (s1.view.make m).elim _ _
      rw [hx]
      rfl
    | @waits b t ρ w τ own owner past known serial mem make thread =>
      cases a with
      | proceed => cases own
      | parse => cases own
      | nextLine r error =>
        cases own
        cases owner
        have hchanged : ∃ u : Work, u.serial = w.serial ∧ u.progress = w.progress ∧
            s1.view = s.view.put r.build r.target u := by
          have hline : Fails (RunM.nextLine r error) s e s1 := hf.of_pure
          rcases RunM.nextLine_fails hline with e1 | ⟨w', rest, hw', e1⟩
          · exact ⟨w, rfl, rfl, by rw [e1, View.put_eq_self _ known]⟩
          · obtain rfl : w' = w := Option.some.inj (hw'.symm.trans known)
            exact ⟨w'.onRule r.rule fun x => { x with lines := rest }, rfl, rfl, e1⟩
        obtain ⟨u, hu, hp, e1⟩ := hchanged
        obtain ⟨x, hx, e4⟩ := RunM.exitLater_view h4
        rw [e3, e1] at hx e4
        rw [e4] at hv
        refine hB.exists_of_loss hs rfl known serial mem ?_ rfl
          ⟨_, mem_cons_self, r, error, e, s1, rfl, hf⟩ hu hp hv
        rw [thread]
        show (s.view.make m).elim _ _ = x.receiver.thread
        rw [show s.view.make m = some x from hx]
        rfl
      | _ => cases hmay

/-! ## The event loop -/

/-- What is not an action changes only the stack and the queue: the threads stay. -/
theorem of_same_posts (hB : Balanced h v L)
    (hv : v' = { v with stack := v'.stack, queue := v'.queue })
    (hposts : L.posts v'.stack v'.queue = L.posts v.stack v.queue)
    (hshape : Rest v'.stack ∨ ∃ a, v'.stack = [.action a] ∧ v.Admits a)
    (hqueue : ∀ a, Duty.task a ∈ v'.queue → Duty.task a ∈ v.queue) : Balanced h v' L := by
  obtain ⟨ho, hw⟩ := hB.onward_of_grows (.refl v) hv
  have hthread : v'.thread = v.thread := by
    rw [hv]
    funext p
    cases p <;> rfl
  refine ⟨hw, ?_, ?_, fun a ha => ?_, fun a ha => ?_, fun b t ρ hρ => ?_, fun a rest hs => ?_⟩
  · rw [hposts, hthread, hv]
    exact hB.accounts.restack _ _
  · rcases hshape with hr | ⟨a, hs, -⟩
    · exact .inl hr
    · exact .inr ⟨a, [], hs, .exits nofun⟩
  · rcases hshape with hr | ⟨a', hs, hadm⟩
    · obtain ⟨e, code, rfl⟩ := hr.actions_exit ha
      trivial
    · rw [hs] at ha
      cases mem_singleton.1 ha
      rw [hv]
      cases a <;> exact hadm
  · obtain ⟨hadm, hlate⟩ := hB.queued a (hqueue a ha)
    exact ⟨ho.admits hadm hlate, hlate⟩
  · obtain ⟨hknows, hwithin⟩ := hB.waiting b t ρ hρ
    exact ⟨ho.knows _ hknows, hwithin⟩
  · rcases hshape with hr | ⟨a', hs', -⟩
    · rw [hs] at hr
      exact .of_exits hr.of_action
    · rw [hs] at hs'
      cases hs'
      trivial

/-- What is done at once lies on top of what remains. -/
theorem stacked (hB : Balanced h v L) : Stacked v.stack := by
  rcases hB.shape with hr | ⟨a, rest, hs, hr⟩
  · exact hr.stacked
  · rw [hs]
    cases hr with
    | exits hall =>
      refine .plain fun f hf => ?_
      rcases mem_cons.1 hf with rfl | hf
      · exact ⟨a, rfl⟩
      · obtain ⟨e, code, rfl⟩ := hall f hf
        exact ⟨_, rfl⟩
    | guard hr => exact .action hr.stacked

/-- The balance is kept by a step that does no action, unless it ends the run with an error. -/
theorem of_idle (hB : Balanced h s.view L) (ha : ∀ a rest, s.stack ≠ .action a :: rest)
    (hs : Stepped s s') : (∃ e, s'.outcome = some (.error e)) ∨ Balanced h s'.view L := by
  cases hs with
  | act stack => exact absurd stack (ha _ _)
  | complaint stack => exact absurd stack (ha _ _)
  | @pop g rest stack state =>
    refine .inr (hB.of_same_posts (by rw [state]; rfl) ?_ (.inl ?_) fun a => ?_)
    · rw [state]
      show L.posts rest _ = L.posts s.stack _
      rw [stack]
      rfl
    · rw [state]
      rcases hB.shape with hr | ⟨a, rest', hs', -⟩
      · rw [show s.view.stack = .guard g :: rest from stack] at hr
        exact hr.of_guard
      · exact absurd hs' (ha _ _)
    · rw [state]
      exact id
  | @task a queue stack taken view _ =>
    have hadm :=
      (hB.queued a (by rw [taken]; exact mem_add.2 (.inr (Multiset.mem_singleton_self _)))).1
    refine .inr (hB.of_same_posts (by rw [view]) ?_ (.inr ⟨a, by rw [view], hadm⟩) fun a' ha' => ?_)
    · rw [view, taken, show s.view.stack = [] from stack]
      unfold Ledger.posts
      rw [map_add, Multiset.map_singleton]
      show ({a.post} : Multiset Post) + _ + _ = 0 + _ + _
      ac_rfl
    · rw [view] at ha'
      rw [taken]
      exact mem_add.2 (.inl ha')
  | idle _ view _ => exact .inr (view ▸ hB)
  | @report jobs queue stack taken view _ =>
    refine .inr (hB.of_same_posts (by rw [view]) ?_ (.inl (.exits fun f hf => ?_)) fun a' ha' => ?_)
    · rw [view, taken, show s.view.stack = [] from stack]
      unfold Ledger.posts
      have hactions : actions (jobs.map fun j => Frame.action (.exit j.1 j.2)) =
          jobs.map fun j => .exit j.1 j.2 := by
        clear taken view
        induction jobs with
        | nil => rfl
        | cons j jobs ih => rw [map_cons, actions_action, ih, map_cons]
      rw [hactions, map_add, map_coe, map_map, map_map]
      show ((jobs.map fun j => (Post.own j.1.thread) : List Post) : Multiset Post) + _ + _ =
        0 + (_ + ((jobs.map fun j => (Post.own j.1.thread) : List Post) : Multiset Post)) + _
      ac_rfl
    · rw [view] at hf
      obtain ⟨j, _, rfl⟩ := mem_map.1 hf
      exact ⟨_, _, rfl⟩
    · rw [view] at ha'
      rw [taken]
      exact mem_add.2 (.inl ha')
  | abort _ outcome => exact .inl ⟨_, outcome⟩

/-- What an action on top of the stack does if it succeeds. -/
theorem does_of_gives (hB : Balanced h s.view L) (hs : s.stack = .action a :: rest)
    (gives : Gives (Run.perform a) s frames s1) : Does s s1 a frames := by
  have howns : s.view.Owns a.post := by
    intro b t ho
    obtain ⟨_, w, hw, -⟩ := (hB.accounts_cons hs).stages (Multiset.mem_cons_self _ _) ho
    exact ⟨w, hw⟩
  have hadm := hB.admits a (by rw [show s.view.stack = _ from hs]; exact mem_cons_self)
  exact Run.perform_does hB.wired hadm howns gives

/-- The balance is kept by a step that does an action, unless it ends the run with an error. -/
theorem exists_of_act (hB : Balanced h s.view L) (hs : s.stack = .action a :: rest)
    (hst : Stepped s s') :
    (∃ e, s'.outcome = some (.error e)) ∨ ∃ L', Balanced (⟨a, s, s'⟩ :: h) s'.view L' := by
  have hview : s.view.stack = .action a :: rest := hs
  cases hst.acted hs with
  | gives gives state => exact .inr (hB.exists_of_does hview (hB.does_of_gives hs gives) state)
  | complaint guarded may fails answered state =>
    subst guarded
    exact .inr (hB.exists_of_complaint hview may fails answered state)
  | abort _ outcome => exact .inl ⟨_, outcome⟩

/-- A run that is about to start a make is balanced. -/
theorem init (w : World) (args : List Text) (env : Env) (cwd : Text) :
    Balanced [] (Run.init w args env cwd).view ⟨0, fun _ _ => False⟩ := by
  have hwork : ∀ b t x, (Run.init w args env cwd).view.work b t ≠ some x := by
    intro b t x hx
    cases hx
  refine ⟨⟨?_⟩, ⟨fun _ _ _ => rfl, fun b t x hx => absurd hx (hwork b t x),
    fun b t x hx => absurd hx (hwork b t x), fun _ _ hl => hl.elim,
    fun _ _ _ => ⟨rfl, fun _ => ⟨rfl, rfl⟩⟩, ?_, fun b t x hx => absurd hx (hwork b t x)⟩,
    .inr ⟨_, [], rfl, .exits nofun⟩, fun a ha => ?_, fun a ha => ?_, fun b t ρ hρ => ?_, ?_⟩
  · intro b m hb
    cases hb
  · exact le_refl 1
  · cases mem_singleton.1 ha
    trivial
  · exact absurd ha (notMem_zero _)
  · exact absurd hρ (notMem_zero _)
  · intro a rest hs
    cases hs
    trivial

end Balanced

/-- The run has ended with an error. -/
def Run.Broken (s : Run) : Prop := ∃ e, s.outcome = some (.error e)

theorem Run.not_broken (ho : s.outcome = none) : ¬ s.Broken := by
  rintro ⟨e, he⟩
  simp [ho] at he

theorem Run.doing_eq_some {a : Action} (hd : s.doing = some a) :
    s.outcome = none ∧ ∃ rest, s.stack = .action a :: rest := by
  unfold doing at hd
  split at hd
  · cases hd
    exact ⟨‹_›, _, ‹_›⟩
  · cases hd

/-- A run that has ended stays as it is. -/
theorem Run.step_of_outcome {o : Outcome} (ho : s.outcome = some o) (schedule : Schedule) :
    s.step schedule = s := by
  unfold step
  rw [ho]

/-- **Every run is balanced**, whatever the schedule, as long as it has not ended with an error. -/
theorem Course.balanced {w : World} (hc : Course (.init w args env cwd) h s) :
    s.Broken ∨ ∃ L, Balanced h s.view L := by
  induction hc with
  | start => exact .inr ⟨_, .init w args env cwd⟩
  | @act h s a schedule _ doing ih =>
    obtain ⟨ho, rest, hs⟩ := Run.doing_eq_some doing
    rcases ih with ⟨e, he⟩ | ⟨L, hB⟩
    · simp [ho] at he
    · exact hB.exists_of_act hs (Run.step_stepped ho hB.stacked)
  | @pass h s schedule _ doing ih =>
    cases ho : s.outcome with
    | some o => rwa [Run.step_of_outcome ho]
    | none =>
      rcases ih with ⟨e, he⟩ | ⟨L, hB⟩
      · simp [ho] at he
      · have hno : ∀ a rest, s.stack ≠ .action a :: rest := by
          intro a rest hs
          unfold Run.doing at doing
          simp [ho, hs] at doing
        rcases hB.of_idle hno (Run.step_stepped ho hB.stacked) with he | hB'
        · exact .inl he
        · exact .inr ⟨L, hB'⟩

end Rebuild
