import Rebuild.Proofs.Build.Composed
/-!
# Who complains

A complaint about a makefile ends what is being done up to a guard. Only three kinds of actions can
raise one: going on with a make, reading its makefiles, and starting a line of a recipe. Every
other action that fails does so gravely, which ends the run.
-/

namespace Rebuild

open RunM

namespace RunM

variable {b : Nat} {t : Text} {r : RuleAt}

theorem grave_deferIn (c : Nat) (p : Pending Action ExitTo) : Grave (deferIn c p) := by
  refine grave_bind grave_get fun s => grave_bind (grave_ofExcept fun e he => ?_)
    fun _ => grave_set _
  unfold Loop.defer at he
  split at he <;> cases he
  rfl

theorem grave_sharedContext (jobs : Int) : Grave (sharedContext jobs) := by
  refine grave_bind grave_get fun s => ?_
  split
  · exact grave_throw rfl
  · exact grave_bind (grave_set _) fun _ => grave_pure _

theorem grave_onWork (b : Nat) (t : Text) (f : Work → Work) : Grave (onWork b t f) :=
  grave_bind (holds_work b t) fun _ => grave_modify _

instance : Operates fun _ => Grave where
  world _ := grave_modify _
  builds _ _ _ := grave_modify _
  work b t f _ := grave_onWork b t f
  makes _ _ _ := grave_modify _
  task c _ _ := grave_deferIn c _
  shared := grave_sharedContext
  outcome _ := grave_modify _

theorem grave_onMakefile {α : Type} {x : MakeM α} (hx : Grave x) (b : Nat) :
    Grave (onMakefile b x) := by
  refine grave_bind (holds_build b) fun y => grave_bind grave_get fun s => ?_
  refine grave_bind (grave_set _) fun _ => grave_bind (grave_modify _) fun _ => ?_
  exact grave_ofExcept fun e he => hx ⟨s.world, y.makefile⟩ e _ (Prod.ext he rfl)

theorem grave_mention (name : Text) : Grave (MakeM.mention name) := by
  unfold MakeM.mention
  dsimp only
  split
  · exact grave_throw rfl
  split
  · exact grave_throw rfl
  refine grave_bind (grave_bind grave_get fun _ => grave_pure _) fun mk => ?_
  split
  · exact grave_bind (grave_modify _) fun _ => grave_pure _
  · exact grave_pure _

/-! ## Targets -/

theorem grave_firstFile (paths : List Text) : Grave (MakeM.firstFile paths) :=
  grave_bind (grave_bind grave_get fun _ => grave_pure _) fun _ =>
    grave_bind (grave_bind grave_get fun _ => grave_pure _) fun _ => grave_pure _

theorem grave_notifyDone (b : Nat) (t : Text) : Grave (notifyDone b t) :=
  holds_notifyDone (grave_onWork b t _)
    (grave_onMakefile (grave_bind (grave_firstFile _) fun _ => grave_modify _) b)

theorem grave_depsOf (r : RuleRef) (weak : Bool) : Grave (depsOf r weak) :=
  grave_bind (grave_bind grave_get fun _ => grave_pure _) fun _ => holds_mapM fun p =>
    grave_bind (grave_mention p) fun _ => grave_pure _

theorem grave_ruleWorks (t : Text) (stack : List Text) (avoidLoop : Bool) :
    Grave (ruleWorks t stack avoidLoop) := by
  refine grave_bind (grave_bind grave_get fun _ => grave_pure _) fun mk =>
    grave_bind (grave_ofExcept fun e he => ?_) fun dc => ?_
  · unfold Makefile.isDoubleColon at he
    split at he <;> cases he
    rfl
  · split
    · exact holds_mapM fun r => grave_bind (grave_depsOf r false) fun _ => grave_pure _
    · refine grave_bind (holds_foldlM (fun gathered r => ?_) _) fun _ => grave_pure _
      refine grave_bind (grave_depsOf r _) fun more => ?_
      split
      · split
        · exact grave_bind (grave_throw rfl) fun _ => grave_pure _
        · exact grave_pure _
      · exact grave_pure _

theorem grave_makeTarget (b : Nat) (t : Text) (stack : List Text) (ρ : Reply)
    (avoidLoop report : Bool) : Grave (makeTarget b t stack ρ avoidLoop report) := by
  refine grave_bind (grave_bind grave_get fun _ => grave_bind (holds_build b) fun _ => grave_pure _)
    fun serial => grave_bind (holds_work? b t) fun o => ?_
  cases o with
  | none =>
    exact holds_beginTarget (fun _ _ _ hf => grave_bind (grave_modify _) hf)
      (fun _ hf => grave_tryCatch hf) (grave_onMakefile (grave_ruleWorks t stack avoidLoop) b)
      (grave_notifyDone b t)
  | some w =>
    dsimp only
    split
    · exact grave_pure _
    · split
      · exact grave_bind (grave_throw rfl) fun _ => grave_bind (grave_onWork b t _)
          fun _ => grave_pure _
      · exact grave_bind (grave_onWork b t _) fun _ => grave_pure _

end RunM

/-- The actions that may complain about a makefile. -/
def Action.mayComplain : Action → Bool
  | .nextLine .. | .proceed .. | .parse .. => true
  | _ => false

theorem Run.grave_perform {a : Action} (ha : a.mayComplain = false) : Grave (Run.perform a) := by
  cases a with
  | make => exact grave_bind (grave_makeTarget _ _ _ _ _ _) fun _ => grave_pure _
  | resolve => exact grave_bind (holds_resolveAction _) fun _ => grave_pure _
  | resolved =>
    exact grave_bind (holds_resolved (grave_notifyDone _ _) _ _) fun _ =>
      grave_pure _
  | startDep => exact grave_bind (holds_startDep _ _ _) fun _ => grave_pure _
  | reply =>
    exact grave_bind (holds_tell
      (fun b goal => grave_onMakefile (grave_mention goal) b) _ _ _) fun _ => grave_pure _
  | recipe =>
    exact grave_bind (holds_runRecipe (grave_onMakefile (grave_modify _) _)
      fun _ _ hf => grave_tryCatch hf) fun _ => grave_pure _
  | recipeDone =>
    exact grave_bind (holds_recipeDone (grave_notifyDone _ _) _) fun _ =>
      grave_pure _
  | exit => exact grave_bind (holds_exit _ _) fun _ => grave_pure _
  | start => exact holds_startMake (fun _ _ => grave_modify _) _
  | nextLine | proceed | parse => cases ha

end Rebuild
