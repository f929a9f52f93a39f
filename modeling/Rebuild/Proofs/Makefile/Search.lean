import Rebuild.Proofs.Makefile.Steady
/-!
# What the search for files and rules does

Once all makefiles are read, resolving a target mentions new targets, notes the file of a target
that was not looked for before, and gives one pattern rule to a target that has no recipe. So what
is known of a target stays: whether it is mentioned by name, the file found for it with its time,
and its rules, if one of them has a recipe. `Settles` says so. How the search for a rule ends is
said once, in `findRule_cases`.
-/

namespace Rebuild

open List Makefile

variable {σ α β : Type} {t : Target} {a : α} {x : MakeM α} {mk mk' : Makefile} {p : Text}
  {chain : List Nat} {ps : List Text}

/-! The time of a target is known once its file was looked for. -/

section Time

variable {m : Option Time} {f : Option Time → Computation σ α} {s s' : σ}

theorem Target.time_eq_ok : t.time = .ok m ↔ t.mtime = some m := by
  unfold Target.time
  cases t.mtime <;> simp

theorem time_gives (h : Gives (ofExcept t.time) s m s') : t.mtime = some m ∧ s = s' :=
  (gives_ofExcept.1 h).imp_left Target.time_eq_ok.1

theorem Gives.of_time (h : Gives (ofExcept t.time >>= f) s a s') :
    ∃ m, t.mtime = some m ∧ Gives (f m) s a s' := h.of_read time_gives

end Time

variable {R : Session → Session → Prop} {F K : Text → Prop} {s s' : Session} {u : Unit}

namespace MakeM

section Search

variable [EvaluationFrame R]

theorem keeps_firstFile (paths : List Text) : Keeps R (firstFile paths) :=
  keeps_bind keeps_world fun _ => keeps_return keeps_makefile

theorem keeps_findLibrary (stem : Text) (dirs : List Text) (ps : List Pattern) :
    Keeps R (findLibrary stem dirs ps) := by
  induction ps with
  | nil => exact keeps_pure _
  | cons p rest ih =>
    unfold findLibrary
    split
    · exact keeps_throw _
    · refine keeps_bind (keeps_bind keeps_world fun _ => keeps_return keeps_makefile)
        fun found => ?_
      cases found with
      | none => exact ih
      | some found => exact keeps_pure _

theorem keeps_libraryPatterns (hb : ∀ n, (Below.levels n).KeepsFrame R) :
    Keeps R libraryPatterns := by
  refine keeps_bind (keeps_onScopes_alike (ScopeM.keeps_lookup _ _)) fun v => ?_
  cases v with
  | none => exact keeps_pure _
  | some v =>
    exact keeps_bind (keeps_expand hb _ _ _) fun s => keeps_mapM fun p => keeps_ofExcept _

theorem keeps_searchPaths (name : Text) : Keeps R (searchPaths name) := by
  unfold searchPaths
  split
  · exact keeps_pure _
  · refine keeps_bind keeps_makefile fun mk => ?_
    exact keeps_return (keeps_ofExcept _)

omit [EvaluationFrame R] in
/-- What is done with the makefile may depend on the makefile at hand. -/
theorem keeps_bind_makefile {f : Makefile → MakeM β} (s : Session)
    (h : R s ((f s.makefile).run s).2) : R s ((makefile >>= f).run s).2 := by
  rw [run_bind]
  exact h

variable (hm : ∀ name, Keeps R (mention name))
include hm

theorem keeps_isPhony (name : Text) : Keeps R (isPhony name) :=
  keeps_bind (hm _) fun _ => keeps_return keeps_makefile

theorem keeps_firstAbsent (hf : ∀ name, Keeps R (findFile name)) (ps : List Text) :
    Keeps R (firstAbsent ps) := by
  induction ps with
  | nil => exact keeps_pure _
  | cons p rest ih =>
    refine keeps_bind (hm p) fun name => keeps_bind (hf name) fun _ => ?_
    refine keeps_bind (keeps_targetAt name) fun t => keeps_bind (keeps_ofExcept _) fun time => ?_
    split
    · exact keeps_pure _
    · exact ih

theorem keeps_findFile (hb : ∀ n, (Below.levels n).KeepsFrame R) {name : Text}
    (hs : ∀ file time, Keeps R (setFound name file time)) : Keeps R (findFile name) := by
  refine keeps_bind (keeps_targetAt name) fun t => ?_
  extract_lets note look
  have hnote : ∀ found, Keeps R (note found) := by
    intro found
    unfold note
    split <;> exact hs _ _
  have hlook : ∀ libs, Keeps R (look libs) := by
    intro libs
    unfold look
    split
    · exact keeps_bind (keeps_searchPaths name) fun _ => keeps_bind (keeps_firstFile _) hnote
    · refine keeps_bind keeps_makefile fun mk => keeps_bind (keeps_ofExcept _) fun dirs => ?_
      exact keeps_bind (keeps_findLibrary _ _ _) hnote
  split
  · exact keeps_pure _
  refine keeps_bind (keeps_isPhony hm name) fun phony => ?_
  split
  · exact keeps_return (hs _ _)
  split
  · exact keeps_bind (keeps_libraryPatterns hb) hlook
  · exact keeps_bind (keeps_pure _) hlook

end Search

theorem sameHabits_findFile (name : Text) : Keeps SameHabits (findFile name) :=
  keeps_findFile (fun name => (keeps_mention name).sameHabits) Below.keepsFrame_sameHabits
    fun _ _ => keeps_modify fun _ => rfl

end MakeM

/-! ## What was made anew -/

/-- Only targets in `F` count as made anew that did not before. -/
def Makefile.RemakesOnly (F : Text → Prop) (mk mk' : Makefile) : Prop :=
  ∀ t, (mk'.targetAt t).remade = true → F t ∨ (mk.targetAt t).remade = true

instance (F : Text → Prop) : IsPreorder Makefile (Makefile.RemakesOnly F) where
  refl _ _ := .inr
  trans _ _ _ h₁ h₂ t ht := (h₂ t ht).elim .inl (h₁ t)

/-- Only targets in `F` count as made anew that did not before, in the makefile of a session. -/
def RemakesOnly (F : Text → Prop) (s s' : Session) : Prop := s.makefile.RemakesOnly F s'.makefile

instance (F : Text → Prop) : VariableFrame (RemakesOnly F) where
  refl s := refl_of (Makefile.RemakesOnly F) s.makefile
  trans _ _ _ := trans_of (Makefile.RemakesOnly F)
  world _ _ _ := .inr
  scopes _ _ _ := .inr

theorem Steady.remakesOnly (h : Steady s s') : RemakesOnly F s s' := by
  intro t ht
  rw [(h.files t).2.2] at ht
  exact .inr ht

theorem Keeps.remakesOnly (h : Keeps Steady x) : Keeps (RemakesOnly F) x :=
  fun s => (h s).remakesOnly

theorem Below.keepsFrame_remakesOnly (n : Nat) : (levels n).KeepsFrame (RemakesOnly F) where
  expand sc setting e := ((keepsFrame_steady n).expand sc setting e).remakesOnly
  eval _ sc loc h :=
    keeps_eval (fun weak stmts => (keeps_execute_steady n weak stmts).remakesOnly) sc loc h

namespace MakeM

variable (name : Text)

theorem remakesOnly_onTarget {name : Text} {f : Target → Target} (hn : ∀ t, (f t).name = t.name)
    (hf : F name ∨ ∀ t, (f t).remade = t.remade) : Keeps (RemakesOnly F) (onTarget name f) := by
  refine keeps_modify fun s t ht => ?_
  by_cases hname : t = name
  · subst hname
    refine hf.imp_right fun hf => ?_
    rcases s.makefile.targetAt_mapTarget hn t t with e | e
    · rwa [e, hf] at ht
    · rwa [e] at ht
  · rw [targetAt_mapTarget_of_ne hn hname] at ht
    exact .inr ht

theorem remakesOnly_mention :
    Keeps (RemakesOnly F) (mention name) := (keeps_mention name).remakesOnly

theorem remakesOnly_findFile : Keeps (RemakesOnly F) (findFile name) :=
  keeps_findFile remakesOnly_mention Below.keepsFrame_remakesOnly fun _ _ =>
    remakesOnly_onTarget (fun _ => rfl) (.inr fun _ => rfl)

end MakeM

/-! ## What is known of targets -/

/-- A pattern rule that is searched and has a recipe. -/
def Makefile.Makes (mk : Makefile) (r : RuleRef) : Prop :=
  (∃ id ∈ mk.implicit, ∃ fit, r = .fitted id fit) ∧ mk.hasCommands r = true

/-- What is known of a target stays: whether it is mentioned by name; unless `own`, the file, if it
was looked for; and its rules, but that a target that has no recipe and is not `held` may be given a
pattern rule. -/
structure Makefile.Retains (mk : Makefile) (own held : Prop) (t t' : Target) : Prop where
  explicit : t'.explicit = t.explicit
  remade : ¬ own → t'.remade = true → t.remade = true
  file : ¬ own → t.found.isSome → t.SameFile t'
  rule : t'.rules = t.rules ∨
    ¬ held ∧ mk.recipeCount t = 0 ∧ ∃ r, mk.Makes r ∧ t'.rules = t.rules ++ [r]

/-- What is known of the targets of a makefile stays, but for the files of targets in `F`; those in
`K` are given no rules. Variables that patterns have are copied, and nothing else changes. -/
structure Makefile.Stays (F K : Text → Prop) (mk mk' : Makefile) : Prop where
  same : mk' = { mk with scopes := mk'.scopes, targets := mk'.targets }
  values : ∀ n, (∀ p, (mk.scopes.table (.pattern p)).get? n = none) → mk.scopes.SameAt n mk'.scopes
  target : ∀ t, mk.Retains (F t) (K t) (mk.targetAt t) (mk'.targetAt t)

namespace Makefile

variable {F' K' : Text → Prop} {own held : Prop} {mk'' : Makefile} {t' : Target}

theorem Retains.refl (t : Target) : mk.Retains own held t t :=
  ⟨rfl, fun _ => id, fun _ _ => ⟨rfl, rfl, rfl⟩, .inl rfl⟩

theorem Retains.of_own (h : own) (he : t'.explicit = t.explicit) (hr : t'.rules = t.rules) :
    mk.Retains own held t t' := ⟨he, fun hn => absurd h hn, fun hn => absurd h hn, .inl hr⟩

namespace Stays

theorem of_scopes {sc : Scopes} (h : ∀ n, (∀ p, (mk.scopes.table (.pattern p)).get? n = none) →
    mk.scopes.SameAt n sc) : Stays F K mk { mk with scopes := sc } :=
  ⟨rfl, h, fun _ => .refl _⟩

theorem refl (mk : Makefile) : Stays F K mk mk := of_scopes fun _ _ _ => rfl

section

variable (h : Stays F K mk mk')
include h

theorem hasCommands_eq (r : RuleRef) : mk'.hasCommands r = mk.hasCommands r := by
  rw [h.same]
  cases r <;> rfl

theorem recipeCount_eq (t : Target) : mk'.recipeCount t = mk.recipeCount t := by
  unfold recipeCount
  congr 1
  funext r
  exact h.hasCommands_eq r

theorem prereqs_eq (r : RuleRef) : mk'.prereqs r = mk.prereqs r := by
  rw [h.same]
  cases r <;> rfl

theorem doubleColon_eq : mk'.doubleColon = mk.doubleColon := by
  funext r
  rw [h.same]
  cases r <;> rfl

theorem makes_iff (r : RuleRef) : mk'.Makes r ↔ mk.Makes r := by
  unfold Makes
  rw [h.hasCommands_eq, h.same]

theorem file (n : Text) (hF : ¬ F n) (hs : (mk.targetAt n).found.isSome) :
    (mk.targetAt n).SameFile (mk'.targetAt n) := (h.target n).file hF hs

theorem rules (n : Text) (hr : 0 < mk.recipeCount (mk.targetAt n)) :
    (mk'.targetAt n).rules = (mk.targetAt n).rules := by
  rcases (h.target n).rule with e | ⟨-, hz, -⟩
  · exact e
  · omega

/-- A target is given more rules only after those it has. -/
theorem more (n : Text) : (mk.targetAt n).rules <+: (mk'.targetAt n).rules := by
  rcases (h.target n).rule with e | ⟨-, -, r, -, e⟩
  · exact e ▸ prefix_rfl
  · exact ⟨[r], e.symm⟩

end

theorem trans (h1 : Stays F K mk mk') (h2 : Stays F K mk' mk'') : Stays F K mk mk'' where
  same := by rw [h2.same, h1.same]
  values n hn :=
    (h1.values n hn).trans (h2.values n fun p => (h1.values n hn).get?_eq_none (hn p))
  target n := by
    have k1 := h1.target n
    have k2 := h2.target n
    refine ⟨k2.explicit.trans k1.explicit, fun hF h => k1.remade hF (k2.remade hF h),
      fun hF hs => ?_, ?_⟩
    · obtain ⟨a1, b1, c1⟩ := k1.file hF hs
      obtain ⟨a2, b2, c2⟩ := k2.file hF (by rw [a1]; exact hs)
      exact ⟨a2.trans a1, b2.trans b1, c2.trans c1⟩
    · rcases k1.rule with e1 | ⟨hK, hz, r, hr, e1⟩
      · refine k2.rule.imp (·.trans e1) fun ⟨hK, hz, r, hr, e2⟩ =>
          ⟨hK, ?_, r, (h1.makes_iff r).1 hr, ?_⟩
        · rw [h1.recipeCount_eq] at hz
          unfold recipeCount at hz ⊢
          rwa [← e1]
        · rw [e2, e1]
      · -- the target has a recipe now, and so is given no other
        have hpos : 0 < mk'.recipeCount (mk'.targetAt n) := by
          rw [h1.recipeCount_eq]
          refine countP_pos_iff.2 ⟨r, ?_, hr.2⟩
          rw [e1]
          exact mem_append_right _ (mem_singleton.2 rfl)
        exact .inr ⟨hK, hz, r, hr, (h2.rules n hpos).trans e1⟩

theorem mono (h : Stays F K mk mk') (hF : ∀ n, F n → F' n) (hK : ∀ n, K' n → K n) :
    Stays F' K' mk mk' where
  same := h.same
  values := h.values
  target n :=
    { explicit := (h.target n).explicit
      remade := fun hn => (h.target n).remade (mt (hF n) hn)
      file := fun hn => (h.target n).file (mt (hF n) hn)
      rule := (h.target n).rule.imp_right fun ⟨hn, hz⟩ => ⟨mt (hK n) hn, hz⟩ }

/-- What is done to one target leaves the others as they are. -/
theorem mapTarget {name : Text} {f : Target → Target} (hn : ∀ t, (f t).name = t.name)
    (h : mk.Retains (F name) (K name) (mk.targetAt name) (f (mk.targetAt name))) :
    Stays F K mk (mk.mapTarget name f) := by
  refine ⟨rfl, fun _ _ _ => rfl, fun t => ?_⟩
  by_cases ht : t = name
  · subst ht
    rcases targetAt_mapTarget mk hn t t with e | e
    · rw [e]
      exact h
    · rw [e]
      exact .refl _
  · rw [targetAt_mapTarget_of_ne hn ht]
    exact .refl _

end Stays

end Makefile

/-- Once all is read, what is known of targets stays. -/
def Settles (F K : Text → Prop) (s s' : Session) : Prop :=
  s.makefile.finished = true → s.makefile.Stays F K s'.makefile

theorem Makefile.Stays.finished (h : Stays F K mk mk') (hf : mk.finished = true) :
    mk'.finished = true := by
  rw [h.same]
  exact hf

instance (F K : Text → Prop) : EvaluationFrame (Settles F K) where
  refl s _ := .refl s.makefile
  trans _ _ _ h₁ h₂ hf := (h₁ hf).trans (h₂ ((h₁ hf).finished hf))
  world s _ _ := .refl s.makefile
  values _ _ hx _ := .of_scopes fun n _ => hx.sameAt n

/-- What leaves a finished makefile as it is settles it. -/
theorem Keeps.settles (h : Keeps Frozen x) : Keeps (Settles F K) x := by
  intro s hf
  obtain ⟨hsame, hvalues⟩ := h s hf
  rw [hsame]
  exact .of_scopes fun n _ => hvalues.sameAt n

theorem Below.keepsFrame_settles (F K : Text → Prop) (n : Nat) :
    (levels n).KeepsFrame (Settles F K) where
  expand sc setting e := ((keepsFrame_frozen n).expand sc setting e).settles
  eval x sc loc _ := (keeps_eval_frozen _ x sc loc).settles

/-- The proper name of a target: slashes at the end do not count. -/
def properName (name : Text) : Text := name.dropRight (· == '/')

theorem Gives.of_makefile {f : Makefile → MakeM α} (h : Gives (MakeM.makefile >>= f) s a s') :
    Gives (f s.makefile) s a s' := by
  obtain ⟨mk, s1, hmk, h⟩ := h.of_bind
  obtain ⟨rfl, rfl⟩ := gives_pure.1 hmk.of_get
  exact h

namespace MakeM

variable (name : Text)

theorem targetAt_gives {name : Text} (h : Gives (targetAt name) s t s') :
    s.makefile.targetAt name = t ∧ s = s' := by
  replace h := h.of_makefile
  exact gives_pure.1 h

theorem mention_gives {name n : Text} (h : Gives (mention name) s n s') : n = properName name := by
  unfold mention at h
  dsimp only at h
  split at h
  · cases h
  split at h
  · cases h
  obtain ⟨mk, s1, -, h⟩ := h.of_bind
  split at h
  · obtain ⟨_, _, -, h⟩ := h.of_bind
    exact (gives_pure.1 h).1.symm
  · exact (gives_pure.1 h).1.symm

theorem settles_mention : Keeps (Settles F K) (mention name) := by
  refine keeps_mention_of (fun s n _ => ⟨rfl, fun _ _ _ => rfl, fun t => ?_⟩) name
  rw [targetAt_append_new]
  exact .refl _

theorem settles_onTarget {name : Text} {f : Target → Target} (hn : ∀ t, (f t).name = t.name)
    (h : ∀ (mk : Makefile) t, mk.Retains (F name) (K name) t (f t)) :
    Keeps (Settles F K) (onTarget name f) :=
  keeps_modify fun s _ => .mapTarget hn (h s.makefile _)

theorem settles_findFile : Keeps (Settles F K) (findFile name) := by
  have hk : Keeps (Settles (fun t => F t ∨ t = name) K) (findFile name) :=
    keeps_findFile settles_mention (Below.keepsFrame_settles _ _) fun _ _ =>
      settles_onTarget (fun _ => rfl) fun _ _ => .of_own (.inr rfl) rfl rfl
  intro s hf
  cases hs : (s.makefile.targetAt name).found with
  | none =>
    -- nothing was known of the target that is looked for
    refine { hk s hf with target := fun t => ⟨((hk s hf).target t).explicit, fun _ h => ?_,
      fun hF ht => ?_, ((hk s hf).target t).rule⟩ }
    · exact (remakesOnly_findFile (F := fun _ => False) name s t h).resolve_left id
    · refine ((hk s hf).target t).file (not_or.2 ⟨hF, ?_⟩) ht
      rintro rfl
      simp [hs] at ht
  | some file =>
    have hr : Gives (findFile name) s () s := by
      refine gives_bind.2 ⟨_, _, (rfl : Gives (targetAt name) s _ s), ?_⟩
      simp only [hs, Option.isSome_some, if_true]
      exact rfl
    rw [show (findFile name).run s = _ from hr]
    exact .refl _

end MakeM

/-! ## The search for a rule -/

open MakeM (Candidate)

namespace Makefile

/-- Does a pattern that does not match everything match a file name? -/
def hasSpecific (mk : Makefile) (file : Text) : Bool :=
  mk.implicit.any fun id => (mk.patternRuleAt id).isSpecific file

/-- How the pattern rule of a number fits a target, given by directory, slash and file name, unless
it has no recipe or is in the chain. -/
def candidatesOf (mk : Makefile) (chain : List Nat) (parts : Text × Text × Text) (id : Nat) :
    List Candidate :=
  if chain.contains id then []
  else if (mk.patternRuleAt id).commands.isEmpty then []
  else ((mk.patternRuleAt id).fits (parts.1 ++ parts.2.1) parts.2.2
    (mk.hasSpecific parts.2.2)).map (Candidate.mk id)

/-- The pattern rules that fit a target and may be used, in the order of the rules and, for one
rule, of its patterns. -/
def candidates (mk : Makefile) (name : Text) (chain : List Nat) : List Candidate :=
  mk.implicit.flatMap (mk.candidatesOf chain (name.partitionLast ['/']))

/-- The prerequisite is mentioned by name, or a file was found for it. -/
def Known (mk : Makefile) (p : Text) : Prop :=
  (mk.targetAt (properName p)).explicit = true ∨ (mk.targetAt (properName p)).found.isSome ∧
    ∃ time, (mk.targetAt (properName p)).mtime = some (some time)

/-- The prerequisite is not mentioned by name, and no file was found for it. -/
def Absent (mk : Makefile) (p : Text) : Prop :=
  (mk.targetAt (properName p)).explicit = false ∧ (mk.targetAt (properName p)).found.isSome ∧
    (mk.targetAt (properName p)).mtime = some none

/-- A prerequisite of the candidate is absent. -/
def Lacks (mk : Makefile) (c : Candidate) : Prop := ∃ p ∈ mk.prereqs c.ref, mk.Absent p

theorem Absent.not_known (h : mk.Absent p) : ¬ mk.Known p := by
  obtain ⟨he, -, ht⟩ := h
  rintro (h | ⟨-, time, h⟩)
  · simp [he] at h
  · simp [ht] at h

theorem mem_candidates {name : Text} {c : Candidate} (hc : c ∈ mk.candidates name chain) :
    mk.Makes c.ref ∧ c.id ∈ mk.implicit ∧ c.fit ∈ (mk.patternRuleAt c.id).fits
      ((name.partitionLast ['/']).1 ++ (name.partitionLast ['/']).2.1)
        (name.partitionLast ['/']).2.2
      (mk.hasSpecific (name.partitionLast ['/']).2.2) := by
  obtain ⟨id, hid, hc⟩ := mem_flatMap.1 hc
  unfold candidatesOf at hc
  split at hc
  · cases hc
  split at hc
  · cases hc
  · rename_i hcommands
    obtain ⟨fit, hfit, rfl⟩ := mem_map.1 hc
    exact ⟨⟨⟨id, hid, fit, rfl⟩, Bool.not_eq_true' _ ▸ Bool.eq_false_iff.2 hcommands⟩, hid, hfit⟩

end Makefile

/-- It is noted which file belongs to the target, or nothing is known of it. -/
def Target.IsSought (t : Target) : Prop := t.found.isSome ∨ t.mtime = none

/-- A search has gone on, without a rule for a target in `K`. -/
def Session.Searched (K : Text → Prop) (s s' : Session) : Prop :=
  s.makefile.Stays (fun _ => False) K s'.makefile

namespace Session.Searched

/-- What counts is the makefile. -/
theorem congr {s'' : Session} (h : s.Searched K s') (e : s''.makefile = s'.makefile) :
    s.Searched K s'' := by
  unfold Searched
  rw [e]
  exact h

theorem known (h : s.Searched K s') (hp : s.makefile.Known p) : s'.makefile.Known p := by
  refine hp.imp (fun he => ((h.target _).explicit).trans he) fun ⟨hf, time, ht⟩ => ?_
  obtain ⟨e1, e2, -⟩ := h.file (properName p) id hf
  exact ⟨by rw [e1]; exact hf, time, e2.trans ht⟩

theorem absent (h : s.Searched K s') (hp : s.makefile.Absent p) : s'.makefile.Absent p := by
  obtain ⟨he, hf, ht⟩ := hp
  obtain ⟨e1, e2, -⟩ := h.file (properName p) id hf
  exact ⟨((h.target _).explicit).trans he, by rw [e1]; exact hf, e2.trans ht⟩

theorem lacks {c : Candidate} (h : s.Searched K s') (hc : s.makefile.Lacks c) :
    s'.makefile.Lacks c := by
  obtain ⟨p, hp, ha⟩ := hc
  exact ⟨p, by rw [h.prereqs_eq]; exact hp, h.absent ha⟩

end Session.Searched

namespace MakeM

variable {name indent : Text} {stack : List Text} {resolve : Resolver}

/-- The prerequisites were made, one after the other. -/
inductive Made (resolve : Text → MakeM Unit) : List Text → Session → Session → Prop where
  | nil (s : Session) : Made resolve [] s s
  | cons {p : Text} {ps : List Text} {s s₁ s₂ s' : Session} :
    Gives (mention p) s (properName p) s₁ → Gives (resolve (properName p)) s₁ () s₂ →
      Made resolve ps s₂ s' → Made resolve (p :: ps) s s'

/-- How the search for a rule of a target ends: with a failure, in vain, with the first candidate
all of whose prerequisites are known, or, if all candidates lack one, with a candidate that is not
terminal and whose prerequisites could be made. -/
inductive Search (resolve : Resolver) (K : Text → Prop) (name : Text) (stack : List Text)
    (chain : List Nat) (s : Session) : Except Error Unit × Session → Prop where
  | failed {e : Error} {s' : Session} : s.Searched K s' →
    Search resolve K name stack chain s (.error e, s')
  | vain {s' : Session} :
      s.Searched K s' → (∀ c ∈ s.makefile.candidates name chain, s'.makefile.Lacks c) →
    Search resolve K name stack chain s (.ok (), s')
  | direct {before after : List Candidate} {c : Candidate} {s₁ s' : Session} :
    s.makefile.candidates name chain = before ++ c :: after → s.Searched K s₁ →
    (∀ b ∈ before, s₁.makefile.Lacks b) → (∀ p ∈ s₁.makefile.prereqs c.ref, s₁.makefile.Known p) →
    Gives (takeRule name (indentOf stack) c) s₁ () s' →
    Search resolve K name stack chain s (.ok (), s')
  | chained {c : Candidate} {s₁ s₂ s' : Session} :
    c ∈ s.makefile.candidates name chain → s.makefile.doubleColon c.ref = false → s.Searched K s₁ →
    (∀ b ∈ s.makefile.candidates name chain, s₁.makefile.Lacks b) →
    Made (resolve · stack (chain ++ [c.id])) (s.makefile.prereqs c.ref) s₁ s₂ → s₁.Searched K s₂ →
    Gives (takeRule name (indentOf stack) c) s₂ () s' →
    Search resolve K name stack chain s (.ok (), s')

theorem exists_gives_mapM {f : α → Computation σ β} {g : α → β} {I : σ → Prop}
    (hf : ∀ a s, I s → ∃ s', Gives (f a) s (g a) s' ∧ I s') (l : List α) {s : σ} (hs : I s) :
    ∃ s', Gives (l.mapM f) s (l.map g) s' ∧ I s' := by
  induction l generalizing s with
  | nil => exact ⟨s, rfl, hs⟩
  | cons a l ih =>
    obtain ⟨s1, h1, hs1⟩ := hf a s hs
    obtain ⟨s2, h2, hs2⟩ := ih hs1
    rw [mapM_cons]
    exact ⟨s2, gives_bind.2 ⟨_, _, h1, gives_bind.2 ⟨_, _, h2, rfl⟩⟩, hs2⟩

theorem candidates_gives (name indent : Text) (chain : List Nat) (s : Session) :
    ∃ s', Gives (candidates name indent chain) s (s.makefile.candidates name chain) s' ∧
      s'.makefile = s.makefile := by
  unfold Makefile.candidates candidates
  generalize name.partitionLast ['/'] = parts
  suffices hall : ∀ f, (∀ (id : Nat) (s1 : Session), s1.makefile = s.makefile →
      ∃ s', Gives (f id) s1 (s.makefile.candidatesOf chain parts id) s' ∧
      s'.makefile = s.makefile) →
      ∃ s', Gives (s.makefile.implicit.mapM f >>= fun found => pure found.flatten) s
        (s.makefile.implicit.flatMap (s.makefile.candidatesOf chain parts)) s' ∧
        s'.makefile = s.makefile by
    refine hall _ fun id s1 hs1 => ?_
    unfold candidatesOf
    split
    · exact ⟨_, rfl, hs1⟩
    dsimp only
    split <;> exact ⟨_, rfl, hs1⟩
  intro f hf
  obtain ⟨s', h, hs'⟩ := exists_gives_mapM hf s.makefile.implicit rfl
  exact ⟨s', gives_bind.2 ⟨_, _, h, rfl⟩, hs'⟩

/-- A target that was looked for has a file noted, unless it was never mentioned. -/
theorem findFile_gives (h : Gives (findFile name) s u s') :
    (s'.makefile.targetAt name).IsSought := by
  obtain ⟨t, s1, ht, h⟩ := h.of_bind
  obtain ⟨rfl, rfl⟩ := targetAt_gives ht
  extract_lets note look at h
  have hset : ∀ {file time s1}, Gives (setFound name file time) s1 u s' →
      (s'.makefile.targetAt name).IsSought := by
    intro file time s1 h
    have hmk : s'.makefile = s1.makefile.mapTarget name fun t =>
        { t with found := some file, mtime := some time } := by rw [← gives_modify.1 h]
    rw [hmk, Makefile.targetAt, Makefile.target?_mapTarget (by exact fun _ => rfl)]
    cases s1.makefile.target? name with
    | none => exact .inr rfl
    | some t => exact .inl (by simp)
  have hnote : ∀ {found s1}, Gives (note found) s1 u s' → (s'.makefile.targetAt name).IsSought := by
    intro found s1 h
    unfold note at h
    split at h <;> exact hset h
  have hlook : ∀ {libs s1}, Gives (look libs) s1 u s' → (s'.makefile.targetAt name).IsSought := by
    intro libs s1 h
    unfold look at h
    split at h
    · obtain ⟨_, _, -, h⟩ := h.of_bind
      obtain ⟨_, _, -, h⟩ := h.of_bind
      exact hnote h
    · obtain ⟨_, _, -, h⟩ := h.of_bind
      obtain ⟨_, _, -, h⟩ := h.of_bind
      obtain ⟨_, _, -, h⟩ := h.of_bind
      exact hnote h
  split at h
  · rename_i hfound
    cases h
    exact .inl hfound
  obtain ⟨_, _, -, h⟩ := h.of_bind
  split at h
  · obtain ⟨_, hf, -⟩ := h.of_pure
    exact hset hf
  split at h
  · obtain ⟨_, _, -, h⟩ := h.of_bind
    exact hlook h
  · obtain ⟨_, _, -, h⟩ := h.of_bind
    exact hlook h

theorem firstAbsent_gives {r : Option Text} (hs : s.makefile.finished = true)
    (h : Gives (firstAbsent ps) s r s') :
    (r = none → ∀ p ∈ ps, s'.makefile.Known p) ∧ ∀ p, r = some p → p ∈ ps ∧
    s'.makefile.Absent p := by
  induction ps generalizing s with
  | nil =>
    cases h
    exact ⟨fun _ => forall_mem_nil _, nofun⟩
  | cons p rest ih =>
    obtain ⟨n, s1, hn, h⟩ := h.of_bind
    obtain rfl := mention_gives hn
    obtain ⟨_, s2, hfile, h⟩ := h.of_bind
    obtain ⟨t, s3, ht, h⟩ := h.of_bind
    obtain ⟨rfl, rfl⟩ := targetAt_gives ht
    obtain ⟨time, hmtime, h⟩ := Gives.of_time h
    have hs2 : s2.makefile.finished = true := by
      have h1 : s.Searched (fun _ => False) s1 := (settles_mention p).of_gives hn hs
      have h2 : s1.Searched (fun _ => False) s2 :=
        (settles_findFile _).of_gives hfile (h1.finished hs)
      exact h2.finished (h1.finished hs)
    have hfound : (s2.makefile.targetAt (properName p)).found.isSome :=
      (findFile_gives hfile).resolve_right (by simp [hmtime])
    split at h
    · rename_i hc
      simp only [Bool.and_eq_true, Bool.not_eq_true', Option.isNone_iff_eq_none] at hc
      cases h
      refine ⟨nofun, fun q hq => ?_⟩
      cases hq
      exact ⟨mem_cons_self, hc.1, hfound, by rw [hmtime, hc.2]⟩
    · rename_i hc
      obtain ⟨ih1, ih2⟩ := ih hs2 h
      have hgo : s2.Searched (fun _ => False) s' :=
        (keeps_firstAbsent settles_mention settles_findFile rest).of_gives h hs2
      refine ⟨fun hr q hq => ?_, fun q hq => ⟨mem_cons_of_mem _ (ih2 q hq).1, (ih2 q hq).2⟩⟩
      rcases mem_cons.1 hq with rfl | hq
      · refine hgo.known ?_
        simp only [Bool.and_eq_true, Bool.not_eq_true', Option.isNone_iff_eq_none, not_and] at hc
        cases time with
        | none => exact .inl (by_contra fun he => hc (by simpa using he) rfl)
        | some time => exact .inr ⟨hfound, time, hmtime⟩
      · exact ih1 hr q hq

theorem log_gives (level : Level) (message : Text) (s : Session) :
    ∃ s', Gives (log level message) s () s' ∧ s'.makefile = s.makefile := ⟨_, rfl, rfl⟩

/-- Nothing can go wrong in taking a rule. -/
theorem takeRule_gives (name indent : Text) (c : Candidate) (s : Session) :
    ∃ s', Gives (takeRule name indent c) s () s' ∧
    s'.makefile = s.makefile.mapTarget name fun t => { t with rules := t.rules ++ [c.ref] } :=
  ⟨_, rfl, rfl⟩

theorem searched_firstAbsent (ps : List Text) :
    Keeps (Settles (fun _ => False) K) (firstAbsent ps) :=
  keeps_firstAbsent settles_mention settles_findFile ps

/-- The first candidate whose prerequisites are known is taken; all before it lack one. If all lack
one, those that are not terminal are left. -/
theorem takeDirect_cases (name indent : Text) (cs : List Candidate)
    (hs : s.makefile.finished = true) :
    (∃ e s', Fails (takeDirect name indent cs) s e s' ∧ s.Searched K s') ∨
    (∃ s', Gives (takeDirect name indent cs) s
        (some (cs.filter fun c => !s.makefile.doubleColon c.ref)) s' ∧
      s.Searched K s' ∧ ∀ c ∈ cs, s'.makefile.Lacks c) ∨
    ∃ before c after s1 s', cs = before ++ c :: after ∧ s.Searched K s1 ∧
      (∀ b ∈ before, s1.makefile.Lacks b) ∧ (∀ p ∈ s1.makefile.prereqs c.ref, s1.makefile.Known p) ∧
      Gives (takeRule name indent c) s1 () s' ∧ Gives (takeDirect name indent cs) s none s' := by
  induction cs generalizing s with
  | nil => exact .inr (.inl ⟨s, rfl, .refl _, forall_mem_nil _⟩)
  | cons c rest ih =>
    have hmk : Gives makefile s s.makefile s := rfl
    obtain ⟨r, s1, h1⟩ | ⟨e, s1, h1⟩ := gives_or_fails (firstAbsent (s.makefile.prereqs c.ref)) s
    · have hgo : s.Searched K s1 := (searched_firstAbsent _).of_gives h1 hs
      obtain ⟨hknown, habsent⟩ := firstAbsent_gives hs h1
      cases r with
      | none =>
        obtain ⟨s', hs', -⟩ := takeRule_gives name indent c s1
        refine .inr (.inr ⟨[], c, rest, s1, s', rfl, hgo, forall_mem_nil _, ?_, hs', ?_⟩)
        · rw [hgo.prereqs_eq]
          exact hknown rfl
        · exact gives_bind.2 ⟨_, _, hmk, gives_bind.2 ⟨_, _, h1, gives_bind.2 ⟨_, _, hs', rfl⟩⟩⟩
      | some p =>
        have hlacks : s1.makefile.Lacks c :=
          ⟨p, by rw [hgo.prereqs_eq]; exact (habsent p rfl).1, (habsent p rfl).2⟩
        -- the search goes on, and a candidate that is not terminal is put before what is left
        obtain ⟨s2, f, hs2, hf, hrun⟩ : ∃ (s2 : Session) (f : List Candidate → List Candidate),
            s2.makefile = s1.makefile ∧
            (∀ l, f (l.filter fun c => !s.makefile.doubleColon c.ref) =
              (c :: l).filter fun c => !s.makefile.doubleColon c.ref) ∧
            (takeDirect name indent (c :: rest)).run s =
              ((takeDirect name indent rest) >>= fun l => pure (l.map f)).run s2 := by
          have hrun : (takeDirect name indent (c :: rest)).run s = _ :=
            (hmk.run_bind _).trans (h1.run_bind _)
          dsimp only at hrun
          split at hrun
          · rename_i hd
            obtain ⟨s2, hlog, hs2⟩ := log_gives .info _ s1
            refine ⟨s2, id, hs2, fun l => by simp [hd], (hrun.trans (hlog.run_bind _)).trans ?_⟩
            simp only [Option.map_id, id, bind_pure]
          · rename_i hd
            exact ⟨s1, (c :: ·), rfl, fun l => by simp [hd], hrun⟩
        have hgo2 : s.Searched K s2 := hgo.congr hs2
        unfold Fails Gives
        rw [hrun]
        obtain ⟨e, s', h, hgo'⟩ | ⟨s', h, hgo', hall⟩ |
          ⟨before, d, after, s3, s', hsplit, hgo', hbefore, hd, htake, h⟩ := ih (hgo2.finished hs)
        · exact .inl ⟨e, s', fails_bind.2 (.inl h), hgo2.trans hgo'⟩
        · refine .inr (.inl ⟨s', ?_, hgo2.trans hgo', ?_⟩)
          · rw [h.run_bind, hs2, hgo.doubleColon_eq, ← hf]
            rfl
          · rintro d (_ | ⟨_, hd⟩)
            · exact hgo'.lacks (hs2 ▸ hlacks)
            · exact hall d hd
        · refine .inr
            (.inr ⟨c :: before, d, after, s3, s', by rw [hsplit]; rfl, hgo2.trans hgo', ?_,
              hd, htake, ?_⟩)
          · rintro b (_ | ⟨_, hb⟩)
            · exact hgo'.lacks (hs2 ▸ hlacks)
            · exact hbefore b hb
          · exact h.run_bind _
    · exact .inl ⟨e, s1, fails_bind.2 (.inr ⟨_, _, hmk, fails_bind.2 (.inl h1)⟩),
        (searched_firstAbsent _).of_fails h1 hs⟩

section Resolver

variable (hr : ∀ n ch, Keeps (Settles (fun _ => False) K) (resolve n stack ch))
include hr

theorem searched_firstFailing (chain : List Nat) (ps : List Text) :
    Keeps (Settles (fun _ => False) K) (firstFailing resolve stack chain ps) := by
  induction ps with
  | nil => exact keeps_pure _
  | cons p rest ih =>
    refine keeps_bind (settles_mention p) fun name => keeps_bind (keeps_tryCatch ?_ fun e => ?_)
      fun failed => ?_
    · exact keeps_return (hr name chain)
    · split
      · exact keeps_pure _
      · exact keeps_throw _
    · split
      · exact keeps_pure _
      · exact ih

omit hr in
theorem firstFailing_gives (h : Gives (firstFailing resolve stack chain ps) s none s') :
    Made (resolve · stack chain) ps s s' := by
  induction ps generalizing s with
  | nil =>
    obtain ⟨-, rfl⟩ := gives_pure.1 h
    exact .nil s
  | cons p rest ih =>
    obtain ⟨n, s1, hn, h⟩ := h.of_bind
    obtain rfl := mention_gives hn
    obtain ⟨failed, s2, hfailed, h⟩ := h.of_bind
    split at h
    · cases h
    rename_i hf
    refine .cons hn ?_ (ih h)
    rcases gives_tryCatch.1 hfailed with h' | ⟨e, s3, -, h'⟩
    · obtain ⟨_, h3, -⟩ := h'.of_pure
      exact h3
    · split at h'
      · exact absurd (gives_pure.1 h').1.symm hf
      · cases h'

theorem takeChained_cases (name indent : Text) (chain : List Nat) (cs : List Candidate)
    (hs : s.makefile.finished = true) :
    (∃ e s', Fails (takeChained resolve name indent stack chain cs) s e s' ∧ s.Searched K s') ∨
    (∃ s', Gives (takeChained resolve name indent stack chain cs) s false s' ∧ s.Searched K s') ∨
    ∃ c ∈ cs, ∃ s1 s2 s', s.Searched K s1 ∧
      Made (resolve · stack (chain ++ [c.id])) (s.makefile.prereqs c.ref) s1 s2 ∧ s1.Searched K s2 ∧
      Gives (takeRule name indent c) s2 () s' ∧
      Gives (takeChained resolve name indent stack chain cs) s true s' := by
  induction cs generalizing s with
  | nil => exact .inr (.inl ⟨s, rfl, .refl _⟩)
  | cons c rest ih =>
    have hmk : Gives makefile s s.makefile s := rfl
    have hkeeps := searched_firstFailing hr (chain ++ [c.id]) (s.makefile.prereqs c.ref)
    obtain ⟨r, s1, h1⟩ | ⟨e, s1, h1⟩ :=
      gives_or_fails (firstFailing resolve stack (chain ++ [c.id]) (s.makefile.prereqs c.ref)) s
    · have hgo : s.Searched K s1 := hkeeps.of_gives h1 hs
      cases r with
      | none =>
        obtain ⟨s', hs', -⟩ := takeRule_gives name indent c s1
        refine .inr
          (.inr ⟨c, mem_cons_self, s, s1, s', .refl _, firstFailing_gives h1, hgo, hs', ?_⟩)
        exact gives_bind.2 ⟨_, _, hmk, gives_bind.2 ⟨_, _, h1, gives_bind.2 ⟨_, _, hs', rfl⟩⟩⟩
      | some p =>
        obtain ⟨s2, hlog, hs2⟩ := log_gives .info (indent ++ " Rule at " ++
          Location.optionText (s.makefile.locOf c.ref) ++ " doesn't match: prerequisite '" ++ p ++
          "' could not be made.") s1
        have hrun : (takeChained resolve name indent stack chain (c :: rest)).run s =
            (takeChained resolve name indent stack chain rest).run s2 :=
          (hmk.run_bind _).trans ((h1.run_bind _).trans (hlog.run_bind _))
        have hgo2 : s.Searched K s2 := hgo.congr hs2
        unfold Fails Gives
        rw [hrun]
        obtain ⟨e, s', h, hgo'⟩ | ⟨s', h, hgo'⟩ | ⟨d, hd, s3, s4, s', hgo', hmade,
          hgo'', htake, h⟩ :=
          ih (hgo2.finished hs)
        · exact .inl ⟨e, s', h, hgo2.trans hgo'⟩
        · exact .inr (.inl ⟨s', h, hgo2.trans hgo'⟩)
        · rw [hgo2.prereqs_eq] at hmade
          exact .inr
            (.inr ⟨d, mem_cons_of_mem _ hd, s3, s4, s', hgo2.trans hgo', hmade, hgo'', htake, h⟩)
    · exact .inl ⟨e, s1, fails_bind.2 (.inr ⟨_, _, hmk, fails_bind.2 (.inl h1)⟩),
        hkeeps.of_fails h1 hs⟩

/-- **How the search for a rule ends.** -/
theorem findRule_cases (name : Text) (chain : List Nat) (hs : s.makefile.finished = true) :
    Search resolve K name stack chain s ((findRule resolve name stack chain).run s) := by
  obtain ⟨s0, hlog, hs0⟩ := log_gives .info
    (indentOf stack ++ "Searching for implicit rule to make '" ++ name ++ "'") s
  obtain ⟨s1, hcs, hs1⟩ := candidates_gives name (indentOf stack) chain s0
  rw [hs0] at hcs hs1
  have hgo : s.Searched K s1 := .congr (.refl _) hs1
  have hrun : (findRule resolve name stack chain).run s = _ :=
    (hlog.run_bind _).trans (hcs.run_bind _)
  rw [hrun]
  obtain ⟨e, s', h, hgo'⟩ | ⟨s2, h, hgo', hall⟩ |
    ⟨before, c, after, s2, s', hsplit, hgo', hbefore, hc, htake, h⟩ :=
    takeDirect_cases (K := K) name (indentOf stack) (s.makefile.candidates name chain)
      (hgo.finished hs)
  · rw [show _ = _ from fails_bind.2 (.inl h)]
    exact .failed (hgo.trans hgo')
  · rw [h.run_bind]
    obtain ⟨e, s', h, hgo''⟩ | ⟨s3, h, hgo''⟩ | ⟨c, hc, s3, s4, s', hgo'', hmade, hgo4, htake, h⟩ :=
      takeChained_cases hr name (indentOf stack) chain
        ((s.makefile.candidates name chain).filter fun c => !s1.makefile.doubleColon c.ref)
        (hgo'.finished (hgo.finished hs))
    · rw [show _ = _ from fails_bind.2 (.inl h)]
      exact .failed ((hgo.trans hgo').trans hgo'')
    · obtain ⟨s', hlog, hs'⟩ := log_gives .info
        (indentOf stack ++ "Couldn't find implicit rule to remake '" ++ name ++ "'") s3
      rw [h.run_bind]
      show Search _ _ _ _ _ _ (ExceptT.run (log _ _) s3)
      rw [show _ = _ from hlog]
      have hgo3 : s2.Searched K s' := hgo''.congr hs'
      exact .vain ((hgo.trans hgo').trans hgo3) fun c hc => hgo3.lacks (hall c hc)
    · obtain ⟨hmem, hopen⟩ := mem_filter.1 hc
      rw [h.run_bind]
      refine .chained hmem ?_ ((hgo.trans hgo').trans hgo'') (fun b hb => hgo''.lacks (hall b hb))
        ?_ hgo4 htake
      · rw [← hs1]
        simpa using hopen
      · rw [← (hgo.trans hgo').prereqs_eq]
        exact hmade
  · rw [h.run_bind]
    exact .direct hsplit (hgo.trans hgo') hbefore hc htake

end Resolver

theorem searched_takeRule {c : Candidate} (hc : s.makefile.Makes c.ref)
    (hz : s.makefile.recipeCount (s.makefile.targetAt name) = 0) (hK : ¬ K name)
    (h : Gives (takeRule name indent c) s () s') : s.Searched K s' := by
  obtain ⟨s1, h1, hs1⟩ := takeRule_gives name indent c s
  obtain rfl := (h1.unique h).2
  unfold Session.Searched
  rw [hs1]
  exact .mapTarget (fun _ => rfl) ⟨rfl, fun _ => id, fun _ _ => ⟨rfl, rfl, rfl⟩,
    .inr ⟨hK, hz, _, hc, rfl⟩⟩

/-- The search for a rule of a target that has no recipe gives a rule to it and to others, but to
none that is held. -/
theorem searched_findRule
    (hr : ∀ n ch, Keeps (Settles (fun _ => False) fun t => K t ∨ t = name) (resolve n stack ch))
    (hs : s.makefile.finished = true) (hz : s.makefile.recipeCount (s.makefile.targetAt name) = 0)
    (hK : ¬ K name) : s.Searched K ((findRule resolve name stack chain).run s).2 := by
  have hheld : ∀ {s'}, s.Searched (fun t => K t ∨ t = name) s' → s.Searched K s' :=
    fun h => h.mono (fun _ => id) fun _ => .inl
  have htake : ∀ {c s1 s'}, s.Searched (fun t => K t ∨ t = name) s1 →
      c ∈ s.makefile.candidates name chain → Gives (takeRule name (indentOf stack) c) s1 () s' →
      s.Searched K s' := by
    intro c s1 s' hgo hc h
    have hrules := (hgo.target name).rule.resolve_right fun h => h.1 (.inr rfl)
    refine (hheld hgo).trans (searched_takeRule ?_ ?_ hK h)
    · exact (hgo.makes_iff _).2 (mem_candidates hc).1
    · rw [hgo.recipeCount_eq]
      unfold recipeCount at hz ⊢
      rwa [hrules]
  have hend := findRule_cases hr name chain hs
  generalize (findRule resolve name stack chain).run s = r at hend ⊢
  cases hend with
  | failed hgo => exact hheld hgo
  | vain hgo => exact hheld hgo
  | direct hsplit hgo _ _ h =>
    exact htake hgo (hsplit ▸ mem_append_right _ mem_cons_self) h
  | chained hc _ hgo _ _ hgo' h => exact htake (hgo.trans hgo') hc h

theorem settles_mergePatterns (name : Text) : Keeps (Settles F K) (mergePatterns name) := by
  refine keeps_bind keeps_makefile fun mk => keeps_forM fun p s => keeps_bind_makefile s ?_
  exact onScopes_at fun _ => .of_scopes fun n hn => ScopeM.keeps_merge _ _ (hn p)
    (s.makefile.scopes, [])

/-- A search gives no rules to the targets on the stack. -/
theorem searched_searchFor {resolve : Resolver} (hK : ∀ t, K t → t ∈ stack)
    (hr : ∀ (K : Text → Prop) n ch, (∀ t, K t → t ∈ stack ++ [name]) →
      Keeps (Settles (fun _ => False) K) (resolve n (stack ++ [name]) ch)) (deep : Bool)
    (chain : List Nat) :
    Keeps (Settles (fun _ => False) K) (searchFor resolve deep name stack chain) := by
  have hrK := fun n ch => hr K n ch fun t ht => mem_append_left _ (hK t ht)
  refine keeps_bind keeps_makefile fun mk => ?_
  extract_lets st prereqs rule search enter
  have hprereqs : ∀ u, Keeps (Settles (fun _ => False) K) (prereqs u) := by
    intro u
    unfold prereqs
    split
    · refine keeps_bind (keeps_targetAt name) fun t => keeps_forM fun r => ?_
      refine keeps_bind keeps_makefile fun mk => keeps_forM fun p => ?_
      refine keeps_bind (settles_mention p) fun dep => keeps_bind (keeps_targetAt dep) fun d => ?_
      split
      · exact hrK _ _
      · exact keeps_pure _
    · exact keeps_pure _
  have hrule : ∀ u, Keeps (Settles (fun _ => False) K) (rule u) := by
    intro u
    refine keeps_bind (keeps_targetAt name) fun t => keeps_bind (keeps_ofExcept _) fun time => ?_
    split
    · exact keeps_bind (keeps_throw _) hprereqs
    · exact hprereqs ()
  have hsearch : name ∉ stack → Keeps (Settles (fun _ => False) K) (search ()) := by
    intro hname
    refine keeps_bind (keeps_log _ _) fun _ => keeps_bind (settles_findFile name) fun _ => ?_
    intro s
    -- the number of recipes is taken from the makefile as it is here
    refine keeps_bind_makefile s ?_
    extract_lets t recipes find
    have hfind : Settles (fun _ => False) K s ((find ()).run s).2 := by
      unfold find
      split
      · rename_i hz
        refine keeps_bind_at (fun hs => searched_findRule (fun n ch => hr _ n ch ?_) hs
          (by simpa using hz) (mt (hK name) hname)) hrule
        rintro t (ht | rfl)
        · exact mem_append_left _ (hK t ht)
        · exact mem_append_right _ (mem_singleton.2 rfl)
      · exact hrule () s
    split
    · split
      · exact keeps_throw _ s
      · exact hfind
    · exact hfind
  split
  · exact keeps_throw _
  · unfold enter
    split
    · exact keeps_throw _
    · exact hsearch (by simpa using ‹¬ stack.contains name = true›)

/-- **What a search keeps**, however it ends: a target without a recipe that is not on the stack may
be given one pattern rule, and no rules change otherwise. -/
theorem searched_resolveTo (fuel : Nat) (deep : Bool) (name : Text) (stack : List Text)
    (chain : List Nat)
    (hK : ∀ t, K t → t ∈ stack) :
    Keeps (Settles (fun _ => False) K) (resolveTo fuel deep name stack chain) := by
  induction fuel generalizing deep name stack chain K with
  | zero => exact keeps_throw _
  | succ fuel ih =>
    exact keeps_bind (searched_searchFor hK (fun _ n ch h => ih true n _ ch h) deep chain) fun _ =>
      settles_mergePatterns name

theorem settles_resolve (name : Text) (stack : List Text) (deep : Bool) :
    Keeps (Settles F fun _ => False) (MakeM.resolve name stack deep) := by
  refine keeps_bind keeps_makefile fun mk s hs => ?_
  exact (searched_resolveTo mk.depth deep name stack [] (fun _ => False.elim) s hs).mono
    (fun _ => False.elim)
    fun _ => id

/-- No target is looked for while a makefile is being read. -/
theorem resolve_breaks (hf : s.makefile.finished = false) (name : Text) (stack : List Text)
    (deep : Bool) :
    ∃ k, Fails (MakeM.resolve name stack deep) s (.breach k) s := by
  have hrun : (MakeM.resolve name stack deep).run s =
      (resolveTo s.makefile.depth deep name stack []).run s := rfl
  unfold Fails
  rw [hrun]
  cases s.makefile.depth with
  | zero => exact ⟨_, rfl⟩
  | succ fuel =>
    refine ⟨.assertion, fails_bind.2 (.inl (fails_bind.2 (.inr ⟨s.makefile, s, rfl, ?_⟩)))⟩
    rw [hf]
    rfl

/-- What a search in a finished makefile keeps, any search keeps: it does nothing in a makefile that
is still being read. -/
theorem keeps_resolve [IsPreorder Session R]
    (hR : ∀ {s s'}, s.Searched (fun _ => False) s' → R s s') (name : Text) (stack : List Text)
    (deep : Bool) : Keeps R (MakeM.resolve name stack deep) := by
  intro s
  by_cases hf : s.makefile.finished = true
  · exact hR (settles_resolve name stack deep s hf)
  · obtain ⟨k, hfails⟩ := resolve_breaks (by simpa using hf) name stack deep
    rw [hfails]
    exact refl_of R s

theorem sameHabits_resolve (name : Text) (stack : List Text) (deep : Bool) :
    Keeps SameHabits (MakeM.resolve name stack deep) :=
  keeps_resolve (fun h => by unfold SameHabits; rw [h.same]) name stack deep

end MakeM

end Rebuild
