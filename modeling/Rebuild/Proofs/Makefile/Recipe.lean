import Rebuild.Build.Target
import Rebuild.Proofs.Makefile.Search
/-!
# Rules and recipes of a resolved target

A target that was resolved has been looked for, in a makefile all of which was read. The rules to
be worked on are read off the makefile: for a double-colon target one for each of its rules, else
one with the prerequisites of all of them. Neither this nor the evaluation of a recipe changes
what is known of targets.
-/

namespace Rebuild

open List Makefile

variable {R : Session → Session → Prop} {s s' : Session}

namespace Recipe

open MakeM

section

variable [EvaluationFrame R]

theorem keeps_joinFound (files : List (Option Text)) (f : Text → Text) :
    Keeps R (joinFound files f) := by
  unfold joinFound
  split
  · exact keeps_pure _
  · exact keeps_throw _

theorem keeps_automatic (sc : Scope) (name : Text) (files : List (Option Text)) :
    Keeps R (automatic sc name files) := by
  refine keeps_bind (keeps_joinFound _ _) fun a => keeps_bind (Scope.keeps_define _ _ _)
    fun sc => ?_
  refine keeps_bind (keeps_joinFound _ _) fun d => keeps_bind (Scope.keeps_define _ _ _)
    fun sc => ?_
  exact keeps_bind (keeps_joinFound _ _) fun f => Scope.keeps_define _ _ _

theorem keeps_isNewer (target dep : Target) : Keeps R (isNewer target dep) := by
  refine keeps_bind (keeps_ofExcept _) fun time => ?_
  cases time with
  | none => exact keeps_pure _
  | some t => exact keeps_return (keeps_ofExcept _)

theorem keeps_automatics (hm : ∀ name, Keeps R (mention name)) (sc : Scope) (name : Text)
    (prereqs : List Text) : Keeps R (automatics sc name prereqs) := by
  refine keeps_bind (keeps_mapM hm) fun names => keeps_bind (keeps_targetAt name) fun target => ?_
  refine keeps_bind keeps_makefile fun mk => ?_
  refine keeps_bind (keeps_filterM fun n => keeps_isNewer _ _) fun newer => ?_
  refine keeps_bind (keeps_automatic _ _ _) fun sc => ?_
  extract_lets rest
  have hrest : ∀ sc, Keeps R (rest sc) := fun sc =>
    keeps_bind (keeps_automatic _ _ _) fun sc => keeps_bind (keeps_automatic _ _ _) fun sc =>
      keeps_automatic _ _ _
  split
  · exact keeps_bind (keeps_automatic _ _ _) hrest
  · exact keeps_bind (keeps_pure _) hrest

theorem keeps_scope (hm : ∀ name, Keeps R (mention name)) (name : Text) (r : RuleRef) :
    Keeps R (scope name r) := by
  refine keeps_bind keeps_makefile fun mk => keeps_bind (keeps_automatics hm _ _ _) fun sc => ?_
  cases stemOf r with
  | none => exact keeps_pure _
  | some stem => exact keeps_automatic _ _ _

variable (hb : ∀ n, (Below.levels n).KeepsFrame R)
include hb

theorem keeps_nativePath (sc : Scope) : Keeps R (nativePath sc) := by
  refine keeps_bind (sc.keeps_lookup _) fun v => ?_
  cases v with
  | none => exact keeps_pure _
  | some v => exact keeps_return (keeps_expand hb _ _ _)

theorem keeps_lineOf (sc : Scope) (env : Env) (loc : Option Location) (s : Text) :
    Keeps R (lineOf sc env loc s) := by
  refine keeps_bind keeps_makefile fun mk => ?_
  rcases marks s with ⟨line, m⟩
  dsimp only
  split
  · exact keeps_return (keeps_map (keeps_nativePath hb sc))
  · exact keeps_return (keeps_pure _)

theorem keeps_subEnvironment (sc : Scope) : Keeps R (subEnvironment sc) := by
  refine keeps_bind keeps_makefile fun mk => ?_
  refine keeps_return (keeps_foldlM (fun env p => ?_) _)
  rcases p with ⟨name, yes⟩
  dsimp only
  split
  · refine keeps_bind (sc.keeps_lookup name) fun v => ?_
    cases v with
    | none => exact keeps_pure _
    | some v => exact keeps_return (keeps_expand hb _ _ _)
  · exact keeps_pure _

theorem keeps_lines (hm : ∀ name, Keeps R (mention name)) (name : Text) (r : RuleRef) :
    Keeps R (lines name r) := by
  refine keeps_bind keeps_makefile fun mk => keeps_bind (keeps_scope hm name r) fun sc => ?_
  refine keeps_bind (keeps_subEnvironment hb sc) fun env => ?_
  refine keeps_return (keeps_mapM fun c => ?_)
  exact keeps_bind (keeps_expand hb _ _ _) fun s => keeps_mapM fun l => keeps_lineOf hb _ _ _ l

end

end Recipe

/-! ## Mentioned targets -/

/-- Nothing happened but that targets were mentioned. -/
def Mentions (s s' : Session) : Prop :=
  ∃ names : List Text,
    s'.makefile = { s.makefile with targets := s.makefile.targets ++ names.map .new }

instance : IsPreorder Session Mentions where
  refl s := ⟨[], by simp⟩
  trans s₁ s₂ s₃ := by
    rintro ⟨ns₁, h₁⟩ ⟨ns₂, h₂⟩
    refine ⟨ns₁ ++ ns₂, ?_⟩
    rw [h₂, h₁]
    simp

theorem Mentions.targetAt (h : Mentions s s') (t : Text) :
    s'.makefile.targetAt t = s.makefile.targetAt t := by
  obtain ⟨ns, h⟩ := h
  rw [h]
  unfold Makefile.targetAt Makefile.target?
  rw [find?_append]
  cases s.makefile.targets.find? fun x => x.name == t with
  | some x => rfl
  | none =>
    -- a new target of the name is the one that an unknown name stands for
    cases hx : (ns.map Target.new).find? fun x => x.name == t with
    | none => rfl
    | some x =>
      obtain ⟨n, -, rfl⟩ := mem_map.1 (mem_of_find?_eq_some hx)
      have hn : n = t := by simpa [Target.new] using find?_some hx
      rw [hn]
      rfl

theorem Mentions.prereqs (h : Mentions s s') (r : RuleRef) :
    s'.makefile.prereqs r = s.makefile.prereqs r := by
  obtain ⟨ns, h⟩ := h
  rw [h]
  cases r <;> rfl

theorem MakeM.keeps_mention_mentions (name : Text) : Keeps Mentions (mention name) :=
  keeps_mention_of (fun _ n => ⟨[n], rfl⟩) name

/-- The prerequisites that the recipe of a rule must wait for: those of the rule for a double-colon
target, else those of all rules of the target, without the weak ones. -/
def Makefile.strongPrereqs (mk : Makefile) (t : Target) (r : RuleRef) : List Text :=
  match mk.isDoubleColon t with
  | .ok true => mk.prereqs r
  | _ => (t.rules.filter fun r => !mk.isWeak r).flatMap mk.prereqs

namespace RunM

open MakeM

section

variable (hm : ∀ name, Keeps R (mention name))
include hm

theorem keeps_depsOf [IsPreorder Session R] (r : RuleRef) (weak : Bool) : Keeps R (depsOf r weak) :=
  keeps_bind keeps_makefile fun _ => keeps_mapM fun p => keeps_return (hm p)

theorem keeps_gatherRule [IsPreorder Session R]
    (mk : Makefile) (gathered : Option RuleRef × List (Text × Bool)) (r : RuleRef) :
    Keeps R (gatherRule mk gathered r) := by
  refine keeps_bind (keeps_depsOf hm r _) fun more => ?_
  split
  · split
    · exact keeps_throw _
    · exact keeps_pure _
  · exact keeps_pure _

theorem keeps_ruleWorks [IsPreorder Session R] (name : Text)
    (stack : List Text) (avoidLoop : Bool) : Keeps R (ruleWorks name stack avoidLoop) := by
  refine keeps_bind keeps_makefile fun mk => keeps_bind (keeps_ofExcept _) fun dc => ?_
  split
  · exact keeps_mapM fun r => keeps_return (keeps_depsOf hm r false)
  · exact keeps_return (keeps_foldlM (keeps_gatherRule hm mk) _)

end

variable {r : RuleRef} {mk : Makefile} {t : Target}

theorem depsOf_gives {weak : Bool} {ds : List (Text × Bool)} (h : Gives (depsOf r weak) s ds s') :
    ds = (s.makefile.prereqs r).map fun p => (properName p, weak) := by
  replace h := h.of_makefile
  refine (gives_mapM_of (I := fun _ => True) (fun p s d s' _ h => ?_) trivial h).1
  obtain ⟨n, s2, hn, h⟩ := h.of_bind
  rw [← (gives_pure.1 h).1, mention_gives hn]
  exact ⟨rfl, trivial⟩

/-- The prerequisites of a rule by their proper names, with whether they are weak. -/
def depsIn (mk : Makefile) (r : RuleRef) : List (Text × Bool) :=
  (mk.prereqs r).map fun p => (properName p, mk.isWeak r)

/-- The prerequisites of rules, those of rules with a recipe first. -/
def gathered (mk : Makefile) (rs : List RuleRef) : List (Text × Bool) :=
  (rs.filter mk.hasCommands).flatMap (depsIn mk) ++ (rs.filter fun r => !mk.hasCommands r).flatMap
  (depsIn mk)

theorem mem_gathered {rs : List RuleRef} {d : Text × Bool} :
    d ∈ gathered mk rs ↔ ∃ r ∈ rs, d ∈ depsIn mk r := by
  simp only [gathered, mem_append, mem_flatMap, mem_filter]
  constructor
  · rintro (⟨r, ⟨hr, -⟩, hd⟩ | ⟨r, ⟨hr, -⟩, hd⟩) <;> exact ⟨r, hr, hd⟩
  · rintro ⟨r, hr, hd⟩
    cases hc : mk.hasCommands r with
    | true => exact .inl ⟨r, ⟨hr, hc⟩, hd⟩
    | false => exact .inr ⟨r, ⟨hr, by rw [hc]; rfl⟩, hd⟩

/-- Gathering rules puts their prerequisites together, with the one rule that may have a recipe. -/
theorem gatherRule_gives {rs : List RuleRef} {acc acc' : Option RuleRef × List (Text × Bool)}
    (hmk : ∀ r, s.makefile.prereqs r = mk.prereqs r)
    (h : Gives (rs.foldlM (gatherRule mk) acc) s acc' s') :
    acc.1.toList ++ rs.filter mk.hasCommands = acc'.1.toList ∧
      acc'.2 = (rs.filter mk.hasCommands).flatMap (depsIn mk) ++ acc.2 ++
        (rs.filter fun r => !mk.hasCommands r).flatMap (depsIn mk) := by
  induction rs generalizing s acc with
  | nil =>
    cases h
    simp
  | cons r rs ih =>
    rw [foldlM_cons] at h
    obtain ⟨acc1, s1, h1, h⟩ := h.of_bind
    obtain ⟨more, s2, h2, h1⟩ := h1.of_bind
    have hm : Mentions s s2 := (keeps_depsOf keeps_mention_mentions r _).of_gives h2
    have hmore : more = depsIn mk r := by rw [depsOf_gives h2, hmk, depsIn]
    subst hmore
    split at h1
    · rename_i hc
      split at h1
      · exact absurd h1 (by simp)
      · rename_i hn
        cases h1
        obtain ⟨ihrule, ihdeps⟩ := ih (fun r => (hm.prereqs r).trans (hmk r)) h
        -- a second rule with a recipe would have been refused
        have hnone : rs.filter mk.hasCommands = [] := by
          cases hrule : acc'.1 with
          | none => simp [hrule] at ihrule
          | some q => exact (List.cons.inj (hrule ▸ ihrule)).2
        rw [hnone] at ihrule ihdeps
        rw [ihdeps, ← ihrule, filter_cons_of_pos hc, hnone, show acc.1 = none by simpa using hn]
        simp [hc]
    · rename_i hc
      cases h1
      obtain ⟨ihrule, ihdeps⟩ := ih (fun r => (hm.prereqs r).trans (hmk r)) h
      rw [ihdeps, ← ihrule]
      simp [hc]

theorem isDoubleColon_ok {c : Bool} :
    mk.isDoubleColon t = .ok c ↔ t.rules.head?.map mk.doubleColon = some c := by
  unfold isDoubleColon
  cases t.rules <;> simp

end RunM

/-- What is to be done with the rules of a target. Those of a double-colon target are seen to one by
one, each with its prerequisites; those of any other target together, with the prerequisites of all
of them and the recipe of the one that has it. -/
inductive Makefile.Plans (mk : Makefile) (rules : List RuleRef) :
    List (Option RuleRef × List (Text × Bool)) → Prop
  | each (double : rules.head?.map mk.doubleColon = some true) :
      Plans mk rules
        (rules.map fun r => (some r, (mk.prereqs r).map fun p => (properName p, false)))
  | together {rule : Option RuleRef} (single : rules.head?.map mk.doubleColon = some false)
      (recipe : rules.filter mk.hasCommands = rule.toList) :
      Plans mk rules [(rule, RunM.gathered mk rules)]

theorem Makefile.Plans.ne_nil {mk : Makefile} {rules : List RuleRef}
    {plan : List (Option RuleRef × List (Text × Bool))} (h : mk.Plans rules plan) : plan ≠ [] := by
  cases h with
  | each double => cases rules <;> simp at double ⊢
  | together => exact cons_ne_nil _ _

theorem Makefile.Plans.of_same {mk mk' : Makefile} {rules : List RuleRef}
    {plan : List (Option RuleRef × List (Text × Bool))} (h : mk.Plans rules plan)
    (hmk : mk' = { mk with scopes := mk'.scopes, targets := mk'.targets }) :
    mk'.Plans rules plan := by
  rw [hmk]
  cases h with
  | each double => exact .each double
  | together single recipe => exact .together single recipe

namespace RunM

open MakeM

variable {r : RuleRef} {mk : Makefile} {t : Target} {name : Text} {rules : List RuleWork}
  {stack : List Text} {avoidLoop : Bool}

/-- The prerequisites of all rules are gathered, with whether they are weak. -/
theorem strong_mem_gathered {p : Text} (hd : mk.isDoubleColon t = .ok false)
    (hp : p ∈ mk.strongPrereqs t r) : (properName p, false) ∈ gathered mk t.rules := by
  simp only [strongPrereqs, hd, mem_flatMap, mem_filter] at hp
  obtain ⟨r', ⟨hr', hw⟩, hp⟩ := hp
  refine mem_gathered.2 ⟨r', hr', mem_map.2 ⟨p, hp, ?_⟩⟩
  rw [show mk.isWeak r' = false by simpa using hw]

/-- **The rules that a target is worked on with** are as the makefile has them, and not begun. -/
theorem ruleWorks_gives (h : Gives (ruleWorks name stack avoidLoop) s rules s') :
    s.makefile.Plans (s.makefile.targetAt name).rules (rules.map fun x => (x.rule, x.deps)) ∧
      ∀ x ∈ rules, ∃ rule deps, x = newRuleWork rule deps stack avoidLoop := by
  replace h := h.of_makefile
  obtain ⟨dc, hdc, h⟩ := h.of_ofExcept
  rw [isDoubleColon_ok] at hdc
  cases dc with
  | true =>
    obtain ⟨rfl, -⟩ := gives_mapM_of (I := Mentions s) (g := fun r => newRuleWork (some r)
      ((s.makefile.prereqs r).map fun p => (properName p, false)) stack avoidLoop)
      (fun r s1 x s2 hm h => by
        obtain ⟨ds, hds, rfl⟩ := h.of_pure
        rw [depsOf_gives hds, hm.prereqs]
        exact ⟨rfl, trans_of _ hm ((keeps_depsOf keeps_mention_mentions r _).of_gives hds)⟩)
          (refl_of _ _) h
    refine ⟨?_, fun x hx => ?_⟩
    · rw [map_map]
      exact .each hdc
    · obtain ⟨r, -, rfl⟩ := mem_map.1 hx
      exact ⟨_, _, rfl⟩
  | false =>
    obtain ⟨⟨rule, deps⟩, s1, hp, h⟩ := h.of_bind
    cases h
    obtain ⟨hrule, hdeps⟩ := gatherRule_gives (fun _ => rfl) hp
    refine ⟨?_, fun x hx => ⟨_, _, mem_singleton.1 hx⟩⟩
    rw [show deps = _ from hdeps, append_nil]
    exact .together hdc hrule

end RunM

end Rebuild
