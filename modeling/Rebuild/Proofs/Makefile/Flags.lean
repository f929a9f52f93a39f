import Rebuild.Proofs.Automatic
import Rebuild.Proofs.Expansion.Beginning
import Rebuild.Proofs.Makefile.Overrides
import Rebuild.Proofs.Options
/-!
# Makefiles of dry runs

In a dry run commands are only printed, and makes below are to be dry runs, too. A makefile says so
in its habits and in the flags that it exports (`Makefile.IsDry`). It does from its start on
(`start_dry`), as long as it is read without touching the flags (`Makefile.SameFlags`), and nothing
that is done after that changes it (`Makefile.IsDry.stays`). Every line of a recipe is then printed,
and has an environment in which a make is a dry run (`Recipe.lines_dry`).
-/

namespace Rebuild

open List

variable {v : Text} {sc : Scope} {s s' : Session}

/-! ## Values of the flags -/

variable {o : Options} {e : Expansion} {env : Env}

namespace Expansion

/-- Whatever the value of an expansion is, it has the letters of options in front. -/
def Tells (o : Options) (e : Expansion) : Prop :=
  (∃ loc, e = .literal o.letters loc) ∨ e.Begins (o.letters ++ [' '])

theorem tells_of_passes {path : Text} (h : o.Passes v) (he : (parseText v path).outcome.1 = .ok e) :
    e.Tells o := by
  have hplain : ∀ c ∈ o.letters ++ [' '], c ∉ Token.starts := by
    have hall : ∀ c ∈ ['k', 'w', 's', 'n', 'd'] ++ [' '], c ∉ Token.starts := by decide
    intro c hc
    refine hall c ?_
    rcases mem_append.1 hc with hc | hc
    · exact mem_append_left _ (Options.mem_letters hc)
    · exact mem_append_right _ hc
  obtain ⟨x, rfl, hx⟩ := h
  cases x with
  | nil =>
    obtain ⟨loc, hparse⟩ := parseText_inert
      (fun c hc => hplain c (mem_append_left _ hc)) path
    rw [append_nil, hparse] at he
    cases he
    exact .inl ⟨loc, rfl⟩
  | cons c x =>
    rw [hx c rfl, append_cons] at he
    rcases hrun : (parseText (o.letters ++ [' '] ++ x) path).run [] with ⟨r, ns⟩
    rw [ParseM.outcome, hrun] at he
    cases he
    exact .inr (parseText_begins hplain hrun)

end Expansion

namespace Evaluate

variable {b : Below} {setting : List Text}

theorem expansion_begins {p : Text} (he : e.Begins p)
    (h : Gives (expansion b sc setting e) s v s') :
    p <+: v := by
  rcases e with ⟨t, loc⟩ | ⟨items, loc⟩
  · rw [expansion] at h
    cases h
    exact he
  · rcases items with _ | ⟨t | r, rest⟩
    · rw [show p = [] from he]
      exact nil_prefix
    · rw [expansion, items] at h
      obtain ⟨w, s1, -, h⟩ := h.of_bind
      cases h
      exact List.IsPrefix.trans he (prefix_append _ _)
    · rw [show p = [] from he]
      exact nil_prefix

theorem expansion_passes (he : e.Tells o) (h : Gives (expansion b sc setting e) s v s') :
    o.Passes v := by
  rcases he with ⟨loc, rfl⟩ | he
  · rw [expansion] at h
    cases h
    exact ⟨[], (append_nil _).symm, by simp⟩
  · obtain ⟨w, rfl⟩ := expansion_begins he h
    exact ⟨' ' :: w, by simp, by simp⟩

end Evaluate

/-! ## Dry makefiles -/

/-- The variable for the flags is the same, and whether it is exported. -/
structure Makefile.SameFlags (mk mk' : Makefile) : Prop where
  values : mk.scopes.SameAt "MAKEFLAGS" mk'.scopes
  exported :
    ∀ yes, ("MAKEFLAGS".toList, yes) ∈ mk'.exported ↔ ("MAKEFLAGS".toList, yes) ∈ mk.exported

instance (mk mk' : Makefile) : Decidable (mk.SameFlags mk') :=
  decidable_of_iff (mk.scopes.SameAt "MAKEFLAGS" mk'.scopes ∧ ∀ yes,
      ("MAKEFLAGS".toList, yes) ∈ mk'.exported ↔ ("MAKEFLAGS".toList, yes) ∈ mk.exported)
    ⟨fun h => ⟨h.1, h.2⟩, fun h => ⟨h.values, h.exported⟩⟩

/-- Commands are only printed, and the flags say so; they are a variable of the whole makefile,
which is exported. -/
structure Makefile.IsDry (mk : Makefile) : Prop where
  habits : mk.habits.justPrint = true
  flags : ∃ (o : Options) (text : Text) (r : Bool), o.justPrint = true ∧ o.Passes text ∧
    (mk.scopes.table .global).get? "MAKEFLAGS" =
      some ⟨"MAKEFLAGS", .recursive, .makefile, text, r⟩
  inner : ∀ k ≠ .global, (mk.scopes.table k).get? "MAKEFLAGS" = none
  exported : ("MAKEFLAGS".toList, true) ∈ mk.exported
  passed : ("MAKEFLAGS".toList, false) ∉ mk.exported

namespace Makefile.IsDry

variable {mk mk' : Makefile} {F G : Text → Prop}

theorem of_sameFlags (h : mk.IsDry) (hhabits : mk'.habits = mk.habits) (hs : mk.SameFlags mk') :
    mk'.IsDry where
  habits := by rw [hhabits]; exact h.habits
  flags := by
    obtain ⟨o, text, r, hp, hpasses, he⟩ := h.flags
    obtain ⟨r', he'⟩ := hs.values.exists_entry he
    exact ⟨o, text, r', hp, hpasses, he'⟩
  inner k hk := hs.values.get?_eq_none (h.inner k hk)
  exported := (hs.exported true).2 h.exported
  passed hmem := h.passed ((hs.exported false).1 hmem)

/-- What is done once all is read leaves a makefile dry. -/
theorem stays (h : mk.IsDry) (hs : mk.Stays F G mk') : mk'.IsDry := by
  refine h.of_sameFlags (by rw [hs.same]) ⟨hs.values _ fun p => h.inner _ nofun, fun yes => ?_⟩
  rw [hs.same]

end Makefile.IsDry

/-- **A makefile of a dry run is dry from its start on.** -/
theorem MakeM.start_dry {c : Config} {w : World} {cwd : Text} {u : Unit}
    (h : Gives (start c) ⟨w, .blank cwd c⟩ u s) (hhabits : c.habits.justPrint = true)
    (hflags : c.flags = o.flags) (hp : o.justPrint = true) : s.makefile.IsDry := by
  obtain ⟨hentry, hinner, hrest⟩ := start_flags h
  have hpasses : o.Passes (flagsText c) := by
    unfold flagsText
    rw [hflags]
    split
    · exact o.passes_flags
    · exact o.passes_flags.append (by simp)
  refine ⟨?_, ⟨o, _, false, hp, hpasses, hentry⟩, fun k hk => hinner k hk _, ?_, ?_⟩
  · rw [hrest]
    exact hhabits
  · rw [hrest]
    exact mem_singleton.2 rfl
  · rw [hrest]
    simp

/-! ## What commands are told -/

/-- A make in this environment is a dry run. -/
def Env.IsDry (env : Env) : Prop :=
  ∃ (o : Options) (v : Text), o.justPrint = true ∧ o.Passes v ∧ env.get? "MAKEFLAGS" = some v

theorem Env.IsDry.reads (h : env.IsDry) {args : List Text} (hr : Options.Reads env args o) :
    o.justPrint = true := by
  obtain ⟨o0, v, hp, hpasses, hv⟩ := h
  exact hr.dry hv hpasses hp

/-- All was read, and the makefile is dry. -/
structure Session.IsDry (s : Session) : Prop where
  finished : s.makefile.finished = true
  makefile : s.makefile.IsDry

/-- What leaves the targets of a makefile that was read as they are leaves it dry. -/
theorem Keeps.dry {α : Type} {x : MakeM α} {a : α}
    (hx : Keeps (Settles (fun _ => False) fun _ => False) x) (hs : s.IsDry) (h : Gives x s a s') :
    s'.IsDry := by
  have hstays := hx.of_gives h hs.finished
  refine ⟨?_, hs.makefile.stays hstays⟩
  rw [hstays.same]
  exact hs.finished

namespace MakeM

variable {n : Text} {env' : Env}

/-- What the flags are found as in a scope tells that a make is to be a dry run. -/
theorem lookup_dry (hs : s.IsDry) (hsc : sc.ShowsPassing) {r : Option Binding}
    (h : Gives (sc.lookup "MAKEFLAGS") s r s') :
    ∃ v o, r = some v ∧ Options.justPrint o = true ∧ v.value.Tells o := by
  obtain ⟨o, text, isRead, hp, hpasses, he⟩ := hs.makefile.flags
  obtain ⟨inner, houter, hinner⟩ := hsc.outer
  unfold Scope.lookup at h
  rw [hsc.locals _ (by decide), houter] at h
  obtain ⟨rs, h⟩ := onScopes_gives h
  -- no table on the way to that of the whole makefile has the flags
  have hempty : ∀ k ∈ inner, (s.makefile.scopes.table k).get? "MAKEFLAGS" = none := fun k hk =>
    hs.makefile.inner k fun e => hinner (e ▸ hk)
  unfold Gives at h
  rw [ScopeM.lookup_append hempty] at h
  obtain ⟨x, rfl, hx⟩ := ScopeM.lookup_recursive_gives he h
  exact ⟨_, o, rfl, hp, Expansion.tells_of_passes hpasses hx⟩

theorem env_get?_set_self (e : Env) (n v : Text) : (e.set n v).get? n = some v := by
  simp [env_get?_set]

theorem env_get?_erase {e : Env} {n' : Text} (hn : n' ≠ n) : (e.erase n).get? n' = e.get? n' := by
  unfold Env.erase Env.get?
  induction e with
  | nil => rfl
  | cons p e ih =>
    by_cases hp : p.1 = n
    · rw [filter_cons_of_neg (by simp [hp]), ih, lookup_cons, hp, beq_eq_false_iff_ne.2 hn]
    · rw [filter_cons_of_pos (by simp [hp]), lookup_cons, lookup_cons, ih]

theorem isDry_set (h : env.IsDry) (hn : n ≠ "MAKEFLAGS") : (env.set n v).IsDry := by
  obtain ⟨o, w, hp, hpasses, hw⟩ := h
  refine ⟨o, w, hp, hpasses, ?_⟩
  rw [env_get?_set, if_neg (by simpa using hn.symm), hw]

/-- What an exported name, or one that is kept back, does to the environment of commands. -/
def exportTo (sc : Scope) (env : Env) (p : Text × Bool) : MakeM Env := do
  if p.2 then
    match ← sc.lookup p.1 with
    | none => return env.set p.1 []
    | some v => return env.set p.1 (← expand sc [p.1] v.value)
  else return env.erase p.1

theorem settles_exportTo (sc : Scope) (env : Env) (p : Text × Bool) :
    Keeps (Settles (fun _ => False) fun _ => False) (exportTo sc env p) := by
  unfold exportTo
  split
  · refine keeps_bind (sc.keeps_lookup _) fun v => ?_
    cases v with
    | none => exact keeps_pure _
    | some v => exact keeps_return (keeps_expand (Below.keepsFrame_settles _ _) _ _ _)
  · exact keeps_pure _

/-- An environment stays dry unless the flags are kept back, and becomes dry when they are
exported. -/
theorem exportTo_dry {p : Text × Bool} (hs : s.IsDry) (hsc : sc.ShowsPassing)
    (hkept : p ≠ ("MAKEFLAGS".toList, false)) (henv : env.IsDry ∨ p = ("MAKEFLAGS".toList, true))
    (h : Gives (exportTo sc env p) s env' s') : env'.IsDry := by
  obtain ⟨name, yes⟩ := p
  by_cases hname : name = "MAKEFLAGS"
  · subst hname
    cases yes with
    | false => cases hkept rfl
    | true =>
      obtain ⟨r, s1, hlookup, h⟩ := h.of_bind
      obtain ⟨v, o, rfl, hp, htells⟩ := lookup_dry hs hsc hlookup
      obtain ⟨value, hexpand, rfl⟩ := h.of_pure
      obtain ⟨b, s3, -, hexpand⟩ := hexpand.of_bind
      exact ⟨o, value, hp, Evaluate.expansion_passes htells hexpand, env_get?_set_self env _ value⟩
  · have hold : env.IsDry := henv.resolve_right fun e => hname (congrArg Prod.fst e)
    cases yes with
    | false =>
      cases h
      obtain ⟨o, v, hp, hpasses, hv⟩ := hold
      exact ⟨o, v, hp, hpasses, (env_get?_erase (Ne.symm hname)).trans hv⟩
    | true =>
      obtain ⟨r, s1, -, h⟩ := h.of_bind
      cases r with
      | none =>
        cases h
        exact isDry_set hold hname
      | some v =>
        obtain ⟨value, -, rfl⟩ := h.of_pure
        exact isDry_set hold hname

theorem foldlM_exportTo_dry {l : List (Text × Bool)} (hs : s.IsDry) (hsc : sc.ShowsPassing)
    (hkept : ("MAKEFLAGS".toList, false) ∉ l) (henv : env.IsDry ∨ ("MAKEFLAGS".toList, true) ∈ l)
    (h : Gives (l.foldlM (exportTo sc) env) s env' s') : env'.IsDry := by
  induction l generalizing env s with
  | nil =>
    cases h
    exact henv.resolve_right not_mem_nil
  | cons p l ih =>
    rw [foldlM_cons] at h
    obtain ⟨env1, s1, hp, h⟩ := h.of_bind
    have hs1 : s1.IsDry := (settles_exportTo sc env p).dry hs hp
    have hkeep : p ≠ ("MAKEFLAGS".toList, false) := fun e => hkept (e ▸ mem_cons_self)
    refine ih hs1 (fun hm => hkept (mem_cons_of_mem _ hm)) ?_ h
    rcases henv with henv | hmem
    · exact .inl (exportTo_dry hs hsc hkeep (.inl henv) hp)
    · rcases mem_cons.1 hmem with e | hmem
      · exact .inl (exportTo_dry hs hsc hkeep (.inr e.symm) hp)
      · exact .inr hmem

/-- **The commands of a dry makefile are told that a make is to be a dry run.** -/
theorem subEnvironment_dry (hs : s.IsDry) (hsc : sc.ShowsPassing)
    (h : Gives (subEnvironment sc) s env s') : env.IsDry := by
  replace h := h.of_makefile
  obtain ⟨env', hfold, rfl⟩ := h.of_pure
  have hfold : Gives (s.makefile.exported.foldlM (exportTo sc) s.makefile.env) s env' s' := hfold
  have henv' := foldlM_exportTo_dry hs hsc hs.makefile.passed (.inr hs.makefile.exported) hfold
  exact isDry_set henv' (by decide)

end MakeM

/-! ## Recipes -/

/-- A line is printed, and a make that it starts is a dry run. -/
structure RecipeLine.IsDry (line : RecipeLine) : Prop where
  echo : line.echo.isSome
  env : line.env.IsDry

namespace Recipe

open MakeM

variable {name : Text}

/-- Automatic variables do not hide the flags. -/
theorem scope_shows {r : RuleRef} (h : Gives (scope name r) s sc s') : sc.ShowsPassing := by
  obtain ⟨all, newer, hl⟩ := scope_gives h
  have hheads : ∀ n ∈ passingNames, n.head? ∉ "@<?^+*".toList.map some := by decide
  exact ⟨fun n hn => hl.locals n (hheads n hn), [.target name], hl.outer, by simp⟩

theorem lineOf_dry {loc : Option Location} {t : Text} {line : RecipeLine} (hs : s.IsDry)
    (henv : env.IsDry) (h : Gives (lineOf sc env loc t) s line s') : line.IsDry := by
  replace h := h.of_makefile
  generalize marks t = parts at h
  obtain ⟨text, m⟩ := parts
  dsimp only at h
  have hloud : ((m.hidden || s.makefile.habits.silent) && !s.makefile.habits.justPrint) =
      false := by
    rw [hs.makefile.habits]
    simp
  rw [hloud] at h
  split at h
  · obtain ⟨native, -, rfl⟩ := h.of_pure
    exact ⟨rfl, henv⟩
  · rw [pure_bind] at h
    cases h
    exact ⟨rfl, henv⟩

/-- **The lines of a recipe in a dry makefile are dry.** -/
theorem lines_dry {r : RuleRef} {ls : List RecipeLine} (hs : s.IsDry)
    (h : Gives (lines name r) s ls s') : ∀ line ∈ ls, line.IsDry := by
  have hb := Below.keepsFrame_settles (fun _ => False) fun _ => False
  replace h := h.of_makefile
  obtain ⟨sc, s1, hsc, h⟩ := h.of_bind
  have hs1 : s1.IsDry := (keeps_scope settles_mention name r).dry hs hsc
  obtain ⟨env, s2, henv, h⟩ := h.of_bind
  have hs2 : s2.IsDry := (keeps_subEnvironment hb sc).dry hs1 henv
  have hdry : env.IsDry := subEnvironment_dry hs1 (scope_shows hsc) henv
  obtain ⟨parts, hparts, rfl⟩ := h.of_pure
  have hall : ∀ part ∈ parts, ∀ line ∈ part, line.IsDry := by
    refine (gives_mapM_forall (fun c s part s' hs h => ?_) hs2 hparts).1
    obtain ⟨t, s1, ht, h⟩ := h.of_bind
    have hs1 : s1.IsDry := (keeps_expand hb _ _ _).dry hs ht
    refine gives_mapM_forall (fun l s line s' hs h => ?_) hs1 h
    exact ⟨lineOf_dry hs hdry h, (keeps_lineOf hb _ _ _ l).dry hs h⟩
  intro line hline
  obtain ⟨part, hpart, hline⟩ := mem_flatten.1 hline
  exact hall part hpart line hline

end Recipe

end Rebuild
