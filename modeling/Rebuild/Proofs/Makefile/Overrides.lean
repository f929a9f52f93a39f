import Rebuild.Proofs.Expansion.Inside
import Rebuild.Proofs.Makefile.Frame
import Rebuild.Proofs.Overrides
/-!
# What a make below is told

A makefile starts with a variable for the flags that it passes on; its value refers to the
assignments of the command line through a second variable, and that to a third which holds them. The
three are set after the start (`start_passes`), so that the commands get the flags with the
assignments in them (`subEnvironment_flags`), and a make below reads back what the make above was
given (`subEnvironment_overrides`).
-/

namespace Rebuild

open List

variable {name : Text}

/-! ## The variables of a makefile -/

namespace Session

/-- A variable of the whole makefile. -/
def entry (s : Session) (name : Text) : Option Entry := (s.makefile.scopes.table .global).get? name

/-- Nothing but tables of variables and the world differs. -/
def SameRest (s s' : Session) : Prop :=
  s'.makefile = { s.makefile with scopes := s'.makefile.scopes }

instance : VariableFrame SameRest where
  refl _ := rfl
  trans _ _ _ h₁ h₂ := by
    unfold SameRest at *
    rw [h₂, h₁]
  world _ _ := rfl
  scopes _ _ := rfl

end Session

variable {u : Unit} {w : World} {cwd : Text} {v : Binding}

namespace MakeM

open Session (SameRest)

variable {s s' : Session} {flavor : Flavor} {origin : Origin} {value : Text}
  {names : List Text} {env : Env} {a : Scopes} {rs rs' : List Remark} {b : Scopes}

/-- Work on the tables that leaves no remark. -/
theorem gives_onScopes {α : Type} {x : ScopeM α} {a : α}
    (h : Gives x (s.makefile.scopes, []) a (b, [])) :
    Gives (onScopes x) s a { s with makefile := { s.makefile with scopes := b } } := by
  have hmk : Gives makefile s s.makefile s := rfl
  refine gives_bind.2 ⟨_, _, hmk, ?_⟩
  rw [show x.run (s.makefile.scopes, []) = _ from h]
  rfl

/-- **Setting a variable of the makefile changes nothing else**, and sets it unless one of a lower
rank is kept. -/
theorem setGlobal_gives (h : Gives (setGlobal name flavor origin value) s u s') :
    Scopes.AgreeOff .global name s.makefile.scopes s'.makefile.scopes ∧
      (s'.entry name = some ⟨name, flavor, origin, value, false⟩ ∨
        ∃ e, s.entry name = some e ∧ e.origin.rank < origin.rank) := by
  obtain ⟨rs, hset⟩ := onScopes_gives h
  obtain ⟨hagree, hentry⟩ := ScopeM.set_gives hset
  exact ⟨hagree, hentry.imp_right fun ⟨e, he, hrank, _⟩ => ⟨e, he, hrank⟩⟩

/-- A variable of no lower rank is replaced. -/
theorem entry_setGlobal (h : Gives (setGlobal name flavor origin value) s u s')
    (ho : ∀ e, s.entry name = some e → origin.rank ≤ e.origin.rank) :
    s'.entry name = some ⟨name, flavor, origin, value, false⟩ := by
  rcases (setGlobal_gives h).2 with hnew | ⟨e, he, hrank⟩
  · exact hnew
  · exact absurd hrank (Nat.not_lt.2 (ho e he))

/-! ## The start of a makefile -/

/-- Only variables of the whole makefile with these names are set. -/
structure Sets (names : List Text) (s s' : Session) : Prop where
  rest : SameRest s s'
  agree : ∀ k n, k ≠ .global ∨ n ∉ names →
    (s'.makefile.scopes.table k).get? n = (s.makefile.scopes.table k).get? n

instance (names : List Text) : IsPreorder Session (Sets names) where
  refl s := ⟨refl_of SameRest s, fun _ _ _ => rfl⟩
  trans _ _ _ h₁ h₂ :=
    ⟨trans_of SameRest h₁.rest h₂.rest, fun k n h => (h₂.agree k n h).trans (h₁.agree k n h)⟩

theorem Sets.entry (h : Sets names s s') (hn : name ∉ names) :
    s'.entry name = s.entry name := h.agree .global name (.inr hn)

theorem sets_setGlobal (h : Gives (setGlobal name flavor origin value) s u s') (hn : name ∈ names) :
    Sets names s s' := by
  refine ⟨(keeps_onScopes _).of_gives h, fun k n hk => ?_⟩
  refine (setGlobal_gives h).1 k n (hk.imp_right ?_)
  rintro hk rfl
  exact hk hn

theorem sets_forM {l : List (Text × Text)} {u : PUnit}
    (h : Gives (l.forM fun p => setGlobal p.1 .simple origin p.2) s u s')
    (hl : ∀ p ∈ l, p.1 ∈ names) : Sets names s s' := by
  induction l generalizing s with
  | nil =>
    obtain ⟨-, rfl⟩ := gives_pure.1 h
    exact refl_of _ s
  | cons p l ih =>
    obtain ⟨_, s1, hp, h⟩ := h.of_bind
    have htail := ih h fun q hq => hl q (mem_cons_of_mem _ hq)
    exact trans_of _ (sets_setGlobal hp (hl p mem_cons_self)) htail

/-- All variables come from the environment. -/
def FromEnv (env : Env) (sc : Scopes) : Prop :=
  ∀ k n e, (sc.table k).get? n = some e →
    k = .global ∧ e.origin = .environment ∧ n ∈ env.map Prod.fst

theorem fromEnv_nil : FromEnv [] [] := by
  intro k n e he
  cases he

theorem fromEnv_set {p : Text × Text} (ha : FromEnv env a)
    (h : Gives (ScopeM.set .global [] p.1 .recursive .environment p.2 false) (a, rs) u (b, rs')) :
    FromEnv (env ++ [p]) b := by
  obtain ⟨hagree, hentry⟩ := ScopeM.set_gives h
  intro k n e he
  by_cases hkn : k ≠ .global ∨ n ≠ p.1
  · rw [hagree k n hkn] at he
    obtain ⟨hk, ho, hn⟩ := ha k n e he
    exact ⟨hk, ho, by simp [hn]⟩
  · obtain ⟨rfl, rfl⟩ := not_or.1 hkn |>.imp Classical.not_not.1 Classical.not_not.1
    refine ⟨rfl, ?_, by simp⟩
    rcases hentry with hnew | ⟨e0, he0, -, e', he', ho⟩
    · cases he.symm.trans hnew
      rfl
    · cases he.symm.trans he'
      rw [ho, (ha _ _ _ he0).2.1]

theorem fromEnv_setEnv {done : Env} (ha : FromEnv done a)
    (h : Gives (ScopeM.setEnv .global [] env) (a, rs) u (b, rs')) : FromEnv (done ++ env) b := by
  induction env generalizing done a rs with
  | nil =>
    obtain ⟨-, h⟩ := gives_pure.1 h
    cases h
    rwa [append_nil]
  | cons p env ih =>
    obtain ⟨_, ⟨a1, rs1⟩, hset, h⟩ := h.of_bind
    have htail := ih (fromEnv_set ha hset) h
    rwa [append_assoc, singleton_append] at htail

/-- The names that are set before the flags. -/
def namesBefore : List Text := ["CURDIR", "MAKE_RESTARTS", ".PYMAKE", "MAKE"]

/-- The names that are set after the flags. -/
def namesAfter : List Text := "MAKELEVEL" :: "MAKECMDGOALS" :: implicitVariables.map Prod.fst

/-- The names through which flags and assignments are passed on. -/
def passingNames : List Text := ["MAKEFLAGS", "MAKEOVERRIDES", "-*-command-variables-*-"]

/-- The text of the flags that a makefile passes on. -/
def flagsText (c : Config) : Text :=
  if c.overrides.isEmpty then c.flags else c.flags ++ " -- $(MAKEOVERRIDES)"

theorem start_gives {c : Config} (h : Gives (start c) s u s') :
    ∃ s1 s2 s3 s4 s5, Gives (onScopes (ScopeM.setEnv .global [] c.env)) s () s1 ∧
      Sets namesBefore s1 s2 ∧
      (c.overrides = [] ∧ s2 = s3 ∨
        Gives (setGlobal "-*-command-variables-*-" .simple .automatic c.overrides) s2 () s3) ∧
      Gives (setGlobal "MAKEOVERRIDES" .recursive .environment "$\x7b-*-command-variables-*-\x7d")
        s3 () s4 ∧
      Gives (setGlobal "MAKEFLAGS" .recursive .makefile (flagsText c)) s4 () s5 ∧
      Sets namesAfter
        { s5 with makefile := { s5.makefile with exported := [("MAKEFLAGS", true)] } } s' := by
  obtain ⟨_, s1, henv, h⟩ := h.of_bind
  obtain ⟨_, s1', hmk, h⟩ := h.of_bind
  obtain rfl : s1 = s1' := congrArg Prod.snd hmk
  obtain ⟨_, t1, hcurdir, h⟩ := h.of_bind
  obtain ⟨_, t2, hrestarts, h⟩ := h.of_bind
  obtain ⟨_, t3, hpymake, h⟩ := h.of_bind
  have ht3 : Sets namesBefore s1 t3 :=
    trans_of _
      (trans_of _ (sets_setGlobal hcurdir (by decide)) (sets_setGlobal hrestarts (by decide)))
      (sets_setGlobal hpymake (by decide))
  extract_lets rest passed at h
  have hpassed : ∃ s2, Sets namesBefore t3 s2 ∧ Gives (passed ()) s2 u s' := by
    split at h
    · obtain ⟨_, s2, hmake, h⟩ := h.of_bind
      exact ⟨s2, sets_setGlobal hmake (by decide), h⟩
    · exact ⟨t3, refl_of _ t3, h⟩
  obtain ⟨s2, hs2, h⟩ := hpassed
  have hvariables : ∃ s3, (c.overrides = [] ∧ s2 = s3 ∨
      Gives (setGlobal "-*-command-variables-*-" .simple .automatic c.overrides) s2 () s3) ∧
      Gives (rest ()) s3 u s' := by
    dsimp only [passed] at h
    split at h
    · obtain ⟨_, s3, hvariables, h⟩ := h.of_bind
      exact ⟨s3, .inr hvariables, h⟩
    · rename_i hempty
      exact ⟨s2, .inl ⟨by simpa using hempty, rfl⟩, h⟩
  obtain ⟨s3, hvariables, h⟩ := hvariables
  obtain ⟨_, s4, hoverrides, h⟩ := h.of_bind
  obtain ⟨_, s5, hflags, h⟩ := h.of_bind
  obtain ⟨_, t4, hexported, h⟩ := h.of_bind
  obtain ⟨_, t5, hlevel, h⟩ := h.of_bind
  obtain ⟨_, t6, hgoals, h⟩ := h.of_bind
  have hafter : Sets namesAfter t4 s' :=
    trans_of _ (trans_of _ (sets_setGlobal hlevel (by decide)) (sets_setGlobal hgoals (by decide)))
      (sets_forM h (by decide))
  rw [← gives_modify.1 hexported] at hafter
  exact ⟨s1, s2, s3, s4, s5, henv, trans_of _ ht3 hs2, hvariables, hoverrides, hflags, hafter⟩

/-- **How a makefile starts.** The flags are set and exported, and every variable is one of the
whole makefile. -/
theorem start_flags {c : Config} (h : Gives (start c) ⟨w, .blank cwd c⟩ u s) :
    s.entry "MAKEFLAGS" = some ⟨"MAKEFLAGS", .recursive, .makefile, flagsText c, false⟩ ∧
      (∀ k ≠ .global, ∀ n, (s.makefile.scopes.table k).get? n = none) ∧
      s.makefile = { Makefile.blank cwd c with
        scopes := s.makefile.scopes, exported := [("MAKEFLAGS", true)] } := by
  obtain ⟨s1, s2, s3, s4, s5, hstart, hbefore, hvariables, hoverrides, hflags, hafter⟩ :=
    start_gives h
  obtain ⟨rs, hstart'⟩ := onScopes_gives hstart
  have hs1 : FromEnv c.env s1.makefile.scopes := fromEnv_setEnv fromEnv_nil hstart'
  have h23 : Sets ["-*-command-variables-*-"] s2 s3 := by
    rcases hvariables with ⟨-, rfl⟩ | hvariables
    · exact refl_of _ s2
    · exact sets_setGlobal hvariables (by simp)
  have h34 : Sets ["MAKEOVERRIDES"] s3 s4 := sets_setGlobal hoverrides (by simp)
  have h45 : Sets ["MAKEFLAGS"] s4 s5 := sets_setGlobal hflags (by simp)
  refine ⟨?_, fun k hk n => ?_, ?_⟩
  · -- only the environment has set the variable before, and that has the highest rank
    have hentry := entry_setGlobal hflags fun e he => by
      rw [h34.entry (by decide), h23.entry (by decide), hbefore.entry (by decide)] at he
      rw [(hs1 .global _ e he).2.1]
      decide
    exact (hafter.entry (by decide)).trans hentry
  · rw [hafter.agree k n (.inl hk)]
    rw [h45.agree k n (.inl hk), h34.agree k n (.inl hk), h23.agree k n (.inl hk),
      hbefore.agree k n (.inl hk)]
    exact Option.eq_none_iff_forall_ne_some.2 fun e he => hk (hs1 k n e he).1
  · have hrest : SameRest ⟨w, .blank cwd c⟩ s5 :=
      trans_of _ ((keeps_onScopes _).of_gives hstart) (trans_of _ hbefore.rest
        (trans_of _ h23.rest (trans_of _ h34.rest h45.rest)))
    rw [hafter.rest, hrest]

end MakeM

/-- The flags and the assignments that a makefile was started with are still those that it passes
on. -/
structure Session.Passes (c : Config) (s : Session) : Prop where
  flags : ∃ r, s.entry "MAKEFLAGS" =
    some ⟨"MAKEFLAGS", .recursive, .makefile, c.flags ++ " -- $(MAKEOVERRIDES)", r⟩
  overrides : ∃ r, s.entry "MAKEOVERRIDES" =
    some ⟨"MAKEOVERRIDES", .recursive, .environment, "$\x7b-*-command-variables-*-\x7d", r⟩
  assignments : ∃ r, s.entry "-*-command-variables-*-" =
    some ⟨"-*-command-variables-*-", .simple, .automatic, c.overrides, r⟩
  inner : ∀ k ≠ .global, ∀ n ∈ MakeM.passingNames, (s.makefile.scopes.table k).get? n = none
  exported : s.makefile.exported = [("MAKEFLAGS".toList, true)]
  depth : s.makefile.depth = c.depth

namespace MakeM

open Session (SameRest)

variable {s : Session}

/-- **A makefile that starts with assignments of the command line passes them on.** -/
theorem start_passes {c : Config} (h : Gives (start c) ⟨w, .blank cwd c⟩ u s)
    (hc : c.overrides ≠ []) (henv : "-*-command-variables-*-".toList ∉ c.env.map Prod.fst) :
    s.Passes c := by
  obtain ⟨hentry, hinner, hrest⟩ := start_flags h
  rw [show flagsText c = c.flags ++ " -- $(MAKEOVERRIDES)" from if_neg
    (by simpa using hc)] at hentry
  obtain ⟨s1, s2, s3, s4, s5, hstart, hbefore, hvariables, hoverrides, hflags, hafter⟩ :=
    start_gives h
  have hvariables := hvariables.resolve_left fun hnone => hc hnone.1
  obtain ⟨rs, hstart'⟩ := onScopes_gives hstart
  have hs1 : FromEnv c.env s1.makefile.scopes := fromEnv_setEnv fromEnv_nil hstart'
  have h23 : Sets ["-*-command-variables-*-"] s2 s3 := sets_setGlobal hvariables (by simp)
  have h34 : Sets ["MAKEOVERRIDES"] s3 s4 := sets_setGlobal hoverrides (by simp)
  have h45 : Sets ["MAKEFLAGS"] s4 s5 := sets_setGlobal hflags (by simp)
  have hs2 : ∀ name ∉ namesBefore, ∀ e, s2.entry name = some e →
      e.origin = .environment ∧ name ∈ c.env.map Prod.fst := by
    intro name hn e he
    rw [hbefore.entry hn] at he
    exact (hs1 .global name e he).2
  -- Both are set, as what the environment says of them has the highest rank, and stay as set.
  have hentry3 := entry_setGlobal hvariables fun e he => absurd (hs2 _ (by decide) e he).2 henv
  have hentry4 := entry_setGlobal hoverrides fun e he => by
    rw [h23.entry (by decide)] at he
    rw [(hs2 _ (by decide) e he).1]
  have hlast : ∀ name ∉ namesAfter, s.entry name = s5.entry name := fun name hn => hafter.entry hn
  refine ⟨⟨false, hentry⟩, ⟨false, ?_⟩, ⟨false, ?_⟩, fun k hk n _ => hinner k hk n, ?_, ?_⟩
  · rw [hlast _ (by decide), h45.entry (by decide), hentry4]
  · rw [hlast _ (by decide), h45.entry (by decide), h34.entry (by decide), hentry3]
  · rw [hrest]
  · rw [hrest]
    rfl

end MakeM

/-! ## What commands are told -/

/-- Of a scope, nothing hides the makefile's own variables for flags and assignments. -/
structure Scope.ShowsPassing (sc : Scope) : Prop where
  locals : ∀ n ∈ MakeM.passingNames, sc.locals.lookup n = none
  outer : ∃ inner, sc.outer = inner ++ [.global] ∧ .global ∉ inner

namespace Session.Passes

variable {c : Config} {s : Session} {sc : Scope}

/-- Reading variables leaves them as they are. -/
theorem of_sameValues {b : Scopes} (h : s.Passes c) (hb : Scopes.SameValues s.makefile.scopes b) :
    Passes c { s with makefile := { s.makefile with scopes := b } } where
  flags := let ⟨_, he⟩ := h.flags; (hb.sameAt _).exists_entry he
  overrides := let ⟨_, he⟩ := h.overrides; (hb.sameAt _).exists_entry he
  assignments := let ⟨_, he⟩ := h.assignments; (hb.sameAt _).exists_entry he
  inner k hk n hn := (hb.sameAt n).get?_eq_none (h.inner k hk n hn)
  exported := h.exported
  depth := h.depth

/-- The variables for flags and assignments are looked up in the table of the makefile. -/
theorem gives_lookup (h : s.Passes c) (hsc : sc.ShowsPassing) (hn : name ∈ MakeM.passingNames)
    {b : Scopes}
    (hv : Gives (ScopeM.lookup [.global] name) (s.makefile.scopes, []) (some v) (b, [])) :
    Gives (sc.lookup name) s (some v) { s with makefile := { s.makefile with scopes := b } } := by
  obtain ⟨inner, houter, hinner⟩ := hsc.outer
  unfold Scope.lookup
  rw [hsc.locals name hn, houter]
  refine MakeM.gives_onScopes ?_
  unfold Gives
  rw [ScopeM.lookup_append]
  · exact hv
  · intro k hk
    refine h.inner k ?_ name hn
    rintro rfl
    exact hinner hk

end Session.Passes

namespace Evaluate

variable {s s1 s2 : Session} {b : Below} {sc : Scope} {setting : List Text}

theorem gives_variable {x : Text} (hname : name ∉ setting)
    (hv : Gives (sc.lookup name) s (some v) s1)
    (hx : Gives (valueOf b sc (setting ++ [name]) v.value) s1 x s2) (t : Text)
    (l loc loc' : Option Location) :
    Gives (expansion b sc setting
      (.sequence (Item.ofText t ++ [.ref (.variable l (.literal name loc'))]) loc)) s
        (t ++ x) s2 := by
  have href : Gives (reference b sc setting (.variable l (.literal name loc'))) s x s2 := by
    have hguard : Gives (guardSelf setting name l) s () s := by
      unfold guardSelf
      rw [if_neg (by simpa using hname)]
      rfl
    have hbinding : Gives (bindingOf sc name l) s (some v) s1 := gives_bind.2 ⟨_, _, hv, rfl⟩
    rw [reference, expansion, pure_bind]
    exact gives_bind.2 ⟨_, _, hguard, gives_bind.2 ⟨_, _, hbinding, hx⟩⟩
  have hitems : Gives (items b sc setting [.ref (.variable l (.literal name loc'))]) s x s2 := by
    rw [items, items]
    exact gives_bind.2 ⟨_, _, href, gives_pure.2 ⟨append_nil x, rfl⟩⟩
  rw [expansion]
  cases t with
  | nil => exact hitems
  | cons a t =>
    show Gives (items b sc setting (.text (a :: t) :: _)) s _ s2
    rw [items]
    exact gives_bind.2 ⟨_, _, hitems, rfl⟩

end Evaluate

namespace Session.Passes

open Evaluate

variable {c : Config} {s : Session} {sc : Scope}

/-- The value of the assignments is their text. -/
theorem gives_overrides (h : s.Passes c) (hsc : sc.ShowsPassing) (n : Nat) :
    ∃ x s1, Gives (sc.lookup "MAKEOVERRIDES") s (some ⟨.recursive, .environment, x⟩) s1 ∧
    s1.Passes c ∧
      Gives (valueOf (Below.levels (n + 1)) sc ["MAKEFLAGS", "MAKEOVERRIDES"] x) s1
        c.overrides s1 := by
  obtain ⟨r, he⟩ := h.overrides
  obtain ⟨l, loc, hparse⟩ :=
    @Expansion.parseText_variable .curly [] "-*-command-variables-*-".toList
    (by simp) (by unfold Token.Inert; decide) (ScopeM.place "MAKEOVERRIDES")
  obtain ⟨b, hb, hlookup⟩ := ScopeM.lookup_recursive he hparse [] []
  have h1 := h.of_sameValues hb
  obtain ⟨r1, he1⟩ := h1.assignments
  obtain ⟨l1, hlookup1⟩ := ScopeM.lookup_simple he1 [] []
  refine ⟨_, _, h.gives_lookup hsc (by decide) hlookup, h1, ?_⟩
  exact gives_variable (by decide) (h1.gives_lookup hsc (by decide) hlookup1) rfl []
    l loc none

/-- The value of the flags is their text with the assignments after it. -/
theorem gives_flags (h : s.Passes c) (hsc : sc.ShowsPassing) (hdepth : 0 < c.depth)
    (hflags : '$' ∉ c.flags) :
    ∃ x s1 s2, Gives (sc.lookup "MAKEFLAGS") s (some ⟨.recursive, .makefile, x⟩) s1 ∧
      Gives (MakeM.expand sc ["MAKEFLAGS"] x) s1 (c.flags ++ " -- ".toList ++ c.overrides) s2 ∧
      s2.Passes c := by
  obtain ⟨r, he⟩ := h.flags
  have htext : c.flags ++ " -- $(MAKEOVERRIDES)".toList =
      (c.flags ++ " -- ".toList) ++
        '$' :: Brace.opening .round :: ("MAKEOVERRIDES".toList ++ [Brace.closing .round]) := by
    rw [append_assoc]
    rfl
  rw [htext] at he
  obtain ⟨l, loc, hparse⟩ := @Expansion.parseText_variable .round (c.flags ++ " -- ".toList)
    "MAKEOVERRIDES".toList (by simpa using hflags) (by unfold Token.Inert; decide)
      (ScopeM.place "MAKEFLAGS")
  obtain ⟨b, hb, hlookup⟩ := ScopeM.lookup_recursive he hparse [] []
  have h1 := h.of_sameValues hb
  obtain ⟨n, hn⟩ := Nat.exists_eq_succ_of_ne_zero hdepth.ne'
  obtain ⟨x, s2, hlookup2, h2, hvalue⟩ := h1.gives_overrides hsc n
  refine ⟨_, _, s2, h.gives_lookup hsc (by decide) hlookup, ?_, h2⟩
  have hbelow : Gives MakeM.below ({ s with makefile := { s.makefile with scopes := b } })
      (Below.levels (n + 1)) { s with makefile := { s.makefile with scopes := b } } := by
    rw [← Nat.succ_eq_add_one, ← hn, ← h1.depth]
    rfl
  refine gives_bind.2 ⟨_, _, hbelow, ?_⟩
  exact gives_variable (by decide) hlookup2 hvalue _ l loc none

end Session.Passes

namespace MakeM

variable {c : Config} {s : Session} {sc : Scope}

theorem env_get?_set (e : Env) (n n' v : Text) :
    (e.set n v).get? n' = if n' == n then some v else e.get? n' := lookup_replace e n n' v

/-- **The commands of a makefile are told its flags and the assignments of its command line.** -/
theorem subEnvironment_flags (h : s.Passes c) (hsc : sc.ShowsPassing) (hdepth : 0 < c.depth)
    (hflags : '$' ∉ c.flags) :
    ∃ env s', Gives (subEnvironment sc) s env s' ∧ s'.Passes c ∧
      env.get? "MAKEFLAGS" = some (c.flags ++ " -- ".toList ++ c.overrides) := by
  obtain ⟨x, s1, s2, hlookup, hexpand, h2⟩ := h.gives_flags hsc hdepth hflags
  have hmk : Gives makefile s s.makefile s := rfl
  have hget : ∀ (e : Env) (flags level : Text),
      ((e.set "MAKEFLAGS" flags).set "MAKELEVEL" level).get? "MAKEFLAGS" = some flags := by
    intro e flags level
    rw [env_get?_set, if_neg (by decide), env_get?_set, if_pos (by decide)]
  refine ⟨_, s2, gives_bind.2 ⟨_, _, hmk, gives_bind.2 ⟨_, s2, ?_, rfl⟩⟩, h2,
    hget s.makefile.env _ _⟩
  rw [h.exported, foldlM_cons]
  exact gives_bind.2 ⟨_, _, gives_bind.2 ⟨_, _, hlookup, gives_bind.2 ⟨_, _, hexpand, rfl⟩⟩, rfl⟩

/-- **Assignments of the command line reach a make below.** In the environment of the commands of a
makefile, flags and assignments are read back as the options, `--` and the assignments in their
order, unless the last of these ends with a blank: then a make below refuses its flags. The
environment of the makefile must not have a variable `-*-command-variables-*-` (`henv`), which would
prevail over the assignments. -/
theorem subEnvironment_overrides {o : Options} (hlog : o.debugLog = none)
    {args : List Text} {a : Text}
    (hargs : ∀ b ∈ args ++ [a], '=' ∈ b) (hflags : c.flags = o.flags)
    (hoverrides : c.overrides = (Arguments.parse (args ++ [a])).overrides)
    (henv : "-*-command-variables-*-".toList ∉ c.env.map Prod.fst) (hdepth : 0 < c.depth)
    {w : World} {cwd : Text} (h : Gives (start c) ⟨w, .blank cwd c⟩ () s) (hsc : sc.ShowsPassing) :
    ∃ env s', Gives (subEnvironment sc) s env s' ∧
      Options.ofFlags ((env.get? "MAKEFLAGS").getD []) =
        if (a.getLast?.map Text.isBlank).getD false then .error (.refused .flagsBackslash none)
        else .ok (o.passedWords ++ ['-', '-'] :: (args ++ [a])) := by
  have hne : c.overrides ≠ [] := by
    rw [hoverrides, Arguments.parse_overrides hargs]
    exact Options.unwords_escape_ne_nil args (ne_nil_of_mem (hargs a (by simp)))
  obtain ⟨env, s', hgives, -, hget⟩ := subEnvironment_flags (start_passes h hne henv) hsc hdepth
    (hflags ▸ Options.dollar_not_mem_flags hlog)
  refine ⟨env, s', hgives, ?_⟩
  rw [hget, Option.getD_some, hflags, hoverrides]
  exact Options.ofFlags_overrides hlog hargs

/-- A start with two assignments, one with a blank inside and one with a backslash at its end. -/
def sampleConfig : Config where
  workdir := none
  env := [("HOME", "/w")]
  restarts := 0
  make := none
  flags := "kw -j2"
  overrides := (Arguments.parse ["A=b c", "B=\\"]).overrides
  level := 0
  goals := []
  habits := ⟨true, false, false⟩
  depth := 1

/-- A world without files. -/
def sampleWorld : World := .fresh (.empty (.ofInt 1)) "/w" [] []

theorem subEnvironment_overrides_sample :
    ∃ s, Gives (start sampleConfig) ⟨sampleWorld, .blank "/w" sampleConfig⟩ () s ∧
      ∃ env s', Gives (subEnvironment (.ofTarget "all")) s env s' ∧
      Options.ofFlags ((env.get? "MAKEFLAGS").getD []) =
      .ok ["-kw", "-j2", "--", "A=b c", "B=\\"] := by
  have hstart : ((start sampleConfig).run ⟨sampleWorld, .blank "/w" sampleConfig⟩).1.toBool =
      true := by
    decide +kernel
  rcases hrun : (start sampleConfig).run ⟨sampleWorld, .blank "/w" sampleConfig⟩ with ⟨r, s⟩
  rw [hrun] at hstart
  cases r with
  | error e => cases hstart
  | ok u =>
    have hsc : (Scope.ofTarget "all").ShowsPassing :=
      ⟨fun _ _ => rfl, [.target "all"], rfl, by decide⟩
    obtain ⟨env, s', hgives, hread⟩ := @subEnvironment_overrides sampleConfig s _
      { Options.default with keepGoing := true, jobs := 2 } rfl ["A=b c"] "B=\\" (by decide)
        (by decide) rfl
      (by decide) (by decide) _ _ hrun hsc
    exact ⟨s, hrun, env, s', hgives, hread⟩

/-- The flags with an assignment that ends with a blank are refused. -/
theorem ofFlags_trailing_blank :
    Options.ofFlags (Options.default.flags ++ " -- " ++ (Arguments.parse ["A=b "]).overrides) =
      .error (.refused .flagsBackslash none) := by
  decide +kernel

end MakeM

end Rebuild
