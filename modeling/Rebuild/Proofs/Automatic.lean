import Mathlib.Data.Option.Basic
import Rebuild.Proofs.Makefile.Recipe
import Rebuild.Proofs.Priority
import Rebuild.Proofs.Text
/-!
# The prerequisites that a recipe is told of

The automatic variables name the files of the prerequisites, unless a variable of that name is set
in the makefile, which then stays (`Scope.Tells`). A recipe is told of the prerequisites that are
made for it, in their order; that of a pattern rule is not told of those of the other rules of its
target (`Recipe.scope_lists`). Of a prerequisite that is given twice the newer ones hold one, and so
does the list without repetitions, but the one leaves out what is the same target and the other
what is the same file (`Recipe.automatics_lists`). Where two prerequisites are found at one file,
the newer ones name it twice.
-/

namespace Rebuild

open List Text

variable {σ α : Type} {sc sc' : Scope} {s s' : Session} {name v : Text} {prereqs : List Text}
  {a : Scopes}

theorem gives_filterM_of {I : σ → Prop} {f : α → Computation σ Bool} {g : α → Bool}
    {l bs : List α} {s s' : σ}
    (hf : ∀ a s b s', I s → Gives (f a) s b s' → b = g a ∧ I s') (hs : I s)
    (h : Gives (l.filterM f) s bs s') : bs = l.filter g ∧ I s' := by
  have haux : ∀ acc s bs, I s → Gives (l.filterAuxM f acc) s bs s' →
      bs.reverse = acc.reverse ++ l.filter g ∧ I s' := by
    clear hs h
    induction l with
    | nil =>
      intro acc s bs hs h
      cases h
      simpa using hs
    | cons a l ih =>
      intro acc s bs hs h
      obtain ⟨b, s1, hb, h⟩ := h.of_bind
      obtain ⟨rfl, hs1⟩ := hf a s b s1 hs hb
      obtain ⟨hbs, hs'⟩ := ih _ _ _ hs1 h
      refine ⟨hbs.trans ?_, hs'⟩
      cases hg : g a <;> simp [hg]
  obtain ⟨cs, hcs, rfl⟩ := Gives.of_pure h
  exact haux [] s cs hs hcs

/-! ## Automatic variables of a scope -/

/-- A variable of the tables with a lower rank than automatic ones have; it stays. -/
def Scopes.fixes (a : Scopes) (chain : List ScopeName) (n : Text) : Bool :=
  ((a.raw? chain n).map (·.2.1)).any fun o => o.rank < Origin.automatic.rank

theorem Scopes.SameValues.fixes {b : Scopes} (h : a.SameValues b) (chain : List ScopeName)
    (n : Text) : b.fixes chain n = a.fixes chain n := by
  rw [Scopes.fixes, raw?_congr fun k _ => (h.sameAt n).held k]
  rfl

theorem ScopeM.mayReplace_eq {old : Option Binding} {origin : Origin} {r : Bool}
    {x x' : Scopes × List Remark} (h : Gives (mayReplace v old origin false) x r x') :
    r = !(old.map (·.origin)).any fun o => o.rank < origin.rank := by
  cases r with
  | true =>
    have hrank := mayReplace_true h
    cases old with
    | none => rfl
    | some b => simpa using hrank b rfl
  | false =>
    obtain ⟨b, rfl, hrank⟩ := (mayReplace_gives h).2 rfl
    simpa using hrank

namespace Scope

/-- An automatic variable has these words, unless a variable of its name stays. -/
def Tells (sc : Scope) (a : Scopes) (v : Text) (words : List Text) : Prop :=
  sc.locals.lookup v = if a.fixes sc.outer v then none else some (unwords words)

/-- Automatic variables are defined over tables in which no value has changed, and none hides a
variable that stays. -/
structure Over (sc : Scope) (a : Scopes) (s : Session) : Prop where
  same : a.SameValues s.makefile.scopes
  stays : ∀ n, a.fixes sc.outer n = true → sc.locals.lookup n = none

theorem define_gives {value : Text} (ho : sc.Over a s) (h : Gives (sc.define v value) s sc' s') :
    sc'.Over a s' ∧ sc'.outer = sc.outer ∧
      sc'.locals = if a.fixes sc.outer v then sc.locals else (v, value) :: sc.locals := by
  have hsame : SameVariables s s' := (sc.keeps_define v value).of_gives h
  have hover := ho.same.trans hsame
  obtain ⟨old, s1, hold, h⟩ := h.of_bind
  obtain ⟨yes, s2, hmay, h⟩ := h.of_bind
  obtain ⟨rs, hmay⟩ := MakeM.onScopes_gives hmay
  have hyes : yes = !a.fixes sc.outer v := by
    rw [ScopeM.mayReplace_eq hmay]
    unfold lookup at hold
    split at hold
    · -- an automatic variable is replaced, and does not hide one that stays
      rename_i w hlocal
      cases hold
      have hfree : a.fixes sc.outer v = false := by
        by_contra hfix
        simp [ho.stays v (by simpa using hfix)] at hlocal
      rw [hfree]
      rfl
    · obtain ⟨rs', hold⟩ := MakeM.onScopes_gives hold
      rw [ScopeM.lookup_origin hold, ← ho.same.fixes]
      rfl
  cases hfix : a.fixes sc.outer v with
  | true =>
    rw [hyes, hfix] at h
    cases h
    exact ⟨⟨hover, ho.stays⟩, rfl, rfl⟩
  | false =>
    rw [hyes, hfix] at h
    cases h
    refine ⟨⟨hover, fun n hn => ?_⟩, rfl, rfl⟩
    have hne : n ≠ v := by
      rintro rfl
      exact absurd (hfix.symm.trans hn) (by decide)
    rw [lookup_cons, beq_eq_false_iff_ne.2 hne]
    exact ho.stays n hn

end Scope

namespace Recipe

open MakeM

theorem joinFound_gives {files : List (Option Text)} {f : Text → Text} {t : Text}
    (h : Gives (joinFound files f) s t s') :
    ∃ xs : List Text, files = xs.map some ∧ t = unwords (xs.map f) ∧ s = s' := by
  unfold joinFound at h
  split at h
  · rename_i xs hxs
    obtain ⟨rfl, rfl⟩ := gives_pure.1 h
    refine ⟨xs, ?_, rfl, rfl⟩
    clear h
    induction files generalizing xs with
    | nil =>
      cases hxs
      rfl
    | cons a l ih =>
      rw [mapM_cons] at hxs
      obtain ⟨x, rfl, h⟩ := Option.bind_eq_some_iff.1 hxs
      obtain ⟨ys, hys, h⟩ := Option.bind_eq_some_iff.1 h
      cases h
      rw [ih ys hys, map_cons]
  · cases h

/-- The automatic variables that begin with a character are defined: the first has the names of
files that were all found, and the others do not begin otherwise. -/
theorem automatic_gives {c : Char} {files : List (Option Text)} (ho : sc.Over a s)
    (h : Gives (automatic sc [c] files) s sc' s') :
    sc'.Over a s' ∧ sc'.outer = sc.outer ∧ (∃ xs, files = xs.map some ∧ sc'.Tells a [c] xs) ∧
      ∀ n, n.head? ≠ some c → sc'.locals.lookup n = sc.locals.lookup n := by
  obtain ⟨t, s1, ht, h⟩ := h.of_bind
  obtain ⟨xs, hxs, rfl, rfl⟩ := joinFound_gives ht
  obtain ⟨sc1, s2, hdefine, h⟩ := h.of_bind
  obtain ⟨ho1, houter1, hlocals1⟩ := Scope.define_gives ho hdefine
  obtain ⟨t, s3, ht, h⟩ := h.of_bind
  obtain ⟨-, -, -, rfl⟩ := joinFound_gives ht
  obtain ⟨sc2, s4, hdefine, h⟩ := h.of_bind
  obtain ⟨ho2, houter2, hlocals2⟩ := Scope.define_gives ho1 hdefine
  obtain ⟨t, s5, ht, hdefine⟩ := h.of_bind
  obtain ⟨-, -, -, rfl⟩ := joinFound_gives ht
  obtain ⟨ho3, houter3, hlocals3⟩ := Scope.define_gives ho2 hdefine
  -- the variants for directories and files hide no other name
  have hvariant : ∀ {sc sc' : Scope} {v value n : Text}, n ≠ v →
      sc'.locals = (if a.fixes sc.outer v then sc.locals else (v, value) :: sc.locals) →
      sc'.locals.lookup n = sc.locals.lookup n := by
    intro sc sc' v value n hne hlocals
    rw [hlocals]
    split
    · rfl
    · rw [lookup_cons, beq_eq_false_iff_ne.2 hne]
  have houter : sc'.outer = sc.outer := houter3.trans (houter2.trans houter1)
  refine ⟨ho3, houter, ⟨xs, hxs, ?_⟩, fun n hn => ?_⟩
  · rw [Scope.Tells, houter, hvariant (by simp) hlocals3, hvariant (by simp) hlocals2, hlocals1]
    cases hfix : a.fixes sc.outer [c] with
    | true => exact ho.stays _ hfix
    | false => simp
  · have hne : ∀ rest, n ≠ c :: rest := by
      rintro rest rfl
      exact hn rfl
    exact (hvariant (hne _) hlocals3).trans ((hvariant (hne _) hlocals2).trans
      (hvariant (hne _) hlocals1))

/-- A prerequisite is newer than the target, or the target is missing. -/
def newerThan (target dep : Target) : Bool :=
  match target.mtime, dep.mtime with
  | some none, _ => true
  | some time, some m => Time.later m time
  | _, _ => false

theorem isNewer_gives {target dep : Target} {b : Bool} (h : Gives (isNewer target dep) s b s') :
    b = newerThan target dep ∧ s = s' := by
  obtain ⟨time, ht, h⟩ := Gives.of_time h
  unfold newerThan
  cases time with
  | none =>
    cases h
    simp [ht]
  | some t =>
    obtain ⟨m, hm, h⟩ := Gives.of_time h
    cases h
    simp [ht, hm]

/-- The files of the prerequisites, in order. -/
def files (mk : Makefile) (prereqs : List Text) : List (Option Text) :=
  prereqs.map fun p => (mk.targetAt (properName p)).found

/-- The prerequisites that are newer than the target, each target once. -/
def newer (mk : Makefile) (name : Text) (prereqs : List Text) : List Text :=
  (nub (prereqs.map properName)).filter fun n => newerThan (mk.targetAt name) (mk.targetAt n)

/-- Nothing but automatic variables is defined in a scope, and they name these prerequisites: those
that are newer, all without repetitions, and all. -/
structure Lists (sc : Scope) (s : Session) (name : Text) (prereqs all newer : List Text) :
    Prop where
  found : files s.makefile prereqs = all.map some
  foundNewer : ((Recipe.newer s.makefile name prereqs).map fun n => (s.makefile.targetAt n).found) =
    newer.map some
  outer : sc.outer = [.target name, .global]
  locals : ∀ n : Text, n.head? ∉ "@<?^+*".toList.map some → sc.locals.lookup n = none
  question : sc.Tells s.makefile.scopes ['?'] newer
  caret : sc.Tells s.makefile.scopes ['^'] (nub all)
  plus : sc.Tells s.makefile.scopes ['+'] all

/-- Where an automatic variable begins with another character, the rest is as it was. -/
theorem Lists.extend {all newer : List Text} {c : Char} (hl : Lists sc s name prereqs all newer)
    (hc : c ∈ "@<*".toList) (houter : sc'.outer = sc.outer)
    (hothers : ∀ n : Text, n.head? ≠ some c → sc'.locals.lookup n = sc.locals.lookup n) :
    Lists sc' s name prereqs all newer := by
  have hkeep : ∀ {v : Text} {words}, v.head? ≠ some c → sc.Tells s.makefile.scopes v words →
      sc'.Tells s.makefile.scopes v words := by
    intro v words hv ht
    rw [Scope.Tells, hothers v hv, houter]
    exact ht
  have hne : ∀ {v : Char}, v ∉ "@<*".toList → head? [v] ≠ some c := by
    rintro v hv ⟨⟩
    exact hv hc
  refine ⟨hl.found, hl.foundNewer, houter.trans hl.outer, fun n hn => ?_,
    hkeep (hne (by decide)) hl.question, hkeep (hne (by decide)) hl.caret,
    hkeep (hne (by decide)) hl.plus⟩
  rw [hothers n fun e => hn (e ▸ mem_map_of_mem ?_)]
  · exact hl.locals n hn
  · exact (by decide : ∀ c ∈ "@<*".toList, c ∈ "@<?^+*".toList) c hc

/-- **The automatic variables name the files of the prerequisites.** -/
theorem automatics_gives (h : Gives (automatics (.ofTarget name) name prereqs) s sc' s') :
    sc'.Over s.makefile.scopes s' ∧ ∃ all newer, Lists sc' s name prereqs all newer := by
  obtain ⟨names, s1, hnames, h⟩ := h.of_bind
  have hm : Mentions s s1 := (keeps_mapM keeps_mention_mentions).of_gives hnames
  have hscopes : s1.makefile.scopes = s.makefile.scopes := by
    obtain ⟨more, e⟩ := hm
    rw [e]
  have ho : (Scope.ofTarget name).Over s.makefile.scopes s1 :=
    ⟨hscopes ▸ Scopes.sameValues_refl _, fun _ _ => rfl⟩
  obtain ⟨rfl, -⟩ := gives_mapM_of (fun _ _ _ _ _ h => ⟨mention_gives h, trivial⟩) trivial hnames
  obtain ⟨target, s2, htarget, h⟩ := h.of_bind
  obtain ⟨rfl, rfl⟩ := targetAt_gives htarget
  replace h := h.of_makefile
  obtain ⟨found, s2, hfound, h⟩ := h.of_bind
  obtain ⟨rfl, rfl⟩ := gives_filterM_of
    (fun n s b s' hs h => ⟨(isNewer_gives h).1, hs.trans (isNewer_gives h).2⟩) rfl hfound
  simp only [hm.targetAt] at h
  have hall : ((prereqs.map properName).map fun n => (s.makefile.targetAt n).found) =
      files s.makefile prereqs := by
    simp [files]
  rw [hall] at h
  obtain ⟨sc1, s3, hat, h⟩ := h.of_bind
  obtain ⟨ho1, houter1, -, hothers1⟩ := automatic_gives ho hat
  -- the first prerequisite may be missing; what is defined then does not depend on it
  have hrest : ∀ {sc2 s4}, sc2.Over s.makefile.scopes s4 → sc2.outer = [.target name, .global] →
      (∀ n : Text, n.head? ∉ ['@', '<'].map some → sc2.locals.lookup n = none) →
      Gives (do
        let sc ← automatic sc2 ['?'] ((Recipe.newer s.makefile name prereqs).map fun n =>
          (s.makefile.targetAt n).found)
        let sc ← automatic sc ['^'] (nub (files s.makefile prereqs))
        automatic sc ['+'] (files s.makefile prereqs)) s4 sc' s' →
      sc'.Over s.makefile.scopes s' ∧ ∃ all newer, Lists sc' s name prereqs all newer := by
    intro sc2 s4 ho2 houter2 hothers2 h
    obtain ⟨sc3, s5, hnewer, h⟩ := h.of_bind
    obtain ⟨ho3, houter3, ⟨newer, enewer, hquestion⟩, hothers3⟩ := automatic_gives ho2 hnewer
    obtain ⟨sc4, s6, hcaret, h⟩ := h.of_bind
    obtain ⟨ho4, houter4, ⟨once, eonce, hcaret⟩, hothers4⟩ := automatic_gives ho3 hcaret
    obtain ⟨ho5, houter5, ⟨all, eall, hplus⟩, hothers5⟩ := automatic_gives ho4 h
    have honce : once = nub all := by
      rw [eall, nub_map fun _ _ _ _ => Option.some.inj] at eonce
      exact ((Option.some_injective _).list_map eonce).symm
    refine ⟨ho5, all, newer, eall, enewer, ?_, fun n hn => ?_, ?_, ?_, hplus⟩
    · rw [houter5, houter4, houter3, houter2]
    · have hne : ∀ c ∈ "@<?^+*".toList, n.head? ≠ some c := fun c hc e => hn (e ▸ mem_map_of_mem hc)
      rw [hothers5 n (hne _ (by decide)), hothers4 n (hne _ (by decide)),
        hothers3 n (hne _ (by decide))]
      refine hothers2 n fun hmem => ?_
      obtain ⟨c, hc, e⟩ := mem_map.1 hmem
      exact hne c ((by decide : ∀ c ∈ ['@', '<'], c ∈ "@<?^+*".toList) c hc) e.symm
    · rw [Scope.Tells, hothers5 _ (by decide), hothers4 _ (by decide), houter5, houter4]
      exact hquestion
    · rw [Scope.Tells, hothers5 _ (by decide), houter5, ← honce]
      exact hcaret
  have hempty : ∀ n : Text, n.head? ∉ ['@', '<'].map some → sc1.locals.lookup n = none := by
    intro n hn
    rw [hothers1 n fun e => hn (by simp [e])]
    rfl
  split at h
  · obtain ⟨sc2, s4, hfirst, h⟩ := h.of_bind
    obtain ⟨ho2, houter2, -, hothers2⟩ := automatic_gives ho1 hfirst
    refine hrest ho2 (houter2.trans houter1) (fun n hn => ?_) h
    rw [hothers2 n fun e => hn (by simp [e])]
    exact hempty n hn
  · rw [pure_bind] at h
    exact hrest ho1 houter1 hempty h

/-- The scope of a recipe names the prerequisites that the recipe is told of. -/
theorem scope_gives {r : RuleRef} (h : Gives (scope name r) s sc' s') :
    ∃ all newer, Lists sc' s name (prereqsOf s.makefile (s.makefile.targetAt name) r)
      all newer := by
  replace h := h.of_makefile
  obtain ⟨sc, s1, hsc, h⟩ := h.of_bind
  obtain ⟨ho, all, newer, hl⟩ := automatics_gives hsc
  cases hstem : stemOf r with
  | none =>
    rw [hstem] at h
    cases h
    exact ⟨all, newer, hl⟩
  | some stem =>
    rw [hstem] at h
    obtain ⟨-, houter, -, hothers⟩ := automatic_gives ho h
    exact ⟨all, newer, hl.extend (by decide) houter hothers⟩

/-! ## All prerequisites, and the newer ones -/

/-- **The newer prerequisites and all of them.** The two lists are what `$?` and `$^` hold. What is
newer is always among all, but it is named once for each target, and in the list of all once for
each file. So it is a part of that list, in its order, if different prerequisites have different
files. If the target is missing, the list of all is what is newer without repetitions. -/
theorem automatics_lists (h : Gives (automatics (.ofTarget name) name prereqs) s sc' s') :
    ∃ all newer : List Text,
      all.map some = nub (prereqs.map fun p => (s.makefile.targetAt (properName p)).found) ∧
      newer.map some = ((nub (prereqs.map properName)).filter fun n =>
        newerThan (s.makefile.targetAt name) (s.makefile.targetAt n)).map
          (fun n => (s.makefile.targetAt n).found) ∧
      sc'.Tells s.makefile.scopes ['?'] newer ∧ sc'.Tells s.makefile.scopes ['^'] all ∧
      all.Nodup ∧ newer ⊆ all ∧
      ((∀ p ∈ prereqs, ∀ q ∈ prereqs, (s.makefile.targetAt (properName p)).found =
        (s.makefile.targetAt (properName q)).found → properName p = properName q) →
        newer.Sublist all) ∧
      ((s.makefile.targetAt name).mtime = some none →
        all = nub newer ∧ (newer = all ↔ newer.Nodup)) := by
  obtain ⟨-, ys, xs, hl⟩ := automatics_gives h
  have hxs := hl.foundNewer
  have hfiles : files s.makefile prereqs =
      (prereqs.map properName).map fun n => (s.makefile.targetAt n).found := by
    simp [files]
  have hys : nub (files s.makefile prereqs) = (nub ys).map some := by
    rw [hl.found, nub_map fun _ _ _ _ => Option.some.inj]
  refine ⟨nub ys, xs, hys.symm, hxs.symm, hl.question, hl.caret, nodup_nub ys, ?_, fun hinj => ?_,
    fun hmissing => ?_⟩
  · have hsub : xs.map some ⊆ (nub ys).map some := by
      rw [← hxs, ← hys, hfiles, newer]
      intro x hx
      obtain ⟨n, hn, rfl⟩ := mem_map.1 hx
      exact mem_nub.2 (mem_map_of_mem (mem_nub.1 (mem_filter.1 hn).1))
    exact (map_subset_iff some (Option.some_injective _)).1 hsub
  · have hnub : nub ((prereqs.map properName).map fun n => (s.makefile.targetAt n).found) = _ :=
      nub_map (by simpa using hinj)
    have hsub : (xs.map some).Sublist ((nub ys).map some) := by
      rw [← hxs, ← hys, hfiles, newer, hnub]
      exact filter_sublist.map _
    simpa using hsub.filterMap id
  · have hnub : (nub ys).map some = (nub xs).map some := by
      rw [← hys, ← nub_map fun _ _ _ _ => Option.some.inj, ← hxs, hfiles, newer,
        filter_eq_self.2 fun _ _ => ?_, nub_map_nub]
      simp [newerThan, hmissing]
    have hnub := (Option.some_injective _).list_map hnub
    exact ⟨hnub, fun h => h ▸ nodup_nub ys, fun h => (hnub.trans (nub_eq_self h)).symm⟩

/-- A target that was looked for and found, or is missing. -/
def Sample.found (name file : Text) (time : Option Time) : Target :=
  { Target.new name with found := some file, mtime := some time }

/-- A missing target, and two targets that were found at one file. -/
def Sample.sharedFile : Session where
  world := .fresh (.empty (.ofInt 1)) "/w" [] []
  makefile :=
    { Makefile.blank "/w" ⟨none, [], 0, none, [], [], 0, [], ⟨false, false, false⟩, 3⟩ with
      targets := [Sample.found "all" "all" none, Sample.found "x" "src/x" (some (.ofInt 1)),
        Sample.found "src/x" "src/x" (some (.ofInt 1))] }

theorem automatics_lists_missing :
    ∃ sc' s', Gives (automatics (.ofTarget "all") "all" ["x", "x"]) Sample.sharedFile sc' s' ∧
      ∃ all newer : List Text, all.map some = [some "src/x".toList] ∧ newer.Sublist all ∧
        all = nub newer := by
  obtain ⟨sc', s', h, -⟩ := exists_gives (x := automatics (.ofTarget "all") "all" ["x", "x"])
    (s := Sample.sharedFile) (p := fun _ => true) (by decide +kernel)
  obtain ⟨all, newer, hall, -, -, -, -, -, hsub, hnub⟩ := automatics_lists h
  exact ⟨sc', s', h, all, newer, hall.trans (by decide +kernel), hsub (by decide +kernel),
    (hnub (by decide +kernel)).1⟩

/-- Two prerequisites that are found at one file are named by `$?` both times. -/
theorem shared_file_named_twice :
    ∃ sc' s', Gives (automatics (.ofTarget "all") "all" ["x", "src/x"]) Sample.sharedFile sc' s' ∧
      sc'.locals.lookup ['?'] = some "src/x src/x" ∧ sc'.locals.lookup ['^'] = some "src/x" := by
  obtain ⟨sc', s', h, hwords⟩ :=
    exists_gives (x := automatics (.ofTarget "all") "all" ["x", "src/x"])
    (s := Sample.sharedFile) (p := fun sc => decide (sc.locals.lookup ['?'] = some "src/x src/x" ∧
      sc.locals.lookup ['^'] = some "src/x")) (by decide +kernel)
  exact ⟨sc', s', h, of_decide_eq_true hwords⟩

/-! ## What is made for a recipe, and what it is told of -/

section

variable {r : RuleRef} {mk mk' : Makefile} {t t' : Target}

/-- The prerequisites that a recipe waits for without being told of them: those of the other rules
of a single-colon target, if the recipe is that of a pattern rule. -/
def unlisted (mk : Makefile) (t : Target) (r : RuleRef) : List Text :=
  match r, mk.isDoubleColon t with
  | .fitted .., .ok false => (t.rules.filter (· != r)).flatMap mk.prereqs
  | _, _ => []

theorem listed_append_unlisted {dc : Bool} (hd : mk.isDoubleColon t = .ok dc)
    (hkind : ∀ id, r = .named id → mk.isDoubleColon t = .ok (mk.doubleColon r)) :
    prereqsOf mk t r ++ unlisted mk t r =
      mk.prereqs r ++ if dc then [] else (t.rules.filter (· != r)).flatMap mk.prereqs := by
  cases r with
  | named id =>
    have hdc : (mk.ruleAt id).doubleColon = dc := Except.ok.inj ((hkind id rfl).symm.trans hd)
    cases dc <;> simp [prereqsOf, unlisted, hdc, Makefile.prereqs]
  | fitted id fit => cases dc <;> simp [prereqsOf, unlisted, hd]

/-- What a recipe is told of depends on the rules only. -/
theorem prereqsOf_eq (hmk : mk' = { mk with scopes := mk'.scopes, targets := mk'.targets })
    (ht : t'.rules = t.rules) : prereqsOf mk' t' r = prereqsOf mk t r := by
  rw [hmk]
  unfold prereqsOf
  rw [ht]
  rfl

end

section

variable {stack : List Text} {avoidLoop : Bool} {rules : List RuleWork} {x : RuleWork} {r : RuleRef}

/-- The prerequisites that are made for a recipe are those it is told of, in the same order, and
after them those that are unlisted. -/
theorem ruleWorks_deps (h : Gives (RunM.ruleWorks name stack avoidLoop) s rules s') (hx : x ∈ rules)
    (hr : x.rule = some r) (hkind : ∀ id, r = .named id →
      s.makefile.isDoubleColon (s.makefile.targetAt name) = .ok (s.makefile.doubleColon r)) :
    x.deps.map Prod.fst = (prereqsOf s.makefile (s.makefile.targetAt name) r ++
      unlisted s.makefile (s.makefile.targetAt name) r).map properName := by
  obtain ⟨hplan, -⟩ := RunM.ruleWorks_gives h
  have hin : (some r, x.deps) ∈ rules.map fun x => (x.rule, x.deps) :=
    mem_map.2 ⟨x, hx, by rw [hr]⟩
  generalize rules.map (fun x => (x.rule, x.deps)) = plan at hplan hin
  cases hplan with
  | each double =>
    obtain ⟨_, -, e⟩ := mem_map.1 hin
    obtain ⟨⟨⟩, hdeps⟩ := Prod.mk.inj e
    rw [listed_append_unlisted (RunM.isDoubleColon_ok.2 double) hkind, ← hdeps]
    simp
  | @together rule single hrule =>
    obtain ⟨rfl, hdeps⟩ := Prod.mk.inj (mem_singleton.1 hin)
    -- the rules without a recipe are the others
    have hothers : ((s.makefile.targetAt name).rules.filter fun q => !s.makefile.hasCommands q) =
        (s.makefile.targetAt name).rules.filter (· != r) := by
      refine filter_congr fun q hq => ?_
      have hmem : ∀ q, q ∈ (s.makefile.targetAt name).rules ∧ s.makefile.hasCommands q = true ↔
          q = r := fun q => mem_filter.symm.trans (by rw [hrule]; exact mem_singleton)
      rw [bne, Bool.eq_iff_iff.2 ((and_iff_right hq).symm.trans ((hmem q).trans beq_iff_eq.symm))]
    rw [listed_append_unlisted (RunM.isDoubleColon_ok.2 single) hkind, hdeps]
    simp [RunM.gathered, hrule, hothers, RunM.depsIn, map_flatMap, Function.comp_def]

/-- **What a recipe is told of and what it waits for.** When the recipe is read, later and with the
same rules, `$+` holds the files of the prerequisites that were made for it, in the same order, but
for those at the end that are unlisted, of which a rule that is no pattern rule has none; `$^` holds
the same without repetitions. Reading refuses rules with one and with two colons for a target. -/
theorem scope_lists {u u' : Session} (h : Gives (RunM.ruleWorks name stack avoidLoop) s rules s')
    (hx : x ∈ rules) (hr : x.rule = some r) (hkind : ∀ id, r = .named id →
      s.makefile.isDoubleColon (s.makefile.targetAt name) = .ok (s.makefile.doubleColon r))
    (hmk : u.makefile =
      { s.makefile with scopes := u.makefile.scopes, targets := u.makefile.targets })
    (hrules : (u.makefile.targetAt name).rules = (s.makefile.targetAt name).rules)
    (hsc : Gives (scope name r) u sc u') :
    ∃ told all : List Text,
      x.deps.map Prod.fst =
        told ++ (unlisted s.makefile (s.makefile.targetAt name) r).map properName ∧
      all.map some = told.map (fun n => (u.makefile.targetAt n).found) ∧
      sc.Tells u.makefile.scopes ['+'] all ∧ sc.Tells u.makefile.scopes ['^'] (nub all) := by
  obtain ⟨all, newer, hl⟩ := scope_gives hsc
  refine ⟨(prereqsOf s.makefile (s.makefile.targetAt name) r).map properName, all, ?_, ?_, hl.plus,
    hl.caret⟩
  · rw [ruleWorks_deps h hx hr hkind, map_append]
  · rw [← hl.found, prereqsOf_eq hmk hrules, files, map_map]
    rfl

end

/-- A target with two rules, of which the weak one has no recipe, and its prerequisites. -/
def Sample.merged (r : RuleRef) : Session where
  world := .fresh (.empty (.ofInt 1)) "/w" [] []
  makefile :=
    { Makefile.blank "/w" ⟨none, [], 0, none, [], [], 0, [], ⟨false, false, false⟩, 3⟩ with
      targets := [{ Sample.found "foo.o" "foo.o" none with rules := [.named 0, r] },
        Sample.found "foo.c" "foo.c" (some (.ofInt 1)),
        Sample.found "foo.h" "foo.h" (some (.ofInt 1))]
      rules := [⟨["foo.h"], false, none, true, []⟩,
        ⟨["foo.c"], false, none, false, [.literal "cc" none]⟩]
      patternRules := [⟨[.stem [] ".o"], [.stem [] ".c"], false, none, [.literal "cc" none]⟩] }

theorem scope_lists_named :
    let s := Sample.merged (.named 1)
    let all : List Text := ["foo.c", "foo.h"]
    ∃ rules s', Gives (RunM.ruleWorks "foo.o" [] false) s rules s' ∧
      ∃ x ∈ rules, x.rule = some (.named 1) ∧ x.deps.map Prod.fst = all ∧
        ∃ sc u', Gives (scope "foo.o" (.named 1)) s sc u' ∧
          sc.Tells s.makefile.scopes ['+'] all ∧ sc.Tells s.makefile.scopes ['^'] all := by
  intro s all
  have h : Gives (RunM.ruleWorks "foo.o" [] false) s _ _ := rfl
  obtain ⟨sc, u', hsc, -⟩ := exists_gives (x := scope "foo.o" (.named 1)) (s := s)
    (p := fun _ => true) (by decide +kernel)
  obtain ⟨told, files, hdeps, hfiles, hplus, hcaret⟩ :=
    scope_lists h (mem_singleton.2 rfl) rfl (fun _ _ => rfl) rfl rfl hsc
  have htold : told = all := (append_nil told).symm.trans (hdeps.symm.trans (by decide +kernel))
  have hall : files = all := by
    rw [htold] at hfiles
    exact (Option.some_injective _).list_map (hfiles.trans (by decide +kernel))
  subst hall
  exact ⟨_, _, h, _, mem_singleton.2 rfl, rfl, by decide +kernel, sc, u', hsc, hplus, hcaret⟩

/-- The recipe of a pattern rule is not told of the prerequisites of the other rule. -/
theorem pattern_recipe_not_told :
    let r := .fitted 0 ⟨[], "foo", false⟩
    let s := Sample.merged r
    ∃ rules s', Gives (RunM.ruleWorks "foo.o" [] false) s rules s' ∧ ∃ x ∈ rules, x.rule = some r ∧
      x.deps.map Prod.fst = ["foo.c".toList, "foo.h".toList] ∧
      ∃ sc u', Gives (scope "foo.o" r) s sc u' ∧ sc.locals.lookup ['+'] = some "foo.c" := by
  intro r s
  obtain ⟨sc, u', hsc, hplus⟩ := exists_gives (x := scope "foo.o" r) (s := s)
    (p := fun sc => decide (sc.locals.lookup ['+'] = some "foo.c")) (by decide +kernel)
  exact ⟨_, _, rfl, _, mem_singleton.2 rfl, rfl, by decide +kernel, sc, u', hsc,
    of_decide_eq_true hplus⟩

end Recipe

end Rebuild
