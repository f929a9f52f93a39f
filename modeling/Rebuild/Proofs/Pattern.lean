import Mathlib.Data.List.Forall2
import Rebuild.Makefile.Start
import Rebuild.Proofs.Text
/-!
# Patterns and the words they match

To match a word is to find the stem that gives the word (`Pattern.match?_inverse`), also where a
pattern rule takes the directory of a target apart. Some that ask whether a word matches want more:
a word that leaves nothing for the stem counts for them as one that does not match
(`Pattern.empty_stem_passed_over`).
-/

namespace Rebuild

open List

variable {p : Pattern} {word x : Text}

namespace Pattern

theorem match?_stem_iff {a b : Text} : (stem a b).match? word = some x ↔ a ++ x ++ b = word := by
  unfold match?
  dsimp only
  constructor
  · intro h
    split at h
    · rename_i hc
      simp only [Bool.and_eq_true, decide_eq_true_eq] at hc
      obtain ⟨⟨hlength, hstart⟩, hend⟩ := hc
      obtain ⟨u, rfl⟩ := isPrefixOf_iff_prefix.1 hstart
      -- the end of the word cannot reach into what stands before the stem: the word is long enough
      obtain ⟨m, rfl⟩ : b <:+ u := by
        refine suffix_of_suffix_length_le (isSuffixOf_iff_suffix.1 hend) (suffix_append a u) ?_
        rw [length_append] at hlength
        omega
      cases h
      simp
    · cases h
  · rintro rfl
    have hstart : (a ++ x ++ b).startsWith a = true := isPrefixOf_iff_prefix.2 (by simp)
    have hend : (a ++ x ++ b).endsWith b = true := isSuffixOf_iff_suffix.2 (suffix_append _ _)
    rw [hstart, hend, if_pos (by simp)]
    simp

theorem match?_exact_iff {s : Text} : (exact s).match? word = some x ↔ word = s ∧ x = s := by
  unfold match?
  dsimp only
  split
  · rename_i h
    obtain rfl : word = s := by simpa using h
    simp [eq_comm]
  · rename_i h
    simp [show word ≠ s by simpa using h]

section

variable (hp : p.isPattern = true)
include hp

/-- A stem gives a word if and only if the word has this stem. -/
theorem match?_eq_some_iff : p.match? word = some x ↔ p.resolve [] x = word := by
  cases p with
  | exact s => cases hp
  | stem a b => exact match?_stem_iff

/-- The stem of a word gives the word. -/
theorem resolve_of_match? (h : p.match? word = some x) (dir : Text) :
    p.resolve dir x = dir ++ word := by
  cases p with
  | exact s => cases hp
  | stem a b => simp [resolve, ← match?_stem_iff.1 h]

theorem eq_of_resolve_eq {y dir : Text} (h : p.resolve dir x = p.resolve dir y) : x = y := by
  cases p with
  | exact s => cases hp
  | stem a b => simpa [resolve] using h

/-- A word that matches is what the pattern gives for its own stem, so a pattern that stands in its
own place changes nothing. -/
theorem subst_self {text : Text} (hparse : parse text = .ok p) (word : Text) :
    p.subst text word = .ok word := by
  unfold subst
  split
  · rfl
  · rename_i x h
    rw [if_pos hp, hparse]
    exact congrArg Except.ok ((match?_eq_some_iff hp).1 h)

theorem patsubst_self {text : Text} (hparse : parse text = .ok p) (ws : List Text) :
    Function.patsubst p text ws = .ok ws := by
  unfold Function.patsubst
  induction ws with
  | nil => rfl
  | cons w ws ih =>
    rw [mapM_cons, subst_self hp hparse, ih]
    rfl

end

end Pattern

/-! ## Pattern rules -/

namespace PatternRule

/-- What a rule does with one of its patterns. -/
def fit? (r : PatternRule) (dir file : Text) (skipAny : Bool) (p : Pattern) : Option Fit :=
  if p.matchesAny then
    if skipAny && !r.doubleColon then none else some ⟨dir, file, true⟩
  else fitOf p dir file

variable {r : PatternRule} {dir file : Text} {skipAny : Bool} {fit : Fit}

/-- Where a pattern fits a target, it gives the target. -/
theorem resolve_of_fit? (hp : p.isPattern = true) (h : r.fit? dir file skipAny p = some fit) :
    p.resolve fit.dir fit.stem = dir ++ file := by
  unfold fit? at h
  split at h
  · rename_i hany
    obtain rfl : p = .stem [] [] := by simpa [Pattern.matchesAny] using hany
    split at h
    · cases h
    · cases h
      simp [Pattern.resolve]
  · unfold fitOf at h
    split at h
    · cases h
      exact Pattern.resolve_of_match? hp ‹_› _
    · cases h
      exact Pattern.resolve_of_match? hp ‹_› _
    · cases h

/-- A pattern fits a target that it matches as a whole or by its file name; one that matches
everything, if it may. -/
theorem isSome_fit? : (r.fit? dir file skipAny p).isSome =
    if p.matchesAny then !skipAny || r.doubleColon
    else (p.match? (dir ++ file)).isSome || (p.match? file).isSome := by
  unfold fit? fitOf
  split
  · cases skipAny <;> cases r.doubleColon <;> rfl
  · split
    · simp [*]
    · simp [*]
    · simp [*]

/-- Where a pattern rule fits a target, one of its patterns gives the target; a pattern that matches
everything only if it may. -/
theorem mem_fits (hstem : ∀ p ∈ r.targets, p.isPattern = true) (h : fit ∈ r.fits dir file skipAny) :
    ∃ p ∈ r.targets, p.resolve fit.dir fit.stem = dir ++ file ∧
      (p.matchesAny = true → r.doubleColon = false → skipAny = false) := by
  obtain ⟨p, hp, hfit⟩ := mem_filterMap.1 h
  refine ⟨p, hp, resolve_of_fit? (hstem p hp) hfit, fun hany hd => ?_⟩
  have hsome := isSome_fit?.symm.trans (Option.isSome_of_eq_some hfit)
  simpa [hany, hd] using hsome

/-- The fits of a rule belong to the patterns that fit, in their order. -/
theorem forall₂_fits (hstem : ∀ p ∈ r.targets, p.isPattern = true) (dir file : Text)
    (skipAny : Bool) :
    List.Forall₂ (fun p fit => p.resolve fit.dir fit.stem = dir ++ file)
      (r.targets.filter fun p => (r.fit? dir file skipAny p).isSome) (r.fits dir file skipAny) := by
  change List.Forall₂ _ _ (r.targets.filterMap (r.fit? dir file skipAny))
  generalize r.targets = ps at hstem ⊢
  induction ps with
  | nil => exact .nil
  | cons p ps ih =>
    obtain ⟨hp, hps⟩ := forall_mem_cons.1 hstem
    cases hfit : r.fit? dir file skipAny p with
    | none => simpa [hfit] using ih hps
    | some fit => simpa [hfit] using And.intro (resolve_of_fit? hp hfit) (ih hps)

end PatternRule

/-- **Matching and putting in a stem are inverse.** A word has a stem if and only if the stem gives
the word; it has one at most. A pattern that replaces itself leaves every word as it is, and the
fits of a pattern rule are the ways in which its patterns give the target: of all the patterns that
match it, as a whole or by its file name, and of those that match everything if they may. -/
theorem Pattern.match?_inverse (p : Pattern) (hp : p.isPattern = true) (r : PatternRule)
    (hr : ∀ q ∈ r.targets, q.isPattern = true) :
    (∀ word x, p.match? word = some x ↔ p.resolve [] x = word) ∧
    (∀ x y, p.resolve [] x = p.resolve [] y → x = y) ∧
    (∀ text, Pattern.parse text = .ok p →
      (∀ word, p.subst text word = .ok word) ∧
      ∃ f, Builtin.patsubst.textual?.map (· [text, text]) = some (.ok f) ∧
        ∀ s, f s = .ok (Text.unwords s.words)) ∧
    ∀ dir file skipAny, List.Forall₂ (fun q fit => q.resolve fit.dir fit.stem = dir ++ file)
      (r.targets.filter fun q => if q.matchesAny then !skipAny || r.doubleColon
        else (q.match? (dir ++ file)).isSome || (q.match? file).isSome)
      (r.fits dir file skipAny) := by
  refine ⟨fun _ _ => match?_eq_some_iff hp, fun _ _ => eq_of_resolve_eq hp, fun text hparse => ?_,
    fun dir file skipAny => ?_⟩
  · refine ⟨subst_self hp hparse, fun s =>
      do return Text.unwords (← Function.patsubst p text s.words), ?_,
      fun s => ?_⟩
    · simp only [Builtin.textual?, Option.map_some, hparse]
      rfl
    · dsimp only
      rw [patsubst_self hp hparse]
      rfl
  · simp only [← PatternRule.isSome_fit?]
    exact PatternRule.forall₂_fits hr dir file skipAny

theorem Pattern.match?_inverse_object :
    (∀ q ∈ [Pattern.stem [] ".o", .stem "lib" ".a"], q.isPattern = true) ∧
    (∃ f, Builtin.patsubst.textual?.map (· ["%.o", "%.o"]) = some (.ok f) ∧
      f "a.o b.c  .o" = .ok "a.o b.c .o") ∧
    List.Forall₂ (fun (q : Pattern) (fit : Fit) => q.resolve fit.dir fit.stem = "x/lib.a")
      [.stem "lib" ".a"]
      ((PatternRule.mk [.stem [] ".o", .stem "lib" ".a"] [] false none []).fits "x/"
        "lib.a" true) := by
  have hstem : ∀ q ∈ [Pattern.stem [] ".o", .stem "lib" ".a"], q.isPattern = true := by decide
  obtain ⟨-, -, h, hfits⟩ := match?_inverse (.stem [] ".o") rfl ⟨_, [], false, none, []⟩ hstem
  obtain ⟨-, f, hf, hs⟩ := h "%.o" (by decide +kernel)
  exact ⟨hstem, ⟨f, hf, by rw [hs]; decide +kernel⟩, hfits "x/" "lib.a" true⟩

/-! ## Words that leave nothing for the stem -/

namespace Pattern

theorem matchesInk_iff :
    p.matchesInk word = true ↔ (p.match? word).isSome = true ∧ p.match? word ≠ some [] := by
  unfold matchesInk
  split <;> simp [*]

/-- The stem of a word is empty if the pattern without its percent sign is the word. -/
theorem match?_eq_nil_iff :
    p.match? word = some [] ↔ p.resolve [] [] = word ∧ (p.isPattern = true ∨ word = []) := by
  cases p with
  | exact s =>
    rw [match?_exact_iff]
    simp only [resolve, isPattern]
    grind
  | stem a b =>
    rw [match?_stem_iff]
    simp [resolve, isPattern]

/-- One of the patterns matches the word. -/
def anyMatches (ps : List Pattern) (word : Text) : Bool := ps.any fun p => (p.match? word).isSome

/-- The word matches, but leaves nothing for the stem of any pattern. -/
def slips (ps : List Pattern) (word : Text) : Bool :=
  anyMatches ps word && ps.all fun p => p.match? word == none || p.match? word == some []

theorem any_matchesInk (ps : List Pattern) (word : Text) :
    ps.any (·.matchesInk word) = (anyMatches ps word && !slips ps word) := by
  rw [Bool.eq_iff_iff]
  simp only [slips, anyMatches, Bool.and_eq_true, Bool.not_eq_true',
    ← Bool.not_eq_true, any_eq_true,
    all_eq_true, Bool.or_eq_true, beq_iff_eq, matchesInk_iff, Option.isSome_iff_ne_none]
  constructor
  · rintro ⟨p, hp, hsome, hne⟩
    exact ⟨⟨p, hp, hsome⟩, fun h => (h.2 p hp).elim hsome hne⟩
  · rintro ⟨hany, hslips⟩
    by_contra hno
    push Not at hno
    exact hslips ⟨hany, fun p hp => or_iff_not_imp_left.2 (hno p hp)⟩

theorem any_matchesInk_eq_iff (ps : List Pattern) (word : Text) :
    ps.any (·.matchesInk word) = anyMatches ps word ↔ slips ps word = false := by
  rw [any_matchesInk, slips]
  cases anyMatches ps word <;> simp

end Pattern

/-- Two choices from a list are the same if they agree on all its members. -/
theorem filter_eq_filter_iff {α : Type} {f g : α → Bool} {l : List α} :
    l.filter f = l.filter g ↔ ∀ a ∈ l, f a = g a := by
  refine ⟨fun h a ha => ?_, filter_congr⟩
  have hmem : a ∈ l.filter f ↔ a ∈ l.filter g := by rw [h]
  simpa [mem_filter, ha, ← Bool.eq_iff_iff] using hmem

/-- **A word that leaves nothing for the stem is passed over**, that is a word that is the pattern
without its percent sign. `filter` drops a word that matches in this way only and `filter-out` keeps
it, so they choose by matching alone if and only if there is no such word. Likewise a target takes
neither the variables nor the directories of a pattern that it matches in this way. -/
theorem Pattern.empty_stem_passed_over (ps : List Pattern) (ws : List Text)
    (mk : Makefile) (t : Text) :
    (∀ p word, match? p word = some [] ↔ p.resolve [] [] = word ∧
      (p.isPattern = true ∨ word = [])) ∧
    (∀ text, text.words.mapM parse = .ok ps →
      Builtin.filter.textual?.map (· [text]) = some (.ok (Builtin.ofWords (Function.filter ps))) ∧
      Builtin.filterOut.textual?.map (· [text]) =
      some (.ok (Builtin.ofWords (Function.filterOut ps)))) ∧
    Function.filter ps ws = ws.filter (fun w => anyMatches ps w && !slips ps w) ∧
    Function.filterOut ps ws = ws.filter (fun w => !anyMatches ps w || slips ps w) ∧
    (Function.filter ps ws = ws.filter (anyMatches ps ·) ↔ ∀ w ∈ ws, slips ps w = false) ∧
    (Function.filterOut ps ws = ws.filter (!anyMatches ps ·) ↔ ∀ w ∈ ws, slips ps w = false) ∧
    (∀ p, p ∈ mk.patternsFor t ↔ p ∈ mk.patternScopes ∧ (p.match? t).isSome = true ∧
      p.match? t ≠ some []) ∧
    ∀ dirs, mk.vpath = some dirs → ∃ found, mk.searchPath t = .ok found ∧ ∀ d, d ∈ found ↔
      d ∈ dirs ∨ ∃ q ∈ mk.vpaths, ((q.1.match? t).isSome = true ∧ q.1.match? t ≠ some []) ∧
      d ∈ q.2 := by
  refine ⟨fun _ _ => match?_eq_nil_iff, fun text htext => ?_, ?_, ?_, ?_, ?_,
    fun p => ?_, fun dirs hdirs => ?_⟩
  · constructor <;> simp only [Builtin.textual?, Option.map_some, htext] <;> rfl
  · exact filter_congr fun w _ => any_matchesInk ps w
  · refine filter_congr fun w _ => ?_
    rw [any_matchesInk, Bool.not_and, Bool.not_not]
  · exact filter_eq_filter_iff.trans (forall₂_congr fun w _ => any_matchesInk_eq_iff ps w)
  · refine filter_eq_filter_iff.trans (forall₂_congr fun w _ => ?_)
    rw [← any_matchesInk_eq_iff, Bool.not_inj_iff]
  · rw [Makefile.patternsFor, mem_filter, matchesInk_iff]
  · simp only [Makefile.searchPath, hdirs]
    refine ⟨_, rfl, fun d => ?_⟩
    simp only [Text.mem_nub, mem_append, mem_flatMap, mem_filter, matchesInk_iff, and_assoc]

theorem Pattern.empty_stem_passed_over_object :
    Builtin.filter.textual?.map (· ["a%"]) = some
      (.ok (Builtin.ofWords (Function.filter [.stem "a" []]))) ∧
      Function.filter [.stem "a" []] ["ab", "a", "b"] = ["ab"] := by
  have h := empty_stem_passed_over [.stem "a" []] ["ab", "a", "b"]
    (.blank [] ⟨none, [], 0, none, [], [], 0, [],
    ⟨false, false, false⟩, 0⟩) []
  exact ⟨(h.2.1 "a%" (by decide +kernel)).1, h.2.2.1.trans (by decide +kernel)⟩

/-- The word of a pattern without its percent sign matches it, and nobody takes it. -/
theorem Pattern.bare_word_not_taken :
    let p := stem "a" []
    let mk := { Makefile.blank [] ⟨none, [], 0, none, [], [], 0, [], ⟨false, false, false⟩, 0⟩ with
      patternScopes := [p], vpath := some [], vpaths := [(p, ["src"])] }
    p.match? "a" = some [] ∧ Function.filter [p] ["a"] = [] ∧ Function.filterOut [p] ["a"] = ["a"] ∧
      mk.patternsFor "a" = [] ∧ mk.searchPath "a" = .ok [] := by
  decide +kernel

end Rebuild
