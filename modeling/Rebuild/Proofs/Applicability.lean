import Rebuild.Proofs.Makefile.Search
import Rebuild.Proofs.Pattern
/-!
# Which pattern rule a target is given

Of the pattern rules that fit a target, the first is taken whose prerequisites are all mentioned by
name or there; only if there is none, one is taken whose prerequisites can be made by further rules
(`MakeM.findRule_selects`). The rules that other targets are given on the way stay with them,
whatever comes of the search (`MakeM.resolveTo_commits`).
-/

namespace Rebuild

open MakeM (Candidate)

/-! ## Names -/

theorem Text.append_of_cutLast? {s sep : Text} {p : Text × Text} (h : s.cutLast? sep = some p) :
    p.1 ++ sep ++ p.2 = s := by
  induction s generalizing p with
  | nil =>
    unfold cutLast? at h
    split at h
    · cases h
      simp_all
    · cases h
  | cons c rest ih =>
    unfold cutLast? at h
    split at h
    · rename_i q hq
      cases h
      simp [← ih hq]
    · split at h
      · rename_i hstart
        cases h
        obtain ⟨t, ht⟩ := List.isPrefixOf_iff_prefix.1 hstart
        simp [← ht]
      · cases h

theorem Text.append_partitionLast (s sep : Text) :
    (s.partitionLast sep).1 ++ (s.partitionLast sep).2.1 ++ (s.partitionLast sep).2.2 = s := by
  unfold partitionLast
  split
  · exact append_of_cutLast? ‹_›
  · rfl

/-! ## Candidates -/

namespace Makefile

/-- A pattern rule that is searched, with a recipe, has a pattern that gives the target. It matches
everything only if the rule is terminal, or no other pattern matches the file name of the target. -/
def Admits (mk : Makefile) (name : Text) (c : Candidate) : Prop :=
  c.id ∈ mk.implicit ∧ (mk.patternRuleAt c.id).commands ≠ [] ∧
    ∃ p ∈ (mk.patternRuleAt c.id).targets, p.resolve c.fit.dir c.fit.stem = name ∧
      (p.matchesAny = true → (mk.patternRuleAt c.id).doubleColon = false →
        ∀ id ∈ mk.implicit, (mk.patternRuleAt id).isSpecific (name.partitionLast ['/']).2.2 = false)

/-- All prerequisites of a candidate are mentioned by name or there. -/
def IsReady (mk : Makefile) (c : Candidate) : Prop := ∀ p ∈ mk.prereqs c.ref, mk.Known p

theorem Lacks.not_isReady {mk : Makefile} {c : Candidate} (h : mk.Lacks c) : ¬ mk.IsReady c := by
  obtain ⟨p, hp, ha⟩ := h
  exact fun hready => ha.not_known (hready p hp)

theorem admits_of_mem_candidates {mk : Makefile} {name : Text} {chain : List Nat} {c : Candidate}
    (hstem : mk.StemRules) (hc : c ∈ mk.candidates name chain) : mk.Admits name c := by
  obtain ⟨⟨-, hcommands⟩, hid, hfit⟩ := mem_candidates hc
  obtain ⟨p, hp, hname, hany⟩ := PatternRule.mem_fits (hstem c.id hid).2 hfit
  refine ⟨hid, by simpa [hasCommands, commands, Candidate.ref] using hcommands, p, hp,
    hname.trans (Text.append_partitionLast name _), fun hp hd id' hid' => ?_⟩
  simpa using List.any_eq_false.1 (hany hp hd) id' hid'

end Makefile

namespace MakeM

variable {fuel : Nat} {name : Text} {stack : List Text} {s s₁ s' : Session} {c : Candidate}

/-- A rule that is taken is added, and nothing that is known changes. -/
theorem takeRule_cases (hgo : s.Searched (· = name) s₁) (hc : c ∈ s.makefile.candidates name [])
    (hz : s.makefile.recipeCount (s.makefile.targetAt name) = 0)
    (h : Gives (takeRule name (indentOf stack) c) s₁ () s') :
    s₁.Searched (fun _ => False) s' ∧
      ((s'.makefile.targetAt name).rules = (s.makefile.targetAt name).rules ++ [c.ref] ∨
        (s'.makefile.targetAt name).rules = (s.makefile.targetAt name).rules ∧
          ¬ (s.makefile.targetAt name).found.isSome) := by
  have hrules := (hgo.target name).rule.resolve_right fun h => h.1 rfl
  constructor
  · refine searched_takeRule ((hgo.makes_iff _).2 (Makefile.mem_candidates hc).1) ?_ id h
    rw [hgo.recipeCount_eq]
    unfold Makefile.recipeCount at hz ⊢
    rwa [hrules]
  obtain ⟨s2, h2, hs2⟩ := takeRule_gives name (indentOf stack) c s₁
  obtain rfl := (h2.unique h).2
  rw [hs2, ← hrules, Makefile.targetAt, Makefile.target?_mapTarget (by exact fun _ => rfl),
    Makefile.targetAt]
  cases ht : s₁.makefile.target? name with
  | some t => exact .inl (by simp)
  | none =>
    -- a target that was looked for is in the makefile
    refine .inr ⟨rfl, fun hf => ?_⟩
    rw [← (hgo.file name id hf).1, Makefile.targetAt, ht] at hf
    cases hf

/-- **Which pattern rule a target is given.** A rule with a recipe one of whose patterns gives the
target: the first candidate whose prerequisites are all mentioned by name or there; if there is
none, one that is not terminal and whose prerequisites were made. If the search ends in vain, no
candidate for a target that was looked for has all its prerequisites. Reading makes only rules whose
patterns have stems (`Makefile.Steady.stems`). -/
theorem findRule_selects {r : Except Error Unit} (hs : s.makefile.finished = true)
    (hstem : s.makefile.StemRules) (hname : name ∈ stack)
    (hz : s.makefile.recipeCount (s.makefile.targetAt name) = 0)
    (h : (findRule (resolveTo fuel true) name stack []).run s = (r, s')) :
    ((s'.makefile.targetAt name).rules = (s.makefile.targetAt name).rules ∧
      (r = .ok () → (s.makefile.targetAt name).found.isSome →
        ∀ c ∈ s.makefile.candidates name [], ¬ s'.makefile.IsReady c)) ∨
    ∃ c, (s'.makefile.targetAt name).rules = (s.makefile.targetAt name).rules ++ [c.ref] ∧
      s.makefile.Admits name c ∧
      ((∃ before after, s.makefile.candidates name [] = before ++ c :: after ∧
          s'.makefile.IsReady c ∧ ∀ b ∈ before, ¬ s'.makefile.IsReady b) ∨
        (∀ b ∈ s.makefile.candidates name [], ¬ s'.makefile.IsReady b) ∧
          s.makefile.doubleColon c.ref = false ∧ ∃ s₁ s₂,
            Made (resolveTo fuel true · stack [c.id]) (s.makefile.prereqs c.ref) s₁ s₂ ∧
            Gives (takeRule name (indentOf stack) c) s₂ () s') := by
  have hkeeps : ∀ n ch, Keeps (Settles (fun _ => False) (· = name))
      (resolveTo fuel true n stack ch) :=
    fun n ch => searched_resolveTo fuel true n stack ch fun t ht => ht ▸ hname
  have hend := findRule_cases hkeeps name [] hs
  rw [h] at hend
  cases hend with
  | failed hgo => exact .inl ⟨(hgo.target name).rule.resolve_right fun h => h.1 rfl, nofun⟩
  | vain hgo hall =>
    exact .inl ⟨(hgo.target name).rule.resolve_right fun h => h.1 rfl, fun _ _ c hc =>
      (hall c hc).not_isReady⟩
  | direct hsplit hgo hbefore hready htake =>
    rename_i before after c s₁
    have hc : c ∈ s.makefile.candidates name [] :=
      hsplit ▸ List.mem_append_right _ List.mem_cons_self
    obtain ⟨hgo', hrules | ⟨hrules, hnew⟩⟩ := takeRule_cases hgo hc hz htake
    · refine .inr ⟨c, hrules, Makefile.admits_of_mem_candidates hstem hc,
        .inl ⟨before, after, hsplit, ?_, ?_⟩⟩
      · intro p hp
        rw [hgo'.prereqs_eq] at hp
        exact hgo'.known (hready p hp)
      · exact fun b hb => (hgo'.lacks (hbefore b hb)).not_isReady
    · exact .inl ⟨hrules, fun _ hf => absurd hf hnew⟩
  | chained hc hopen hgo hall hmade hgo₂ htake =>
    rename_i c s₁ s₂
    obtain ⟨hgo', hrules | ⟨hrules, hnew⟩⟩ := takeRule_cases (hgo.trans hgo₂) hc hz htake
    · refine .inr ⟨c, hrules, Makefile.admits_of_mem_candidates hstem hc,
        .inr ⟨fun b hb => ?_, hopen, s₁, s₂,
        hmade, htake⟩⟩
      exact (hgo'.lacks (hgo₂.lacks (hall b hb))).not_isReady
    · exact .inl ⟨hrules, fun _ hf => absurd hf hnew⟩

/-- Two rules that fit every target, the prerequisites of `x.b` for both and those of `y` for the
second. -/
def Sample.searched : Session where
  world := .fresh ⟨(["w"], .dir (.ofInt 1)) :: ["x.b.b", "x.b.c", "x.b.src", "y.src"].map
    fun file : String =>
    (["w", file.toList], .file (.ofInt 1) [] false), .ofInt 1, .ofInt 1000⟩ "/w" [] []
  makefile :=
    { Makefile.blank "/w" ⟨none, [], 0, none, [], [], 0, [], ⟨false, false, false⟩, 3⟩ with
    targets := [.new "x", .new "x.b", .new "y"]
    patternRules := [⟨[.stem [] []], [.stem [] ".b", .stem [] ".c"], false, none,
      [.literal "one" none]⟩,
      ⟨[.stem [] []], [.stem [] ".src"], false, none, [.literal "two" none]⟩]
    implicit := [0, 1]
    vpath := some []
    finished := true }

/-- The second rule is taken for `y`, for which the prerequisites of the first are not there. -/
theorem findRule_selects_second :
    let s := Sample.searched
    let s' := ((findRule (resolveTo 3 true) "y" ["y"] []).run s).2
    s.makefile.finished = true ∧ s.makefile.StemRules ∧
      s.makefile.recipeCount (s.makefile.targetAt "y") = 0 ∧
      ∃ c : Candidate, (s'.makefile.targetAt "y").rules = [c.ref] ∧ c.id = 1 ∧
      s.makefile.Admits "y" c ∧
        ∃ before after, s.makefile.candidates "y" [] = before ++ c :: after ∧
        s'.makefile.IsReady c ∧
          ∀ b ∈ before, ¬ s'.makefile.IsReady b := by
  intro s s'
  have hstem : s.makefile.StemRules := by
    unfold Makefile.StemRules
    decide +kernel
  have hz : s.makefile.recipeCount (s.makefile.targetAt "y") = 0 := by decide +kernel
  have hnone : (s.makefile.targetAt "y").rules = [] := by decide +kernel
  have hrules : (s'.makefile.targetAt "y").rules = [.fitted 1 ⟨[], "y", true⟩] := by decide +kernel
  refine ⟨rfl, hstem, hz, ?_⟩
  have hend := findRule_selects rfl hstem List.mem_cons_self hz
    (Prod.eta ((findRule (resolveTo 3 true) "y" ["y"] []).run s)).symm
  rw [hnone] at hend
  obtain ⟨hsame, -⟩ | ⟨⟨id, fit⟩, hc, hadmits, hfirst⟩ := hend
  · cases hrules.symm.trans hsame
  cases hrules.symm.trans hc
  rcases hfirst with hfirst | ⟨hlacks, -⟩
  · exact ⟨_, hc, rfl, hadmits, hfirst⟩
  · refine absurd (fun p hp => ?_) (hlacks _ (List.mem_of_getElem? (i := 1) rfl))
    have hps : s'.makefile.prereqs (.fitted 1 ⟨[], "y", true⟩) = [("y.src" : Text)] := by
      decide +kernel
    cases List.mem_singleton.1 (hps ▸ hp)
    exact .inr ⟨by decide +kernel, .ofInt 1, by decide +kernel⟩

/-- **What a search commits**, whether it succeeds or fails: a target that has no recipe and is not
on the stack may be given one pattern rule with a recipe, and keeps it; no other rules change. -/
theorem resolveTo_commits {deep : Bool} {chain : List Nat} {r : Except Error Unit}
    (hs : s.makefile.finished = true) (h : (resolveTo fuel deep name stack chain).run s = (r, s'))
    (t : Text) :
    (s'.makefile.targetAt t).rules = (s.makefile.targetAt t).rules ∨
      t ∉ stack ∧ s.makefile.recipeCount (s.makefile.targetAt t) = 0 ∧
        ∃ ref, s.makefile.Makes ref ∧ (s'.makefile.targetAt t).rules =
        (s.makefile.targetAt t).rules ++ [ref] := by
  have hgo := searched_resolveTo fuel deep name stack chain (fun _ => id) s hs
  rw [h] at hgo
  exact (hgo.target t).rule

/-- The search for `x` fails, and `x.b` keeps the rule it was given on the way. -/
theorem resolveTo_commits_failed :
    let s := Sample.searched
    let s' := ((resolveTo 3 false "x" [] []).run s).2
    s.makefile.finished = true ∧ ((resolveTo 3 false "x" [] []).run s).1.toOption = none ∧
      s.makefile.recipeCount (s.makefile.targetAt "x.b") = 0 ∧
      ∃ ref, s.makefile.Makes ref ∧
        (s'.makefile.targetAt "x.b").rules = (s.makefile.targetAt "x.b").rules ++ [ref] := by
  intro s s'
  have hne : (s'.makefile.targetAt "x.b").rules ≠ (s.makefile.targetAt "x.b").rules := by
    decide +kernel
  have hend := resolveTo_commits rfl (Prod.eta ((resolveTo 3 false "x" [] []).run s)).symm "x.b"
  exact ⟨rfl, by decide +kernel, (hend.resolve_left hne).2⟩

/-- A search that fails decides which rule another target is given afterwards. -/
theorem failed_search_decides :
    let s := Sample.searched
    let s' := ((resolveTo 3 false "x" [] []).run s).2
    ((resolveTo 3 false "x" [] []).run s).1.toOption = none ∧
    (((resolveTo 3 false "x.b" [] []).run s).2.makefile.targetAt "x.b").rules =
    [.fitted 0 ⟨[], "x.b", true⟩] ∧
    (((resolveTo 3 false "x.b" [] []).run s').2.makefile.targetAt "x.b").rules =
      [.fitted 1 ⟨[], "x.b", true⟩] := by
  decide +kernel

end MakeM

end Rebuild
