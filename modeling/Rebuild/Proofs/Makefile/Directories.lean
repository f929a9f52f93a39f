import Rebuild.Proofs.Computation
import Rebuild.Proofs.Pattern
/-!
# Search directories

The directives on search directories keep a table of patterns with directories. What some directives
leave is said without the table (`Search.kept`): the entries that no later directive clears. A
directive that would clear the entries of one pattern is refused while there are entries of any
pattern (`Search.Directs.table`), so that only the directive that clears all entries ever does it.
-/

namespace Rebuild

open List

namespace Search

/-- The entry that the words of a directive make, if they name directories. -/
def made? : List Text → Option (Pattern × List Text)
  | [] => none
  | p :: paths =>
    let dirs := (paths.flatMap (·.splitOn ':')).filter (!·.isEmpty)
    if dirs.isEmpty then none else (Pattern.parse p).toOption.map (·, dirs)

/-- The directive clears the entries of a pattern: all entries, or those of this pattern. -/
def clears (p : Pattern) : List Text → Bool
  | [] => true
  | [q] => (Pattern.parse q).toOption == some p
  | _ => false

/-- The entries of some directives that no later directive clears, in order. -/
def kept : List (List Text) → List (Pattern × List Text)
  | [] => []
  | ws :: rest => (made? ws).toList.filter (fun q => !rest.any (clears q.1)) ++ kept rest

/-- The directive cannot be carried out: its pattern cannot be read, or stands alone while there are
entries. -/
def refused (table : List (Pattern × List Text)) : List Text → Bool
  | [] => false
  | p :: paths => (Pattern.parse p).toOption.isNone || paths.isEmpty && !table.isEmpty

variable {wss : List (List Text)} {ws : List Text}

theorem kept_concat (wss : List (List Text)) (ws : List Text) :
    kept (wss ++ [ws]) = (kept wss).filter (fun q => !clears q.1 ws) ++ (made? ws).toList := by
  induction wss with
  | nil => simp [kept]
  | cons w wss ih =>
    rw [cons_append, kept, ih, kept, filter_append, append_assoc, filter_filter]
    congr 2
    funext q
    simp [any_append, Bool.and_comm]

/-- What a directive that is carried out makes of the entries: it clears all, or adds its own. -/
theorem kept_concat_of_not_refused (h : refused (kept wss) ws = false) :
    kept (wss ++ [ws]) = if ws.isEmpty then [] else kept wss ++ (made? ws).toList := by
  rw [kept_concat]
  rcases ws with _ | ⟨p, _ | ⟨d, paths⟩⟩
  · simp [clears, made?]
  · -- A pattern alone is carried out only where it has nothing to clear.
    have hnil : kept wss = [] := by simp_all [refused]
    simp [hnil]
  · simp [clears]

open Execute

variable {b : Below} {e : Expansion} {s s1 s' : Session}

theorem clearSearch_nil (h : s.makefile.vpaths = []) : Gives clearSearch s ⟨⟩ s := by
  unfold Gives clearSearch
  rw [Gives.run_bind (x := MakeM.makefile) rfl, h]
  rfl

theorem clearSearch_fails (h : s.makefile.vpaths ≠ []) : ∃ err, Fails clearSearch s err s := by
  unfold Fails clearSearch
  rw [Gives.run_bind (x := MakeM.makefile) rfl]
  rcases hv : s.makefile.vpaths with _ | ⟨⟨_ | _, _⟩, _⟩
  · exact absurd hv h
  · exact ⟨_, rfl⟩
  · exact ⟨_, rfl⟩

/-- A directive of known words that is refused. -/
theorem vpath_fails (h : Gives (names b e) s ws s1) (hr : refused s1.makefile.vpaths ws = true) :
    ∃ err, Fails (vpath b e) s err s1 := by
  simp only [Fails, vpath, h.run_bind]
  rcases ws with _ | ⟨p, paths⟩
  · cases hr
  · dsimp only
    cases hp : Pattern.parse p with
    | error err => exact ⟨err, rfl⟩
    | ok q =>
      obtain ⟨rfl, hv⟩ : paths = [] ∧ s1.makefile.vpaths ≠ [] := by
        simpa [refused, hp, Except.toOption] using hr
      exact clearSearch_fails hv

/-- A directive of known words that is carried out changes the entries and nothing else. -/
theorem vpath_gives (h : Gives (names b e) s ws s1) (hr : refused s1.makefile.vpaths ws = false) :
    Gives (vpath b e) s ⟨⟩ { s1 with makefile := { s1.makefile with
      vpaths := if ws.isEmpty then [] else s1.makefile.vpaths ++ (made? ws).toList } } := by
  simp only [Gives, vpath, h.run_bind]
  rcases ws with _ | ⟨p, paths⟩
  · rfl
  · dsimp only
    cases hp : Pattern.parse p with
    | error err => simp [refused, hp, Except.toOption] at hr
    | ok q =>
      rcases paths with _ | ⟨d, paths⟩
      · have hv : s1.makefile.vpaths = [] := by simpa [refused, hp, Except.toOption] using hr
        refine (clearSearch_nil hv).trans ?_
        simp [made?]
      · simp only [made?, hp, isEmpty_cons]
        cases ((d :: paths).flatMap (·.splitOn ':')).filter (!·.isEmpty) with
        | nil =>
          simp only [isEmpty_nil, if_true, Option.toList_none, append_nil]
          rfl
        | cons x xs => rfl

/-- Directives of known words were carried out one after the other. Between them anything may have
happened that left the entries as they were. -/
inductive Directs (b : Below) (s : Session) : List (List Text) → Session → Prop
  | start : Directs b s [] s
  | next {s1 s2 s3 s' : Session} {e : Expansion} {wss : List (List Text)} {ws : List Text} :
      Directs b s wss s1 →
    s2.makefile.vpaths = s1.makefile.vpaths → Gives (names b e) s2 ws s3 →
    s3.makefile.vpaths = s2.makefile.vpaths → Gives (vpath b e) s2 ⟨⟩ s' →
    Directs b s (wss ++ [ws]) s'

/-- The entries are what is kept of the directives. -/
theorem Directs.vpaths (h : Directs b s wss s') (hs : s.makefile.vpaths = []) :
    s'.makefile.vpaths = kept wss := by
  induction h with
  | start => exact hs
  | @next s1 s2 s3 s' e wss ws _ hbetween hnames hsame hgives ih =>
    have hentries : s3.makefile.vpaths = kept wss := hsame.trans (hbetween.trans ih)
    cases hr : refused s3.makefile.vpaths ws with
    | true =>
      obtain ⟨err, hfails⟩ := vpath_fails hnames hr
      cases hgives.symm.trans hfails
    | false =>
      obtain ⟨-, rfl⟩ := (vpath_gives hnames hr).unique hgives
      rw [hentries] at hr
      rw [kept_concat_of_not_refused hr, ← hentries]

/-- **A directive for one pattern alone is refused where there are entries; else the table is what
the directives say.** After directives on an empty table, a target is searched in the general
directories and then in those of the entries that no later directive has cleared and that it matches
with something left for the stem, in order and each once. One more directive fails if and only if
its pattern cannot be read, or it is a pattern alone while entries of the earlier ones are left, of
whatever pattern. -/
theorem Directs.table (h : Directs b s wss s') (hs : s.makefile.vpaths = []) :
    (∀ (mk : Makefile) (dirs : List Text) (t : Text), mk.vpaths = s'.makefile.vpaths →
      mk.vpath = some dirs →
      mk.searchPath t = .ok (Text.nub (dirs ++ ((kept wss).filter fun q =>
        (q.1.match? t).isSome && q.1.match? t != some []).flatMap (·.2)))) ∧
    ∀ (e : Expansion) (ws : List Text) (s1 : Session), Gives (names b e) s' ws s1 →
      s1.makefile.vpaths = s'.makefile.vpaths →
      ((∃ err s2, Fails (vpath b e) s' err s2) ↔ refused (kept wss) ws = true) := by
  have hentries := h.vpaths hs
  refine ⟨fun mk dirs t hmk hdirs => ?_, fun e ws s1 hnames hsame => ?_⟩
  · have hmatch (q : Pattern × List Text) :
        q.1.matchesInk t = ((q.1.match? t).isSome && q.1.match? t != some []) := by
      rw [Bool.eq_iff_iff, Pattern.matchesInk_iff]
      simp
    simp only [Makefile.searchPath, hdirs, hmk, hentries, hmatch]
  · rw [← hentries, ← hsame]
    constructor
    · rintro ⟨err, s2, hfails⟩
      by_contra hr
      cases (vpath_gives hnames (Bool.eq_false_iff.2 hr)).symm.trans hfails
    · intro hr
      obtain ⟨err, hfails⟩ := vpath_fails hnames hr
      exact ⟨err, s1, hfails⟩

/-- A makefile of which nothing is read, in an empty world. -/
def unread : Session :=
  ⟨.fresh (.empty (.ofInt 1)) [] [] [],
    .blank [] ⟨none, [], 0, none, [], [], 0, [], ⟨false, false, false⟩, 0⟩⟩

/-- A directive without references says the same in every state. -/
theorem names_literal {t : Text} (h : t.words.map Path.stripDotSlash = ws) (s : Session) :
    Gives (names .bottom (.literal t none)) s ws s := by
  subst h
  rfl

theorem Directs.table_two :
    ∃ s', Directs .bottom unread [["%.c", "src:lib"], ["a%", "src"]] s' ∧
    unread.makefile.vpaths = [] ∧
      { s'.makefile with vpath := some ["gen"] }.searchPath "a.c" = .ok ["gen", "src", "lib"] := by
  have h1 := @names_literal ["%.c", "src:lib"] "%.c src:lib" (by decide +kernel)
  have h2 := @names_literal ["a%", "src"] "a% src" (by decide +kernel)
  obtain ⟨s', h⟩ : ∃ s', Directs .bottom unread [["%.c", "src:lib"], ["a%", "src"]] s' :=
    ⟨_, .next (.next .start rfl (h1 _) rfl (vpath_gives (h1 _) (by decide +kernel)))
      rfl (h2 _) rfl (vpath_gives (h2 _) (by decide +kernel))⟩
  refine ⟨s', h, rfl,
    ((h.table rfl).1 { s'.makefile with vpath := some ["gen"] } _ "a.c" rfl rfl).trans ?_⟩
  exact congrArg _ (by decide +kernel)

/-- The entry of a pattern cannot be cleared. -/
theorem single_pattern_not_cleared :
    ∃ s s', Gives (vpath .bottom (.literal "%.c src" none)) unread ⟨⟩ s ∧
      Fails (vpath .bottom (.literal "%.c" none)) s (.breach .shape) s' := by
  have h1 := @names_literal ["%.c", "src"] "%.c src" (by decide +kernel)
  exact ⟨_, _, vpath_gives (h1 unread) (by decide +kernel), rfl⟩

end Search

end Rebuild
