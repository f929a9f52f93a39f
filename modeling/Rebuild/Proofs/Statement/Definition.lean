import Rebuild.Proofs.Statement.Seam
import Rebuild.Proofs.Statement.Structured
/-!
# Bodies of definitions

A definition takes up the lines to its end, and the lines of its body that nest are found by another
rule than directives are: a directive's word ends at a blank or with the line, while in a body the
word may go on (`bodyMark?_eq_true_iff`, `bodyMark?_eq_false_iff`). So a line that begins with a
longer word, such as `defined` or `endefs`, nests without being a directive. For every body that is
balanced by what nests, the value is that body and reading goes on after its end
(`parse_definition`); without such longer words, these are the bodies with balanced directives
(`balanced_iff`).
-/

namespace Rebuild

open List Text

namespace Statement

variable {st : Reader} {d e : Line} {body rest : List Line} {ns : List Notice} {s w : Text}

/-! ## Directives and marks -/

/-- The directive that the reader finds at the start of a line outside of recipes. -/
def directive? (d : Line) : Option Directive :=
  (leadingWord? directives (d.rest (d.skipBlanks d.start))).map (·.1)

/-- What the directives of a makefile would nest. -/
def directiveMark? (d : Line) : Option Bool :=
  match directive? d with
  | some .define => some true
  | some .endef => some false
  | _ => none

/-- The line begins with a word that goes on after `w`. -/
def Glued (w : Text) (d : Line) : Prop := w <+: trimLeft d.text ∧ firstWord (trimLeft d.text) ≠ w

instance (w : Text) (d : Line) : Decidable (Glued w d) := by
  unfold Glued
  infer_instance

theorem rest_skipBlanks (d : Line) : d.rest (d.skipBlanks d.start) = trimLeft d.text := by
  obtain ⟨u, htext, hu, hink⟩ := exists_append_trimLeft d.text
  have hskip : d.skipBlanks (d.start + 0) = d.start + (0 + u.length) :=
    Line.skipBlanks_add (Nat.zero_le _) htext hu hink
  rw [Nat.add_zero, Nat.zero_add] at hskip
  rw [hskip, Line.rest_add]
  nth_rewrite 1 [htext]
  exact drop_left

/-- **A directive is the first word of its line.** -/
theorem directive?_eq (d : Line) :
    directive? d = directives.lookup (firstWord (trimLeft d.text)) := by
  obtain ⟨after, htext, hafter⟩ := exists_firstWord_append (trimLeft d.text)
  unfold directive?
  rw [rest_skipBlanks]
  nth_rewrite 1 [htext]
  rw [leadingWord?_eq directives_table not_blank_of_mem_firstWord hafter, Option.map_map]
  exact Option.map_id'

theorem directive?_eq_some_iff {a : Directive} (hw : directives.lookup w = some a)
    (hone : ∀ p ∈ directives, p.2 = a → p.1 = w) :
    directive? d = some a ↔ firstWord (trimLeft d.text) = w := by
  rw [directive?_eq]
  constructor
  · intro h
    obtain ⟨before, after, htable, -⟩ := lookup_eq_some_iff.1 h
    have hmem : (firstWord (trimLeft d.text), a) ∈ directives :=
      htable ▸ mem_append_right before mem_cons_self
    exact hone _ hmem rfl
  · rintro rfl
    exact hw

/-- A word begins the line by itself, or as the start of a longer one. -/
theorem startsWith_iff (w : Text) (d : Line) : (trimLeft d.text).startsWith w = true ↔
    firstWord (trimLeft d.text) = w ∨ Glued w d := by
  refine Iff.trans isPrefixOf_iff_prefix ⟨?_, ?_⟩
  · intro h
    by_cases hfirst : firstWord (trimLeft d.text) = w
    · exact .inl hfirst
    · exact .inr ⟨h, hfirst⟩
  · rintro (rfl | h)
    · exact takeWhile_prefix _
    · exact h.1

/-- The two words do not begin one line. -/
theorem not_define_of_endef (h : (trimLeft d.text).startsWith "endef" = true) :
    (trimLeft d.text).startsWith "define" = false := by
  obtain ⟨after, hafter⟩ := isPrefixOf_iff_prefix.1 h
  rw [← hafter]
  rfl

/-- **A line opens an inner definition if it is such a directive, or begins with a longer word.** -/
theorem bodyMark?_eq_true_iff (d : Line) :
    bodyMark? d.text = some true ↔ directive? d = some .define ∨ Glued "define" d := by
  rw [directive?_eq_some_iff (w := "define") (by decide) (by decide), ← startsWith_iff]
  dsimp only [bodyMark?]
  by_cases hdefine : (trimLeft d.text).startsWith "define" = true
  · rw [if_pos hdefine]
    exact iff_of_true rfl hdefine
  · rw [if_neg hdefine]
    refine iff_of_false ?_ hdefine
    split <;> nofun

/-- **A line ends the innermost definition if it is such a directive, or begins with a longer
word.** -/
theorem bodyMark?_eq_false_iff (d : Line) :
    bodyMark? d.text = some false ↔ directive? d = some .endef ∨ Glued "endef" d := by
  rw [directive?_eq_some_iff (w := "endef") (by decide) (by decide), ← startsWith_iff]
  dsimp only [bodyMark?]
  by_cases hendef : (trimLeft d.text).startsWith "endef" = true
  · rw [not_define_of_endef hendef, if_neg Bool.false_ne_true, if_pos hendef]
    exact iff_of_true rfl hendef
  · rw [if_neg hendef]
    refine iff_of_false ?_ hendef
    split <;> nofun

theorem directiveMark?_eq (hdefine : ¬ Glued "define" d) (hendef : ¬ Glued "endef" d) :
    directiveMark? d = bodyMark? d.text := by
  have htrue := bodyMark?_eq_true_iff d
  have hfalse := bodyMark?_eq_false_iff d
  rw [or_iff_left hdefine] at htrue
  rw [or_iff_left hendef] at hfalse
  unfold directiveMark?
  split
  · exact (htrue.2 ‹_›).symm
  · exact (hfalse.2 ‹_›).symm
  · rename_i hno hno'
    cases hmark : bodyMark? d.text with
    | none => rfl
    | some b =>
      cases b with
      | true => exact absurd (htrue.1 hmark) hno
      | false => exact absurd (hfalse.1 hmark) hno'

/-! ## Balanced bodies -/

/-- The lines have `depth` ends more than beginnings, and no end too many before that. -/
def balanced (mark : Line → Option Bool) (depth : Nat) : List Line → Bool
  | [] => depth == 0
  | d :: ls =>
    match mark d with
    | some true => balanced mark (depth + 1) ls
    | some false => depth != 0 && balanced mark (depth - 1) ls
    | none => balanced mark depth ls

/-- **A balanced body is taken up to the line that ends it.** -/
theorem takeBody_of_balanced {depth : Nat}
    (hbody : balanced (fun x => bodyMark? x.text) depth body = true)
    (hend : bodyMark? e.text = some false) (rest : List Line) :
    takeBody depth (body ++ e :: rest) = some (body.map Line.text, rest) := by
  induction body generalizing depth with
  | nil =>
    obtain rfl : depth = 0 := by simpa [balanced] using hbody
    simp [takeBody, hend]
  | cons x body ih =>
    rw [cons_append, takeBody, map_cons]
    rcases hmark : bodyMark? x.text with - | - | -
    · have hbody : balanced (fun x => bodyMark? x.text) depth body = true := by
        simpa [balanced, hmark] using hbody
      simp [ih hbody]
    · have hbody : depth ≠ 0 ∧ balanced (fun x => bodyMark? x.text) (depth - 1) body = true := by
        simpa [balanced, hmark] using hbody
      simp [hbody.1, ih hbody.2]
    · have hbody : balanced (fun x => bodyMark? x.text) (depth + 1) body = true := by
        simpa [balanced, hmark] using hbody
      simp [ih hbody]

/-- Without longer words, the bodies with balanced directives are the balanced ones. -/
theorem balanced_iff (hbody : ∀ x ∈ body, ¬ Glued "define" x ∧ ¬ Glued "endef" x) (depth : Nat) :
    balanced directiveMark? depth body = balanced (fun x => bodyMark? x.text) depth body := by
  induction body generalizing depth with
  | nil => rfl
  | cons x body ih =>
    obtain ⟨hx, hbody⟩ := forall_mem_cons.1 hbody
    simp only [balanced, directiveMark?_eq hx.1 hx.2, ih hbody]

/-! ## The definition -/

/-- A definition with a balanced body assigns that body, and reading goes on after its end. -/
theorem readLines_definition {k n : Nat} (htab : st.inRule = true → d.text.head? ≠ some '\t')
    (hdefine : leadingWord? directives (d.rest (d.skipBlanks d.start)) = some (.define, k, n))
    (hbody : balanced (fun x => bodyMark? x.text) 0 body = true)
    (hend : bodyMark? e.text = some false) :
    readLines st (d :: (body ++ e :: rest)) = (do
      let r ← Expansion.parse d (d.skipBlanks d.start + n) [] (.makefile true)
      let name ← r.exp.trimRight?
      readLines
        ((st.add (.assign ⟨name, .recursive, Line.condense (join ['\n'] (body.map Line.text)),
          d.loc, none, .makefile⟩)).rule false) rest) := by
  have hread : readBody d.loc (body ++ e :: rest) =
      .ok (Line.condense (join ['\n'] (body.map Line.text)), rest) := by
    unfold readBody
    rw [takeBody_of_balanced hbody hend]
    rfl
  rw [readLines_define htab hdefine, hread]
  rfl

/-- **What nests in a body, and what a definition is.** A line of a body changes the nesting exactly
if it is a directive that begins or ends a definition, or begins with a word that only starts like
one. So a body without such words is balanced exactly if its directives are. And wherever a makefile
has a definition with a balanced body, the definition assigns that body, with its continuations
condensed, and reading goes on at the line after its end. -/
theorem parse_definition (s path : Text) (before body rest : List Line) (d e : Line) (st : Reader)
    (ns : List Notice)
    (k n : Nat) :
    (∀ x : Line, (bodyMark? x.text = some true ↔ directive? x = some .define ∨ Glued "define" x) ∧
      (bodyMark? x.text = some false ↔ directive? x = some .endef ∨ Glued "endef" x)) ∧
    ((∀ x ∈ body, ¬ Glued "define" x ∧ ¬ Glued "endef" x) →
      balanced directiveMark? 0 body = balanced (fun x => bodyMark? x.text) 0 body) ∧
    (Line.lines s path = before ++ d :: (body ++ e :: rest) →
      Gives (readLines ⟨[], [], false⟩ before) [] st ns →
      (st.inRule = true → d.text.head? ≠ some '\t') →
      leadingWord? directives (d.rest (d.skipBlanks d.start)) = some (.define, k, n) →
      balanced (fun x => bodyMark? x.text) 0 body = true → bodyMark? e.text = some false →
      (parse s path).run [] = (do
        let r ← Expansion.parse d (d.skipBlanks d.start + n) [] (.makefile true)
        let name ← r.exp.trimRight?
        let u ← readLines ((st.add (.assign ⟨name, .recursive,
          Line.condense (join ['\n'] (body.map Line.text)), d.loc, none, .makefile⟩)).rule false)
            rest
        u.ended : ParseM (List Statement)).run ns) := by
  refine ⟨fun x => ⟨bodyMark?_eq_true_iff x, bodyMark?_eq_false_iff x⟩, fun h =>
    balanced_iff h 0, ?_⟩
  intro hlines hbefore htab hdefine hbody hend
  rw [parse_eq, hlines, run_bind, run_readLines_append hbefore, ← run_bind,
    readLines_definition htab hdefine hbody hend]
  simp only [bind_assoc]

/-- A definition between two assignments, with another definition in its body and a continued
line. -/
def definitionSample : Text :=
  "x = 1\n\tdefine A \n  define B\n\tendef # B\ny \\\n endef\n endef\nz = 2"

theorem parse_definition_nested : ∃ st ns,
    let before : List Line := [⟨"x = 1", 0, ⟨"f", 1, 0⟩⟩]
    let d : Line := ⟨"\tdefine A ", 6, ⟨"f", 2, 0⟩⟩
    let body : List Line := [⟨"  define B", 17, ⟨"f", 3, 0⟩⟩, ⟨"\tendef # B", 28, ⟨"f", 4, 0⟩⟩,
      ⟨"y \\\n endef", 39, ⟨"f", 5, 0⟩⟩]
    let e : Line := ⟨" endef", 50, ⟨"f", 7, 0⟩⟩
    let rest : List Line := [⟨"z = 2", 57, ⟨"f", 8, 0⟩⟩]
    Line.lines definitionSample "f" = before ++ d :: (body ++ e :: rest) ∧
      Gives (readLines ⟨[], [], false⟩ before) [] st ns ∧
      (st.inRule = true → d.text.head? ≠ some '\t') ∧
      leadingWord? directives (d.rest (d.skipBlanks d.start)) = some (.define, 6, 7) ∧
      (∀ x ∈ body, ¬ Glued "define" x ∧ ¬ Glued "endef" x) ∧
      balanced directiveMark? 0 body = balanced (fun x => bodyMark? x.text) 0 body ∧
      balanced (fun x => bodyMark? x.text) 0 body = true ∧ bodyMark? e.text = some false ∧
      (parse definitionSample "f").run [] = (do
        let r ← Expansion.parse d (d.skipBlanks d.start + 7) [] (.makefile true)
        let name ← r.exp.trimRight?
        let u ← readLines ((st.add (.assign ⟨name, .recursive,
          Line.condense (join ['\n'] (body.map Line.text)), d.loc, none, .makefile⟩)).rule false)
            rest
        u.ended : ParseM (List Statement)).run ns := by
  have hbefore : ∃ st ns, Gives (readLines ⟨[], [], false⟩ [⟨"x = 1", 0, ⟨"f", 1, 0⟩⟩]) [] st ns ∧
      (!st.inRule) = true := exists_gives (by decide +kernel)
  obtain ⟨st, ns, hbefore, hrule⟩ := hbefore
  have hnot : st.inRule ≠ true := by simpa using hrule
  obtain ⟨-, hbalanced, hparse⟩ := parse_definition definitionSample "f" [⟨"x = 1", 0, ⟨"f", 1, 0⟩⟩]
    [⟨"  define B", 17, ⟨"f", 3, 0⟩⟩, ⟨"\tendef # B", 28, ⟨"f", 4, 0⟩⟩,
      ⟨"y \\\n endef", 39, ⟨"f", 5, 0⟩⟩]
    [⟨"z = 2", 57, ⟨"f", 8, 0⟩⟩] ⟨"\tdefine A ", 6, ⟨"f", 2, 0⟩⟩
      ⟨" endef", 50, ⟨"f", 7, 0⟩⟩ st ns 6 7
  exact ⟨st, ns, by decide +kernel, hbefore, fun h => absurd h hnot, by decide +kernel,
    by decide +kernel,
    hbalanced (by decide +kernel), by decide +kernel, by decide +kernel,
    hparse (by decide +kernel) hbefore (fun h => absurd h hnot) (by decide +kernel)
      (by decide +kernel)
      (by decide +kernel)⟩

/-- A line that is no directive ends the definition, and the directive after it has none to end. -/
theorem longer_word_ends_definition :
    Line.lines "define A\nendefx\nendef" "f" =
      [⟨"define A", 0, ⟨"f", 1, 0⟩⟩, ⟨"endefx", 9, ⟨"f", 2, 0⟩⟩, ⟨"endef", 16, ⟨"f", 3, 0⟩⟩] ∧
    directive? ⟨"endefx", 9, ⟨"f", 2, 0⟩⟩ = none ∧ bodyMark? "endefx" = some false ∧
    (parse "define A\nendefx\nendef" "f").outcome =
    (.error (.malformed .endefAlone (some ⟨"f", 3, 5⟩)), []) := by
  refine ⟨by decide +kernel, by decide +kernel, by decide, ?_⟩
  with_unfolding_all rfl

end Statement

end Rebuild
