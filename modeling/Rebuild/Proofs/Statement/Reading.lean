import Rebuild.Statement.Parser
import Rebuild.Proofs.Expansion.Reading
/-!
# Reading one line

What the reader of makefiles does with a line is decided by its first word, its first character and
the first mark in it. Here are the four ways to take a line (`readLines_command`,
`readLines_define`, `readLines_directive`, `readLines_plain`), and what comes of a blank line, an
assignment and a rule that hold no references (`readPlain_of_none`, `readPlain_of_mark`,
`readPlain_of_colon`).
-/

namespace Rebuild

open List Text

variable {d : Line} {n : Nat} {s : Text}

variable {offset : Nat} {w : Text}

namespace Line

variable {u : Text}

theorem rest_add (d : Line) (n : Nat) : d.rest (d.start + n) = d.text.drop n := by
  unfold rest
  rw [Nat.add_sub_cancel_left]

theorem covers_add (h : n ≤ d.text.length) : d.covers (d.start + n) = true := by
  simp [covers, stop, h]

@[simp] theorem rest_start (d : Line) : d.rest d.start = d.text := rest_add d 0

@[simp] theorem covers_start (d : Line) : d.covers d.start = true := covers_add (Nat.zero_le _)

/-- The blanks `u` are skipped up to ink or the end of the line. -/
theorem skipBlanks_add (h : n ≤ d.text.length) (hdrop : d.text.drop n = u ++ s)
    (hu : ∀ c ∈ u, isBlank c = true) (hs : ∀ c ∈ s.head?, isBlank c = false) :
    d.skipBlanks (d.start + n) = d.start + (n + u.length) := by
  have hlen := congrArg List.length hdrop
  rw [length_drop, length_append] at hlen
  unfold skipBlanks stop
  rw [rest_add, hdrop, takeWhile_isBlank_append hu hs]
  omega

/-- Where ink or the end of the line stands, there are no blanks to skip. -/
theorem skipBlanks_ink (h : n ≤ d.text.length)
    (hink : ∀ c ∈ (d.text.drop n).head?, isBlank c = false) :
    d.skipBlanks (d.start + n) = d.start + n :=
  skipBlanks_add (u := []) h rfl (by simp) hink

end Line

namespace Text

/-- The text up to its first blank. -/
def firstWord (s : Text) : Text := s.takeWhile fun c => !isBlank c

theorem firstWord_append (hw : ∀ c ∈ w, isBlank c = false)
    (hs : ∀ c ∈ s.head?, isBlank c = true) : firstWord (w ++ s) = w := by
  unfold firstWord
  rw [takeWhile_append_of_pos (by simpa using hw)]
  cases s with
  | nil => simp
  | cons c s => simp [hs c rfl]

theorem not_blank_of_mem_firstWord : ∀ c ∈ firstWord s, isBlank c = false := fun c hc => by
  simpa using mem_takeWhile_imp hc

theorem exists_firstWord_append (s : Text) :
    ∃ rest, s = firstWord s ++ rest ∧ ∀ c ∈ rest.head?, isBlank c = true := by
  refine ⟨s.dropWhile fun c => !isBlank c, takeWhile_append_dropWhile.symm, ?_⟩
  intro c hc
  have := head?_dropWhile_not (fun c => !isBlank c) s
  rw [hc] at this
  simpa using this

end Text

namespace Statement

/-- Two words with nothing or a blank after them begin one text only if they are equal. -/
theorem word_unique {v after : Text} (hv : ∀ c ∈ v, isBlank c = false)
    (hw : ∀ c ∈ w, isBlank c = false) (hs : ∀ c ∈ s.head?, isBlank c = true)
    (hafter : ∀ c ∈ after.head?, isBlank c = true) (h : v ++ after = w ++ s) : v = w := by
  have hv' := firstWord_append hv hafter
  rw [h, firstWord_append hw hs] at hv'
  exact hv'.symm

/-- **The word that begins a line is its first word**, if a table has it. -/
theorem leadingWord?_eq {α : Type} {table : List (Text × α)}
    (htable : ∀ p ∈ table, ∀ c ∈ p.1, isBlank c = false)
    (hw : ∀ c ∈ w, isBlank c = false) (hs : ∀ c ∈ s.head?, isBlank c = true) :
    leadingWord? table (w ++ s) = (table.lookup w).map fun a =>
      (a, w.length, w.length + (s.takeWhile isBlank).length) := by
  have hborder : ∀ after : Text, (after.isEmpty || (after.takeWhile isBlank).length > 0) = true ↔
      ∀ c ∈ after.head?, isBlank c = true := by
    intro after
    cases after with
    | nil => simp
    | cons c after => by_cases hc : isBlank c <;> simp [hc]
  induction table with
  | nil => rfl
  | cons p table ih =>
    obtain ⟨v, a⟩ := p
    have ih := ih fun p hp => htable p (mem_cons_of_mem _ hp)
    have hv := htable (v, a) mem_cons_self
    unfold leadingWord? at ih ⊢
    rw [findSome?_cons, lookup_cons]
    by_cases hvw : v = w
    · subst hvw
      have hpre : v.isPrefixOf (v ++ s) = true := isPrefixOf_iff_prefix.2 ⟨s, rfl⟩
      simp only [hpre, if_true, drop_left, (hborder s).2 hs, beq_self_eq_true]
      rfl
    · have hne : (w == v) = false := by simpa using Ne.symm hvw
      have hnone : (if v.isPrefixOf (w ++ s) then
          if ((w ++ s).drop v.length).isEmpty ||
            (((w ++ s).drop v.length).takeWhile isBlank).length > 0 then
            some (a, v.length, v.length + (((w ++ s).drop v.length).takeWhile isBlank).length)
          else none else none) = none := by
        split
        · rename_i hpre
          obtain ⟨after, hafter⟩ := isPrefixOf_iff_prefix.1 hpre
          rw [← hafter, drop_left, if_neg]
          exact fun hb => hvw (word_unique hv hw hs ((hborder after).1 hb) hafter)
        · rfl
      simp only [hne]
      rw [hnone]
      exact ih

namespace Reader

variable (st : Reader) (s : Statement) (ss : List Statement) (b : Bool)

@[simp] theorem rule_rule (b' : Bool) : (st.rule b).rule b' = st.rule b' := rfl

@[simp] theorem rule_add : (st.rule b).add s = (st.add s).rule b := by
  unfold add rule
  cases st.blocks <;> rfl

@[simp] theorem add_inRule : (st.add s).inRule = st.inRule := by
  unfold add
  cases st.blocks <;> rfl

theorem rule_addAll : (st.rule b).addAll ss = (st.addAll ss).rule b := by
  unfold addAll
  induction ss generalizing st with
  | nil => rfl
  | cons s ss ih => rw [foldl_cons, foldl_cons, rule_add, ih]

theorem addAll_addAll (ts : List Statement) : (st.addAll ss).addAll ts = st.addAll (ss ++ ts) := by
  unfold addAll
  rw [foldl_append]

theorem rule_of_inRule {b : Bool} (h : st.inRule = b) : st.rule b = st := by
  subst h
  rfl

/-- Inside of a block, statements go to its current group. -/
theorem addAll_of_blocks {b : OpenBlock} {bs : List OpenBlock} (h : st.blocks = b :: bs) :
    st.addAll ss = { st with blocks := { b with body := ss.reverse ++ b.body } :: bs } := by
  unfold addAll
  induction ss generalizing st b with
  | nil => simp [← h]
  | cons s ss ih =>
    have hadd : st.add s = { st with blocks := { b with body := s :: b.body } :: bs } := by
      unfold add
      rw [h]
    rw [foldl_cons, hadd, ih _ rfl]
    simp

/-- Outside of all blocks, statements go to the makefile itself. -/
theorem addAll_of_no_blocks (h : st.blocks = []) :
    st.addAll ss = { st with outer := ss.reverse ++ st.outer } := by
  unfold addAll
  induction ss generalizing st with
  | nil => rfl
  | cons s ss ih =>
    have hadd : st.add s = { st with outer := s :: st.outer } := by
      unfold add
      rw [h]
    rw [foldl_cons, hadd, ih { st with outer := s :: st.outer } h]
    simp

end Reader

/-! ## The ways to take a line -/

variable {st : Reader} {ls : List Line} {k o : Nat} {loc : Option Location}

theorem readLines_command (hrule : st.inRule = true) (htab : d.text.head? = some '\t') :
    readLines st (d :: ls) = (do
      let r ← Expansion.parse d (d.start + 1) [] .command
      readLines (st.add (.command r.exp)) ls) := by
  rw [readLines, if_pos (by simp [hrule, htab])]

theorem readLines_plain (htab : st.inRule = true → d.text.head? ≠ some '\t')
    (hword : leadingWord? directives (d.rest (d.skipBlanks d.start)) = none) :
    readLines st (d :: ls) = (do
      let st ← readPlain st d (d.skipBlanks d.start)
      readLines st ls) := by
  rw [readLines, if_neg (by simpa using htab)]
  simp only [hword]

theorem readLines_directive {w : Directive} (hdefine : w ≠ .define)
    (htab : st.inRule = true → d.text.head? ≠ some '\t')
    (hword : leadingWord? directives (d.rest (d.skipBlanks d.start)) = some (w, k, n)) :
    readLines st (d :: ls) = (do
      let st ← readDirective st d w (d.skipBlanks d.start + n)
      readLines st ls) := by
  rw [readLines, if_neg (by simpa using htab)]
  simp only [hword]

theorem readLines_define (htab : st.inRule = true → d.text.head? ≠ some '\t')
    (hword : leadingWord? directives (d.rest (d.skipBlanks d.start)) = some (.define, k, n)) :
    readLines st (d :: ls) = (do
      let r ← Expansion.parse d (d.skipBlanks d.start + n) [] (.makefile true)
      let name ← r.exp.trimRight?
      let p ← readBody d.loc ls
      readLines
        ((st.add (.assign ⟨name, .recursive, p.1, d.loc, none, .makefile⟩)).rule false) p.2) := by
  rw [readLines, if_neg (by simpa using htab)]
  simp only [hword]
  refine bind_congr fun r => bind_congr fun name => ?_
  split
  · rename_i hbody
    rw [hbody]
    rfl
  · rename_i hbody
    rw [hbody]
    rfl

/-- **A line leads the reader on to the next one**, or it begins a definition, which takes up lines
of its own. -/
theorem readLines_cons (st : Reader) (d : Line) :
    (∃ x : ParseM Reader, ∀ ls, readLines st (d :: ls) = x >>= fun u => readLines u ls) ∨
    ∃ x : ParseM Expansion, ∀ ls, readLines st (d :: ls) = (do
      let name ← x
      let p ← readBody d.loc ls
      readLines
        ((st.add (.assign ⟨name, .recursive, p.1, d.loc, none, .makefile⟩)).rule false) p.2) := by
  by_cases hcommand : st.inRule = true ∧ d.text.head? = some '\t'
  · refine .inl ⟨do
      let r ← Expansion.parse d (d.start + 1) [] .command
      return st.add (.command r.exp), fun ls => ?_⟩
    rw [readLines_command hcommand.1 hcommand.2, bind_assoc]
    simp only [pure_bind]
  have htab : st.inRule = true → d.text.head? ≠ some '\t' :=
    fun hrule htext => hcommand ⟨hrule, htext⟩
  rcases hword : leadingWord? directives (d.rest (d.skipBlanks d.start)) with _ | ⟨w, k, n⟩
  · exact .inl ⟨_, fun ls => readLines_plain htab hword⟩
  by_cases hw : w = .define
  · subst hw
    refine .inr ⟨do
      let r ← Expansion.parse d (d.skipBlanks d.start + n) [] (.makefile true)
      r.exp.trimRight?, fun ls => ?_⟩
    rw [readLines_define htab hword, bind_assoc]
  · exact .inl ⟨_, fun ls => readLines_directive hw htab hword⟩

/-! ## Lines without a directive -/

/-- Where a line without directives is cut. -/
def plainStops : List Text := AssignMark.texts ++ [[':', ':'], [':']]

/-- Where the prerequisites of a rule end. -/
def ruleStops : List Text := AssignMark.texts ++ [[':'], ['|'], [';']]

theorem readPlain_of_none
    (h : Expansion.parse d offset plainStops (.makefile true) = pure ⟨.literal [] loc, none⟩) :
    readPlain st d offset = pure st := by
  show (Expansion.parse d offset plainStops (.makefile true) >>= _) = _
  rw [h, pure_bind]
  rfl

theorem readPlain_of_mark {mark : AssignMark}
    (h : Expansion.parse d offset plainStops (.makefile true) =
      pure ⟨.literal s loc, some (.mark mark.text, o)⟩) :
    readPlain st d offset =
      pure ((st.add (readAssignment d (.literal (trim s) loc) mark o none .makefile)).rule
        false) := by
  show (Expansion.parse d offset plainStops (.makefile true) >>= _) = _
  rw [h, pure_bind]
  cases mark <;> rfl

theorem readPlain_of_colon (hw : w ∈ [[':', ':'], [':']])
    (h : Expansion.parse d offset plainStops (.makefile true) =
      pure ⟨.literal s loc, some (.mark w, o)⟩) :
    readPlain st d offset = readRule (st.rule false) d (.literal s loc) (w == [':', ':']) o := by
  show (Expansion.parse d offset plainStops (.makefile true) >>= _) = _
  rw [h, pure_bind]
  simp only [mem_cons, not_mem_nil, or_false] at hw
  rcases hw with rfl | rfl <;> rfl

theorem readRule_of_none {targets : Expansion} {doubleColon : Bool}
    (h : Expansion.parse d offset ruleStops (.makefile true) = pure ⟨.literal s loc, none⟩) :
    readRule st d targets doubleColon offset =
      pure ((st.add (.rule targets (.literal s loc) doubleColon)).rule true) := by
  show (Expansion.parse d offset ruleStops (.makefile true) >>= _) = _
  rw [h, pure_bind]

theorem match?_mark (mark : AssignMark) (z : Text) :
    Token.match? (mark.text ++ z) = some (.mark mark.text) := by
  cases mark <;> rfl

end Statement

end Rebuild
