import Mathlib.Data.List.Forall2
import Rebuild.Proofs.Line.Pieces
import Rebuild.Proofs.Statement.Structured
/-!
# Printing and reading

A structured makefile that is printed and read again is the same makefile (`parse_sourceText`). The
argument goes over the rows of the printed text. `Yields` says what a stretch of rows adds to the
reader, whatever was read before and whatever follows, and `YieldsGroups` says the same of the
groups of a block that is open; stretches compose (`Yields.append`), and the induction over
structured makefiles puts the whole text together from the lines.
-/

namespace Rebuild

open List Text

namespace Statement

/-! ## Sameness -/

/-- The two statements are the same, whichever comes first. -/
def Alike (s t : Statement) : Prop := s.same t = .ok true ∧ t.same s = .ok true

/-- The two groups have the same condition and the same statements. -/
inductive AlikeGroup : Group → Group → Prop
  | mk {c c' : Condition} {body body' : List Statement}
    (hc : c.same c' = .ok true ∧ c'.same c = .ok true) (hbody : List.Forall₂ Alike body body') :
    AlikeGroup (.mk c body) (.mk c' body')

variable {ss ts : List Statement} {gs hs : List Group}

theorem sameAll_of_alike (h : List.Forall₂ Alike ss ts) :
    sameAll ss ts = .ok true ∧ sameAll ts ss = .ok true := by
  induction h with
  | nil => exact ⟨by rw [sameAll]; simp, by rw [sameAll]; simp⟩
  | cons hs _ ih =>
    rw [sameAll, sameAll, hs.1, hs.2]
    exact ih

theorem sameGroups_of_alike (h : List.Forall₂ AlikeGroup gs hs) :
    sameGroups gs hs = .ok true ∧ sameGroups hs gs = .ok true := by
  induction h with
  | nil => exact ⟨by rw [sameGroups]; simp, by rw [sameGroups]; simp⟩
  | cons hg _ ih =>
    obtain ⟨hc, hbody⟩ := hg
    have hall := sameAll_of_alike hbody
    rw [sameGroups, sameGroups, hc.1, hc.2, hall.1, hall.2, hbody.length_eq]
    simp only [beq_self_eq_true, if_true]
    exact ih

theorem alike_block (h : List.Forall₂ AlikeGroup gs hs) (loc loc' endLoc endLoc' : Location) :
    Alike (.block loc gs endLoc) (.block loc' hs endLoc') := by
  have hgroups := sameGroups_of_alike h
  unfold Alike
  rw [same, same, hgroups.1, hgroups.2, h.length_eq]
  simp

theorem sameList_of_alike (h : List.Forall₂ Alike ss ts) :
    sameList ss ts = .ok true ∧ sameList ts ss = .ok true := by
  have hall := sameAll_of_alike h
  unfold sameList
  rw [hall.1, hall.2, h.length_eq]
  simp

/-! ## What rows add -/

/-- A row of printed text: one line of the makefile. -/
def IsRow (row : Text) : Prop := '\n' ∉ row ∧ row.getLast? ≠ some '\\'

/-- The rows of some texts. -/
def rows (texts : List Text) : List Text := texts.flatMap (·.splitOn '\n')

/-- Reading the rows adds statements that are the same as these; `pre` asks for a current rule
before the rows, `post` promises one after them. -/
def Yields (pre post : Bool) (rs : List Text) (L : List Statement) : Prop :=
  ∀ (st : Reader) (ls rest : List Line), (pre = true → st.inRule = true) → ls.map Line.text = rs →
    ∃ ss b, List.Forall₂ Alike ss L ∧ (post = true → b = true) ∧
      readLines st (ls ++ rest) = readLines ((st.addAll ss).rule b) rest

/-- Reading the rows adds groups that are the same as these to an open block. -/
def YieldsGroups (rs : List Text) (groups : List Group) : Prop :=
  ∀ (st : Reader) (ob : OpenBlock) (bs : List OpenBlock) (ls rest : List Line),
  st.blocks = ob :: bs →
    (∀ l, ob.condition ≠ .otherwise l) → ls.map Line.text = rs →
    ∃ ob' b gs, ob'.groups = ob.groups ++ gs ∧ List.Forall₂ AlikeGroup gs groups ∧
      readLines st (ls ++ rest) = readLines ⟨st.outer, ob' :: bs, b⟩ rest

variable {pre mid post : Bool} {rs rs' : List Text} {L L' : List Statement} {groups : List Group}
  {row text : Text}

theorem yields_nil (pre : Bool) : Yields pre false [] [] := by
  intro st ls rest _ hls
  obtain rfl := map_eq_nil_iff.1 hls
  exact ⟨[], st.inRule, .nil, by simp, rfl⟩

/-- **Stretches of rows compose.** -/
theorem Yields.append (h : Yields pre mid rs L) (h' : Yields mid post rs' L') :
    Yields pre post (rs ++ rs') (L ++ L') := by
  intro st ls rest hst hls
  obtain ⟨l1, l2, rfl, h1, h2⟩ := map_eq_append_iff.1 hls
  obtain ⟨ss, b, hss, hb, hread⟩ := h st l1 (l2 ++ rest) hst h1
  obtain ⟨ss', b', hss', hb', hread'⟩ := h' ((st.addAll ss).rule b) l2 rest hb h2
  refine ⟨ss ++ ss', b', rel_append hss hss', hb', ?_⟩
  rw [append_assoc, hread, hread', Reader.rule_addAll, Reader.rule_rule, Reader.addAll_addAll]

theorem yields_row {s : Statement}
    (h : ∀ (st : Reader) (d : Line) (ls : List Line), (pre = true → st.inRule = true) →
      d.text = row →
      ∃ s' b, Alike s' s ∧ (post = true → b = true) ∧
        readLines st (d :: ls) = readLines ((st.add s').rule b) ls) :
    Yields pre post [row] [s] := by
  intro st ls rest hst hls
  obtain ⟨d, ls, rfl, hd, hnil⟩ := map_eq_cons_iff.1 hls
  obtain rfl := map_eq_nil_iff.1 hnil
  obtain ⟨s', b, hs', hb, hread⟩ := h st d rest hst hd
  exact ⟨[s'], b, .cons hs' .nil, hb, hread⟩

theorem yields_empty (pre : Bool) : Yields pre pre [[]] [] := by
  intro st ls rest hst hls
  obtain ⟨d, ls, rfl, hd, hnil⟩ := map_eq_cons_iff.1 hls
  obtain rfl := map_eq_nil_iff.1 hnil
  exact ⟨[], st.inRule, .nil, hst, readLines_empty hd⟩

/-! ## Printed lines -/

section

variable {s name value targets deps : Text} {mark : AssignMark} {l lt ld : Option Location}
  {loc valueLoc : Location} {doubleColon : Bool}

theorem isRow_of_not_mem (hn : '\n' ∉ row) (hs : '\\' ∉ row) : IsRow row :=
  ⟨hn, fun h => hs (mem_of_getLast? h)⟩

/-- The text is printed as rows, and reading these gives the statement back. -/
structure Restored (pre post : Bool) (s : Statement) (text : Text) : Prop where
  source : s.source = .ok text
  row : ∀ row ∈ text.splitOn '\n', IsRow row
  yields : Yields pre post (text.splitOn '\n') [s]

theorem escapeValue_eq_self (h : '#' ∉ s) (slash : Bool) : escapeValue slash s = s := by
  induction s generalizing slash with
  | nil => rfl
  | cons c s ih =>
    have hc : c ≠ '#' := fun hc => h (hc ▸ mem_cons_self)
    rw [escapeValue, if_neg (by simpa using hc), ih fun hs => h (mem_cons_of_mem _ hs)]

theorem restored_assign (hname : IsName name) (hkey : ¬ IsKeyword name) (hvalue : IsValue value) :
    Restored pre false (.assign ⟨.literal name l, mark, value, valueLoc, none, .makefile⟩)
      (name ++ (' ' :: (mark.text ++ ' ' :: value))) := by
  have hn : '\n' ∉ name ++ (' ' :: (mark.text ++ ' ' :: value)) := by
    have hmark : '\n' ∉ mark.text := by cases mark <;> decide
    have hnew : '\n' ∉ name := fun hc => absurd (hname.isBlank _ hc) (by decide)
    simp [hmark, hnew, hvalue.newline]
  have hs : '\\' ∉ name ++ (' ' :: (mark.text ++ ' ' :: value)) := by
    have hmark : '\\' ∉ mark.text := by cases mark <;> decide
    have hnew : '\\' ∉ name := fun hc => absurd (hname.2 _ hc) (by decide)
    simp [hmark, hnew, hvalue.slash]
  have hone : (value.contains '\n' || (value.head?.map isBlank).getD false) = false := by
    have hhead : (value.head?.map isBlank).getD false = false := by
      cases hv : value.head? with
      | none => rfl
      | some c => exact hvalue.head c hv
    rw [hhead, Bool.or_false]
    simpa using hvalue.newline
  refine ⟨?_, ?_, ?_⟩
  · rw [source, assignmentSource, escapeValue_eq_self hvalue.hash]
    simp only [hone]
    simp [Expansion.source]
  · rw [splitOn_of_not_mem hn]
    simpa using isRow_of_not_mem hn hs
  · rw [splitOn_of_not_mem hn]
    refine yields_row fun st d ls _ hd => ?_
    obtain ⟨loc, hread⟩ := @readLines_assign st d ls _ _ _ hname hkey hvalue hd
    refine ⟨_, false, ?_, by simp, hread⟩
    simp [Alike, same, Assignment.same]

theorem restored_rule (htargets : IsFiles targets) (hkey : ¬ IsKeyword (firstWord targets))
    (hdeps : deps = [] ∨ ∃ s, deps = ' ' :: s ∧ IsFiles s) :
    Restored pre true (.rule (.literal targets lt) (.literal deps ld) doubleColon)
      ('\n' :: (targets ++ (colon doubleColon ++ deps))) := by
  have hodd : ∀ c ∈ targets, c ∉ odds := fun c hc => not_mem_odds_of_space_or_file (htargets.mem hc)
  have hodd' : ∀ c ∈ deps, c ∉ odds := not_mem_odds_of_deps hdeps
  have hcolon : ∀ x ∈ ['\n', '\\'], x ∉ colon doubleColon := by cases doubleColon <;> decide
  have hmem : ∀ x ∈ ['\n', '\\'], x ∉ targets ++ (colon doubleColon ++ deps) := by
    intro x hx hc
    have hxodd : x ∈ odds := (by decide : ∀ x ∈ ['\n', '\\'], x ∈ odds) x hx
    rcases mem_append.1 hc with hc | hc
    · exact hodd x hc hxodd
    · exact (mem_append.1 hc).elim (hcolon x hx) fun hc => hodd' x hc hxodd
  have hspaced : spaced isBlank deps = deps := by
    rcases hdeps with rfl | ⟨s, rfl, -⟩
    · rfl
    · rfl
  have hrows : splitOn ('\n' :: (targets ++ (colon doubleColon ++ deps))) '\n' =
      [[]] ++ [targets ++ (colon doubleColon ++ deps)] := by
    rw [splitOn_cons_sep, splitOn_of_not_mem (hmem _ (by simp))]
    rfl
  refine ⟨?_, ?_, ?_⟩
  · have htext : escapeDollars targets = targets :=
      escapeDollars_eq_self fun hc => hodd _ hc (by decide)
    rw [source, Expansion.source, Expansion.source]
    simp [htext, hspaced]
  · rw [hrows]
    simpa [IsRow] using isRow_of_not_mem (hmem _ (by simp)) (hmem _ (by simp))
  · rw [hrows]
    refine (yields_empty pre).append (yields_row fun st d ls _ hd => ?_)
    refine ⟨_, true, ?_, by simp, readLines_rule htargets hkey hdeps hd⟩
    simp [Alike, same]

theorem getLast?_escapeDollars (s : Text) : (escapeDollars s).getLast? = s.getLast? := by
  rcases eq_nil_or_concat s with rfl | ⟨t, c, rfl⟩
  · rfl
  · rw [concat_eq_append, escapeDollars_append, getLast?_concat]
    by_cases hc : c = '$' <;> simp [escapeDollars, hc]

theorem restored_command (hs : IsRecipeLine s) :
    Restored true true (.command (.literal s l)) ('\t' :: escapeDollars s) := by
  have hn : '\n' ∉ escapeDollars s := fun hc => hs.newline (Expansion.mem_escapeDollars.1 hc)
  have hn' : '\n' ∉ '\t' :: escapeDollars s := by simpa using hn
  refine ⟨?_, ?_, ?_⟩
  · rw [source, Expansion.source]
    simp [splitOn_of_not_mem hn, join]
  · rw [splitOn_of_not_mem hn']
    have hlast : ('\t' :: escapeDollars s).getLast? ≠ some '\\' := by
      rw [getLast?_cons, getLast?_escapeDollars]
      cases hl : s.getLast? with
      | none => simp
      | some c => simpa [hl] using hs.last
    exact fun row hrow => mem_singleton.1 hrow ▸ ⟨hn', hlast⟩
  · rw [splitOn_of_not_mem hn']
    refine yields_row fun st d ls hst hd => ?_
    refine ⟨.command (.literal s (some d.loc)), true, by simp [Alike, same], by simp, ?_⟩
    rw [readLines_recipe hs (hst rfl) hd, Reader.rule_of_inRule]
    rw [Reader.add_inRule, hst rfl]

end

/-! ## Blocks -/

section

variable {st : Reader} {d : Line} {ls : List Line} {ob : OpenBlock} {bs : List OpenBlock}
  {c : Condition}
  {word : ConditionWord} {w arg : Text}

theorem length_takeWhile_space {s : Text} (hs : ∀ c ∈ s.head?, isBlank c = false) :
    ((' ' :: s).takeWhile isBlank).length = 1 := by
  rw [← singleton_append, takeWhile_isBlank_append (by simp; decide) hs]
  rfl

theorem readLines_opening (hw : (w, word) ∈ conditionWords) (hc : Spelled c word arg)
    (h : d.text = w ++ ' ' :: arg) :
    ∃ c', (c'.same c = .ok true ∧ c.same c' = .ok true) ∧ (∀ l, c' ≠ .otherwise l) ∧
      readLines st (d :: ls) = readLines { st with blocks := ⟨d.loc, [], c', []⟩ :: st.blocks }
        ls := by
  have hword : (w, Directive.condition word) ∈ directives :=
    mem_append_left _ (mem_map_of_mem hw)
  obtain ⟨c', hsame, hother, hread⟩ := hc.read d.loc (d := d) (n := w.length + 1)
    (by simp [h]) (by rw [h, drop_append]; simp)
  refine ⟨c', hsame, hother, ?_⟩
  rw [readLines_of_keyword hword (by simp) (by simp; decide) h, length_takeWhile_space hc.head]
  simp only [readDirective, hread, pure_bind]

/-- An open block with another group begun. -/
def OpenBlock.following (ob : OpenBlock) (c : Condition) : OpenBlock :=
  { ob with done := .mk ob.condition ob.body.reverse :: ob.done, condition := c, body := [] }

theorem OpenBlock.next_eq (hob : ∀ l, ob.condition ≠ .otherwise l) (c : Condition) :
    ob.next c = .ok (ob.following c) := by
  unfold next following
  split
  · exact absurd ‹_› (hob _)
  · rfl

/-- A condition after `else` begins another group. -/
theorem readLines_elseIf (hw : (w, word) ∈ conditionWords) (hc : Spelled c word arg)
    (hst : st.blocks = ob :: bs) (hob : ∀ l, ob.condition ≠ .otherwise l)
    (h : d.text = elseWord true ++ (w ++ ' ' :: arg)) :
    ∃ c', (c'.same c = .ok true ∧ c.same c' = .ok true) ∧ (∀ l, c' ≠ .otherwise l) ∧
      readLines st (d :: ls) = readLines { st with blocks := ob.following c' :: bs } ls := by
  have htext : d.text = "else".toList ++ ' ' :: (w ++ ' ' :: arg) := h
  have hhead : ∀ x ∈ (w ++ ' ' :: arg).head?, isBlank x = false := by
    have hne : ∀ p ∈ conditionWords, p.1 ≠ [] := by decide
    obtain ⟨a, t, rfl⟩ := exists_cons_of_ne_nil (hne _ hw)
    rintro _ ⟨⟩
    exact conditionWords_table _ hw a mem_cons_self
  have hdrop : d.text.drop 5 = w ++ ' ' :: arg := by
    rw [htext]
    rfl
  have hdrop' : d.text.drop (5 + w.length) = [' '] ++ arg := by
    rw [← drop_drop, hdrop, drop_left]
    rfl
  have hlen : d.text.length = 5 + w.length + 1 + arg.length := by
    rw [htext]
    simp only [length_append, length_cons, String.length_toList]
    have : "else".length = 4 := rfl
    omega
  have hword : leadingWord? conditionWords (d.rest (d.start + 5)) =
      some (word, w.length, w.length + 1) := by
    rw [Line.rest_add, hdrop, leadingWord?_eq conditionWords_table (conditionWords_table _ hw)
      (by simp; decide), lookup_conditionWords _ hw, Option.map_some,
      length_takeWhile_space hc.head]
  have hskip : d.skipBlanks (d.start + 5 + w.length) = d.start + (5 + w.length + 1) := by
    rw [Nat.add_assoc]
    exact Line.skipBlanks_add (by omega) hdrop' (by simp; decide) hc.head
  obtain ⟨c', hsame, hother, hread⟩ :=
    hc.read (d.locAt (d.start + 5)) (d := d) (n := 5 + w.length + 1)
    (by omega) (by rw [← drop_drop, hdrop']; rfl)
  refine ⟨c', hsame, hother, ?_⟩
  have helse : ("else".toList, Directive.otherwise) ∈ directives := by decide
  rw [readLines_of_keyword helse (by simp) (by simp; decide) htext, length_takeWhile_space hhead]
  show readDirective st d .otherwise (d.start + 5) >>= _ = _
  simp only [readDirective, hst, hword, hskip, hread, pure_bind, OpenBlock.next_eq hob]
  rfl

/-- An `else` begins the last group. -/
theorem readLines_else (hst : st.blocks = ob :: bs) (hob : ∀ l, ob.condition ≠ .otherwise l)
    (h : d.text = "else".toList) :
    ∃ loc, readLines st (d :: ls) = readLines
      { st with blocks := ob.following (.otherwise loc) :: bs } ls := by
  have hlen : d.text.length ≤ 4 := by rw [h]; decide
  have hnone : leadingWord? conditionWords (d.rest (d.start + 4)) = none := by
    rw [Line.rest_add, drop_of_length_le hlen]
    rfl
  refine ⟨d.locAt (d.start + 4), ?_⟩
  have helse : ("else".toList, Directive.otherwise) ∈ directives := by decide
  rw [readLines_of_keyword (z := []) helse (by simp) (by simp) (by rw [h, append_nil])]
  show readDirective st d .otherwise (d.start + 4) >>= _ = _
  simp only [readDirective, hst, hnone, ensureEnd_of_ended hlen, pure_bind, OpenBlock.next_eq hob]
  rfl

theorem readLines_endif (hst : st.blocks = ob :: bs) (h : d.text = "endif".toList) :
    ∃ loc, readLines st (d :: ls) =
      readLines (Reader.add { st with blocks := bs } (.block ob.loc ob.groups loc)) ls := by
  have hlen : d.text.length ≤ 5 := by rw [h]; decide
  refine ⟨d.locAt (d.start + 5), ?_⟩
  have hendif : ("endif".toList, Directive.endif) ∈ directives := by decide
  rw [readLines_of_keyword (z := []) hendif (by simp) (by simp) (by rw [h, append_nil])]
  show readDirective st d .endif (d.start + 5) >>= _ = _
  simp only [readDirective, hst, ensureEnd_of_ended hlen, pure_bind]

end

/-! ## The induction -/

/-- The statements are printed as rows, and reading these gives the statements back. -/
def RestoredAll (pre : Bool) (L : List Statement) : Prop :=
  ∃ texts, sourceAll L = .ok texts ∧ (∀ row ∈ rows texts, IsRow row) ∧
  Yields pre false (rows texts) L

/-- The groups are printed as rows, and reading these in an open block gives the groups back. -/
def RestoredGroups (groups : List Group) : Prop :=
  ∃ texts, sourceGroups true groups = .ok texts ∧ (∀ row ∈ rows texts, IsRow row) ∧
    YieldsGroups (rows texts) groups

theorem Restored.cons {s : Statement} (h : Restored pre mid s text) (hrest : RestoredAll mid L) :
    RestoredAll pre (s :: L) := by
  obtain ⟨texts, hsource, hrow, hyields⟩ := hrest
  refine ⟨text :: texts, ?_, ?_, h.yields.append hyields⟩
  · rw [sourceAll, h.source, hsource]
    rfl
  · intro row hmem
    exact (mem_append.1 hmem).elim (h.row row) (hrow row)

theorem rows_append (texts texts' : List Text) :
    rows (texts ++ texts') = rows texts ++ rows texts' :=
  flatMap_append

theorem rows_cons (h : '\n' ∉ text) (texts : List Text) :
    rows (text :: texts) = text :: rows texts := by
  unfold rows
  rw [flatMap_cons, splitOn_of_not_mem h]
  rfl

/-- Reading the rows of a group's statements inside of its block. -/
theorem Yields.body (h : Yields false false rs L) {st : Reader} {ob : OpenBlock}
    {bs : List OpenBlock}
    {ls rest : List Line} (hst : st.blocks = ob :: bs) (hbody : ob.body = [])
    (hls : ls.map Line.text = rs) :
    ∃ ss b, List.Forall₂ Alike ss L ∧ readLines st (ls ++ rest) =
      readLines ⟨st.outer, { ob with body := ss.reverse } :: bs, b⟩ rest := by
  obtain ⟨ss, b, hss, -, hread⟩ := h st ls rest (by simp) hls
  refine ⟨ss, b, hss, ?_⟩
  rw [hread, Reader.addAll_of_blocks _ _ hst, hbody, append_nil]
  rfl

theorem groups_following (ob : OpenBlock) (c : Condition) (ss : List Statement) :
    OpenBlock.groups { ob.following c with body := ss.reverse } = ob.groups ++ [.mk c ss] := by
  simp [OpenBlock.groups, OpenBlock.following]

section

variable {c : Condition} {word : ConditionWord} {w arg : Text} {body : List Statement}
  {loc endLoc : Location}

theorem yieldsGroups_nil : YieldsGroups [] [] := by
  intro st ob bs ls rest hst _ hls
  obtain rfl := map_eq_nil_iff.1 hls
  refine ⟨ob, st.inRule, [], (append_nil _).symm, .nil, ?_⟩
  rw [← hst]
  rfl

theorem yieldsGroups_last (hbody : Yields false false rs body) :
    YieldsGroups ("else" :: rs) [.mk (.otherwise loc) body] := by
  intro st ob bs ls rest hst hob hls
  obtain ⟨d, ls, rfl, hd, hls⟩ := map_eq_cons_iff.1 hls
  obtain ⟨loc', helse⟩ := @readLines_else st d (ls ++ rest) ob bs hst hob hd
  obtain ⟨ss, b, hss, hread⟩ := @Yields.body rs body hbody
    { st with blocks := ob.following (.otherwise loc') :: bs } _ bs ls rest rfl rfl hls
  refine ⟨_, b, [.mk (.otherwise loc') ss], groups_following ob _ ss, ?_, ?_⟩
  · exact .cons (.mk ⟨rfl, rfl⟩ hss) .nil
  · rw [cons_append, helse, hread]

theorem YieldsGroups.cons (hw : (w, word) ∈ conditionWords) (hc : Spelled c word arg)
    (hbody : Yields false false rs body) (hgroups : YieldsGroups rs' groups) :
    YieldsGroups ((elseWord true ++ (w ++ ' ' :: arg)) :: (rs ++ rs')) (.mk c body :: groups) := by
  intro st ob bs ls rest hst hob hls
  obtain ⟨d, ls, rfl, hd, hls⟩ := map_eq_cons_iff.1 hls
  obtain ⟨l1, l2, rfl, h1, h2⟩ := map_eq_append_iff.1 hls
  obtain ⟨c', hsame, hother, helse⟩ :=
    @readLines_elseIf st d (l1 ++ (l2 ++ rest)) ob bs c word w arg hw hc hst hob hd
  obtain ⟨ss, b, hss, hread⟩ := @Yields.body rs body hbody
    { st with blocks := ob.following c' :: bs } _ bs l1 (l2 ++ rest) rfl rfl h1
  obtain ⟨ob', b', gs, hob', hgs, hread'⟩ := hgroups
    ⟨st.outer, { ob.following c' with body := ss.reverse } :: bs, b⟩ _ bs l2 rest rfl hother h2
  refine ⟨ob', b', .mk c' ss :: gs, ?_, .cons (.mk hsame hss) hgs, ?_⟩
  · rw [hob', groups_following, append_assoc, singleton_append]
  · rw [cons_append, append_assoc, helse, hread, hread']

/-- The rows of a whole block. -/
theorem yields_block (hw : (w, word) ∈ conditionWords) (hc : Spelled c word arg)
    (hbody : Yields false false rs body) (hgroups : YieldsGroups rs' groups) :
    Yields pre false ((w ++ ' ' :: arg) :: (rs ++ (rs' ++ ["endif".toList])))
      [.block loc (.mk c body :: groups) endLoc] := by
  intro st ls rest _ hls
  obtain ⟨d, ls, rfl, hd, hls⟩ := map_eq_cons_iff.1 hls
  obtain ⟨l1, ls, rfl, h1, hls⟩ := map_eq_append_iff.1 hls
  obtain ⟨l2, ls, rfl, h2, hls⟩ := map_eq_append_iff.1 hls
  obtain ⟨e, ls, rfl, he, hls⟩ := map_eq_cons_iff.1 hls
  obtain rfl := map_eq_nil_iff.1 hls
  obtain ⟨c', hsame, hother, hopen⟩ :=
    @readLines_opening st d (l1 ++ (l2 ++ (e :: rest))) c word w arg hw hc hd
  obtain ⟨ss, b, hss, hread⟩ := @Yields.body rs body hbody
    { st with blocks := ⟨d.loc, [], c', []⟩ :: st.blocks } _ _ l1 (l2 ++ (e :: rest)) rfl rfl h1
  obtain ⟨ob', b', gs, hob', hgs, hread'⟩ := hgroups
    ⟨st.outer, ⟨d.loc, [], c', ss.reverse⟩ :: st.blocks, b⟩ _ _ l2 (e :: rest) rfl hother h2
  obtain ⟨loc', hend⟩ :=
    @readLines_endif ⟨st.outer, ob' :: st.blocks, b'⟩ e rest ob' st.blocks rfl he
  refine ⟨[.block ob'.loc ob'.groups loc'], b', .cons ?_ .nil, by simp, ?_⟩
  · rw [hob']
    refine alike_block (.cons (.mk hsame ?_) hgs) _ _ _ _
    rwa [reverse_reverse]
  · simp only [cons_append, append_assoc, nil_append]
    rw [hopen, hread, hread', hend]
    exact congrArg (readLines · rest) (Reader.rule_add st _ b')

end

theorem RestoredGroups.nil :
    RestoredGroups [] := ⟨[], by rw [sourceGroups], by simp [rows], yieldsGroups_nil⟩

variable {body : List Statement}

theorem RestoredAll.last (hbody : RestoredAll false body) (loc : Location) :
    RestoredGroups [.mk (.otherwise loc) body] := by
  obtain ⟨texts, hsource, hrow, hyields⟩ := hbody
  have hn : '\n' ∉ "else".toList := by decide
  refine ⟨"else".toList :: texts, ?_, ?_, ?_⟩
  · rw [sourceGroups, conditionSource, hsource, sourceGroups]
    simp only [bind, Except.bind, pure, Except.pure, append_nil]
  · rw [rows_cons hn]
    exact forall_mem_cons.2 ⟨isRow_of_not_mem hn (by decide), hrow⟩
  · rw [rows_cons hn]
    exact yieldsGroups_last hyields

theorem Spelled.isRow {c : Condition} {word : ConditionWord} {w arg : Text}
    (hc : Spelled c word arg)
    (hw : (w, word) ∈ conditionWords) (later : Bool) :
    IsRow (elseWord later ++ (w ++ ' ' :: arg)) := by
  have helse : ∀ x ∈ ['\n', '\\'], x ∉ elseWord later := by cases later <;> decide
  have hword : ∀ p ∈ conditionWords, ∀ x ∈ ['\n', '\\'], x ∉ p.1 := by decide
  refine isRow_of_not_mem ?_ ?_
  · have h1 := helse '\n' (by simp)
    have h2 := hword _ hw '\n' (by simp)
    simp [h1, h2, hc.newline]
  · have h1 := helse '\\' (by simp)
    have h2 := hword _ hw '\\' (by simp)
    simp [h1, h2, hc.slash]

theorem RestoredGroups.cons {c : Condition} (hc : PlainCondition c)
    (hbody : RestoredAll false body) (hgroups : RestoredGroups groups) :
    RestoredGroups (.mk c body :: groups) := by
  obtain ⟨⟨w, word⟩, hw, arg, hspelled, hcond⟩ := hc.exists_spelled
  obtain ⟨texts, hsource, hrow, hyields⟩ := hbody
  obtain ⟨texts', hsource', hrow', hyields'⟩ := hgroups
  have hhead := hspelled.isRow hw true
  refine ⟨(elseWord true ++ (w ++ ' ' :: arg)) :: (texts ++ texts'), ?_, ?_, ?_⟩
  · rw [sourceGroups, hcond, hsource, hsource']
    rfl
  · rw [rows_cons hhead.1, rows_append]
    exact forall_mem_cons.2 ⟨hhead, forall_mem_append.2 ⟨hrow, hrow'⟩⟩
  · rw [rows_cons hhead.1, rows_append]
    exact hyields'.cons hw hspelled hyields

/-- **A block is restored** if its statements and its other groups are. -/
theorem restored_block {loc endLoc : Location} {c : Condition}
    (hc : PlainCondition c) (hbody : RestoredAll false body) (hgroups : RestoredGroups groups) :
    ∃ text, Restored pre false (.block loc (.mk c body :: groups) endLoc) text := by
  obtain ⟨⟨w, word⟩, hw, arg, hspelled, hcond⟩ := hc.exists_spelled
  obtain ⟨texts, hsource, hrow, hyields⟩ := hbody
  obtain ⟨texts', hsource', hrow', hyields'⟩ := hgroups
  have hhead : IsRow (w ++ ' ' :: arg) := hspelled.isRow hw false
  have hend : '\n' ∉ "endif".toList := by decide
  have hrows : splitOn (join ['\n'] (((w ++ ' ' :: arg) :: (texts ++ texts')) ++
      ["endif".toList])) '\n' = (w ++ ' ' :: arg) ::
      (rows texts ++ (rows texts' ++ ["endif".toList])) := by
    rw [splitOn_join (by simp)]
    show rows _ = _
    rw [cons_append, rows_cons hhead.1, rows_append, rows_append, rows_cons hend, append_assoc]
    rfl
  refine ⟨join ['\n'] (((w ++ ' ' :: arg) :: (texts ++ texts')) ++ ["endif".toList]), ?_, ?_, ?_⟩
  · rw [source, sourceGroups, hcond, hsource, hsource']
    rfl
  · rw [hrows]
    refine forall_mem_cons.2 ⟨hhead, forall_mem_append.2 ⟨hrow, forall_mem_append.2 ⟨hrow', ?_⟩⟩⟩
    exact forall_mem_singleton.2 (isRow_of_not_mem hend (by decide))
  · rw [hrows]
    exact yields_block hw hspelled hyields hyields'

mutual

/-- **Every structured makefile is restored**, row by row. -/
theorem Structured.restored {recipe : Bool} {L : List Statement} (h : Structured recipe L) :
    RestoredAll recipe L :=
  match h with
  | .nil => ⟨[], by rw [sourceAll], by simp [rows], yields_nil recipe⟩
  | .assign hname hkey hvalue hrest => (restored_assign hname hkey hvalue).cons hrest.restored
  | .rule htargets hkey hdeps hrest => (restored_rule htargets hkey hdeps).cons hrest.restored
  | .command hs hrest => (restored_command hs).cons hrest.restored
  | .block hc hbody hgroups hrest =>
    let ⟨_, hblock⟩ := restored_block hc hbody.restored hgroups.restored
    hblock.cons hrest.restored

theorem StructuredGroups.restored {groups : List Group} (h : StructuredGroups groups) :
    RestoredGroups groups :=
  match h with
  | .nil => .nil
  | .last hbody => hbody.restored.last _
  | .cons hc hbody hgroups => .cons hc hbody.restored hgroups.restored

end

/-! ## The round trip -/

/-- The lines of the printed text are its rows, or one empty line. -/
theorem exists_pieces {texts : List Text} (hrow : ∀ row ∈ rows texts, IsRow row)
    (h : Yields false false (rows texts) L) :
    ∃ rs, Line.pieces false (join ['\n'] texts) = rs ∧ Yields false false rs L := by
  cases texts with
  | nil => exact ⟨[[]], rfl, (yields_empty false).append h⟩
  | cons t texts =>
    have hne : rows (t :: texts) ≠ [] := by
      simp [rows, splitOn_ne_nil]
    refine ⟨rows (t :: texts), ?_, h⟩
    rw [← join_flatMap_splitOn]
    exact Line.pieces_join hne hrow

/-- Rows that yield statements are a makefile of statements that are the same. -/
theorem parse_of_yields (h : Yields false false (Line.pieces false text) L) (path : Text) :
    ∃ L', parse text path = pure L' ∧ List.Forall₂ Alike L' L := by
  obtain ⟨ss, b, hss, -, hread⟩ :=
    h ⟨[], [], false⟩ (Line.lines text path) [] (by simp) (Line.map_text_lines text path)
  refine ⟨ss, ?_, hss⟩
  unfold parse
  rw [← append_nil (Line.lines text path), hread, Reader.addAll_of_no_blocks _ _ rfl,
    readLines, pure_bind]
  simp [Reader.rule]

/-- **Printing and reading is a round trip**: the printed text of a structured makefile is read
without a notice, and what is read is the same makefile. -/
theorem parse_sourceText {L : List Statement} (h : Structured false L) (path : Text) :
    ∃ text L', sourceText L = .ok text ∧ (parse text path).outcome = (.ok L', []) ∧
      sameList L' L = .ok true ∧ sameList L L' = .ok true := by
  obtain ⟨texts, hsource, hrow, hyields⟩ := h.restored
  obtain ⟨_, rfl, hpieces⟩ := exists_pieces hrow hyields
  obtain ⟨L', hparse, halike⟩ := parse_of_yields hpieces path
  refine ⟨join ['\n'] texts, L', ?_, ?_, sameList_of_alike halike⟩
  · unfold sourceText
    rw [hsource]
    rfl
  · rw [hparse]
    rfl

/-- A makefile with blocks in a block. -/
def nestedSample : List Statement :=
  let l : Location := ⟨"Makefile", 1, 0⟩
  [.assign ⟨.literal "CC" none, .simple, "gcc $(FLAGS) ", l, none, .makefile⟩,
   .block l
    [.mk (.defined l (.literal "DEBUG" none) true)
      [.block l
        [.mk (.equal l (.literal "a:b" none) (.literal [] none) false)
          [.rule (.literal "all lib/x.o" none) (.literal " main.c" none) true,
           .command (.literal "echo $HOME" none), .command (.literal [] none)],
         .mk (.otherwise l) []] l],
     .mk (.defined l (.literal "X_1" none) false) [],
     .mk (.otherwise l) [.rule (.literal "else.mk" none) (.literal [] none) false]] l]

theorem parse_sourceText_nested : Structured false nestedSample ∧
    ∃ text L', sourceText nestedSample = .ok text ∧ (parse text "Makefile").outcome = (.ok L', []) ∧
      sameList L' nestedSample = .ok true ∧ sameList nestedSample L' = .ok true := by
  have hfiles : IsFiles "all lib/x.o" ∧ IsFiles "main.c" ∧ IsFiles "else.mk" := by
    unfold IsFiles
    decide
  have hnames : IsName "CC" ∧ IsName "DEBUG" ∧ IsName "X_1" := by
    unfold IsName
    decide
  have hsides : IsSide "a:b" ∧ IsSide [] := by
    unfold IsSide
    decide
  have hinner : Structured false
      [.rule (.literal "all lib/x.o" none) (.literal " main.c" none) true,
       .command (.literal "echo $HOME" none), .command (.literal [] none)] :=
    .rule hfiles.1 (by decide) (.inr ⟨"main.c", rfl, hfiles.2.1⟩)
      (.command ⟨by decide, by decide⟩ (.command ⟨by decide, by decide⟩ .nil))
  have h : Structured false nestedSample :=
    .assign hnames.1 (by decide) ⟨by decide, by decide, by decide, by decide⟩
      (.block (.defined hnames.2.1)
        (.block (.equal hsides.1 hsides.2) hinner (.last .nil) .nil)
        (.cons (.defined hnames.2.2) .nil
          (.last (.rule hfiles.2.2 (by decide) (.inl rfl) .nil))) .nil)
  exact ⟨h, parse_sourceText h "Makefile"⟩

end Statement

end Rebuild
