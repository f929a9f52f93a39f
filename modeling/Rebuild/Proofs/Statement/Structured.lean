import Rebuild.Statement.Same
import Rebuild.Statement.Source
import Rebuild.Proofs.Statement.Reading
/-!
# Structured makefiles

A makefile is structured if it consists of plain assignments, of rules with literal recipe lines
under them, and of conditional blocks over such statements, nested at will (`Structured`). Each line
of its source is read back as the statement that it was written for: an assignment
(`readLines_assign`), a rule (`readLines_rule`), a recipe line (`readLines_recipe`) or a condition
(`PlainCondition.exists_spelled`).
-/

namespace Rebuild

open List Text Line

namespace Statement

/-! ## The shape of the parts -/

/-- Letters, digits and the underscore. -/
def isNameChar (c : Char) : Bool := c.isAlphanum || c == '_'

/-- Letters, digits and the characters `_`, `.`, `/` and `-`. -/
def isFileChar (c : Char) : Bool := isNameChar c || c == '.' || c == '/' || c == '-'

/-- A word that begins a directive. -/
def IsKeyword (w : Text) : Prop := w ∈ directives.map (·.1)

instance : DecidablePred IsKeyword :=
  fun w => inferInstanceAs (Decidable (w ∈ directives.map (·.1)))

/-- A name of letters, digits and underscores. -/
def IsName (s : Text) : Prop := s ≠ [] ∧ ∀ c ∈ s, isNameChar c = true

/-- Names of files with one space between each two. -/
def IsFiles (s : Text) : Prop := ∀ w ∈ s.splitOn ' ', w ≠ [] ∧ ∀ c ∈ w, isFileChar c = true

/-- A value on one line, without comments and escapes. -/
structure IsValue (s : Text) : Prop where
  newline : '\n' ∉ s
  hash : '#' ∉ s
  slash : '\\' ∉ s
  head : ∀ c ∈ s.head?, isBlank c = false

/-- A recipe line that does not go on. -/
structure IsRecipeLine (s : Text) : Prop where
  newline : '\n' ∉ s
  last : s.getLast? ≠ some '\\'

/-- A side of an equality without blanks, quotes, parentheses, commas, references and escapes. -/
def IsSide (s : Text) : Prop :=
  ∀ c ∈ s, isBlank c = false ∧ c ∉ ['\x27', '\x22', '(', ')', ',', '$', '#', '\\']

/-- A condition on a plain name or on two plain texts. -/
inductive PlainCondition : Condition → Prop
  | defined {loc : Location} {s : Text} {l : Option Location} {expected : Bool} (h : IsName s) :
    PlainCondition (.defined loc (.literal s l) expected)
  | equal {loc : Location} {a b : Text} {la lb : Option Location} {expected : Bool} (ha : IsSide a)
    (hb : IsSide b) : PlainCondition (.equal loc (.literal a la) (.literal b lb) expected)

mutual

/-- Statements of a structured makefile; `recipe` tells that recipe lines may come first. -/
inductive Structured : Bool → List Statement → Prop
  | nil {recipe : Bool} : Structured recipe []
  | assign {recipe : Bool} {name value : Text} {mark : AssignMark} {l : Option Location}
    {valueLoc : Location} {rest : List Statement} (hname : IsName name) (hkey : ¬ IsKeyword name)
    (hvalue : IsValue value) (hrest : Structured false rest) :
    Structured recipe (.assign ⟨.literal name l, mark, value, valueLoc, none, .makefile⟩ :: rest)
  | rule {recipe doubleColon : Bool} {targets deps : Text} {lt ld : Option Location}
    {rest : List Statement} (htargets : IsFiles targets) (hkey : ¬ IsKeyword (firstWord targets))
    (hdeps : deps = [] ∨ ∃ s, deps = ' ' :: s ∧ IsFiles s) (hrest : Structured true rest) :
    Structured recipe (.rule (.literal targets lt) (.literal deps ld) doubleColon :: rest)
  | command {s : Text} {l : Option Location} {rest : List Statement} (hs : IsRecipeLine s)
    (hrest : Structured true rest) : Structured true (.command (.literal s l) :: rest)
  | block {recipe : Bool} {loc endLoc : Location} {c : Condition} {body : List Statement}
    {groups : List Group} {rest : List Statement} (hc : PlainCondition c)
    (hbody : Structured false body) (hgroups : StructuredGroups groups)
    (hrest : Structured false rest) :
    Structured recipe (.block loc (.mk c body :: groups) endLoc :: rest)

/-- The groups after the first one of a structured block. -/
inductive StructuredGroups : List Group → Prop
  | nil : StructuredGroups []
  | last {loc : Location} {body : List Statement} (hbody : Structured false body) :
    StructuredGroups [.mk (.otherwise loc) body]
  | cons {c : Condition} {body : List Statement} {groups : List Group} (hc : PlainCondition c)
    (hbody : Structured false body) (hgroups : StructuredGroups groups) :
    StructuredGroups (.mk c body :: groups)

end

/-! ## Their characters -/

variable {s : Text} {c x : Char}

/-- The characters that no name of a file has. -/
def odds : List Char := Token.joints ++ ['$', '\n', '\t', ',', '(', ')', '|', ';']

theorem isFileChar_visible (h : isFileChar c = true) : 33 ≤ c.toNat ∧ c.toNat ≤ 126 := by
  simp only [isFileChar, isNameChar, Bool.or_eq_true, beq_iff_eq] at h
  rcases h with (((h | rfl) | rfl) | rfl) | rfl
  · exact visible_of_isAlphanum h
  all_goals decide

theorem isBlank_eq_false_of_isFileChar (h : isFileChar c = true) : isBlank c = false :=
  isBlank_eq_false_of_visible (isFileChar_visible h)

theorem isFileChar_of_isNameChar (h : isNameChar c = true) : isFileChar c = true := by
  simp [isFileChar, h]

theorem not_mem_odds_of_isFileChar (h : isFileChar c = true) : c ∉ odds := by
  intro hc
  have hall : ∀ x ∈ odds, isFileChar x = false := by decide
  simp [hall c hc] at h

theorem IsName.file (h : IsName s) : ∀ c ∈ s, isFileChar c = true := fun c hc =>
  isFileChar_of_isNameChar (h.2 c hc)

theorem IsName.isBlank (h : IsName s) : ∀ c ∈ s, Text.isBlank c = false := fun c hc =>
  isBlank_eq_false_of_isFileChar (h.file c hc)

theorem IsName.head (h : IsName s) (z : Text) : ∀ c ∈ (s ++ z).head?, Text.isBlank c = false := by
  obtain ⟨a, s, rfl⟩ := exists_cons_of_ne_nil h.1
  rintro _ ⟨⟩
  exact h.isBlank a mem_cons_self

theorem IsFiles.mem (h : IsFiles s) (hc : c ∈ s) : c = ' ' ∨ isFileChar c = true :=
  (mem_splitOn hc ' ').imp_right fun ⟨w, hw, hcw⟩ => (h w hw).2 c hcw

theorem IsFiles.exists_cons (h : IsFiles s) : ∃ c rest, s = c :: rest ∧ isFileChar c = true := by
  cases s with
  | nil => exact absurd rfl (h [] (mem_singleton_self _)).1
  | cons c rest =>
    refine ⟨c, rest, rfl, (h.mem mem_cons_self).resolve_left ?_⟩
    rintro rfl
    exact absurd rfl (h [] (by rw [splitOn_cons_sep]; exact mem_cons_self)).1

theorem not_mem_odds_of_space_or_file (h : c = ' ' ∨ isFileChar c = true) : c ∉ odds := by
  rcases h with rfl | h
  · decide
  · exact not_mem_odds_of_isFileChar h

/-- A text without odd characters is read as it stands, up to any mark. -/
theorem literal_of_not_odd (h : ∀ c ∈ s, c ∉ odds) : Expansion.Literal s where
  newline hc := h _ hc (by decide)
  dollar hc := h _ hc (by decide)
  hash hc := h _ hc (by decide)

theorem apart_of_not_odd (h : ∀ c ∈ s, c ∉ odds) (z : Text) : Token.Apart s z :=
  .inl fun c hc hj => h c hc (mem_append_left _ hj)

theorem stops_of_not_odd (h : ∀ c ∈ s, c ∉ odds) {stops : List Text}
    (hstops : ∀ w ∈ stops, ∃ x ∈ w, x ∈ odds) : ∀ w ∈ stops, ∃ x ∈ w, x ∉ s := fun w hw =>
  let ⟨x, hx, hodd⟩ := hstops w hw
  ⟨x, hx, fun hs => h x hs hodd⟩

/-! ## Lines with a directive -/

variable {st : Reader} {d : Line} {ls : List Line} {w z name deps a b : Text} {mark : AssignMark}
  {n : Nat} {loc : Location}

theorem directives_table : ∀ p ∈ directives, ∀ c ∈ p.1, isBlank c = false := by decide

theorem conditionWords_table : ∀ p ∈ conditionWords, ∀ c ∈ p.1, isBlank c = false := by decide

theorem directives_ne_nil : ∀ p ∈ directives, p.1 ≠ [] := by decide

theorem lookup_directives : ∀ p ∈ directives, directives.lookup p.1 = some p.2 := by decide

theorem lookup_conditionWords :
    ∀ p ∈ conditionWords, conditionWords.lookup p.1 = some p.2 := by decide

theorem readLines_of_keyword {word : Directive} (hw : (w, word) ∈ directives)
    (hdefine : word ≠ .define) (hz : ∀ c ∈ z.head?, isBlank c = true) (h : d.text = w ++ z) :
    readLines st (d :: ls) = (do
      let st ← readDirective st d word (d.start + (w.length + (z.takeWhile isBlank).length))
      readLines st ls) := by
  have hink : ∀ c ∈ d.text.head?, isBlank c = false := by
    obtain ⟨a, w, rfl⟩ := exists_cons_of_ne_nil (directives_ne_nil _ hw)
    rw [h]
    rintro _ ⟨⟩
    exact directives_table _ hw a mem_cons_self
  have hskip : d.skipBlanks d.start = d.start := skipBlanks_ink (Nat.zero_le _) hink
  have htab : d.text.head? ≠ some '\t' := fun htab => absurd (hink '\t' htab) (by decide)
  have hword : leadingWord? directives (d.rest (d.skipBlanks d.start)) =
      some (word, w.length, w.length + (z.takeWhile isBlank).length) := by
    rw [hskip, d.rest_start, h, leadingWord?_eq directives_table (directives_table _ hw) hz,
      lookup_directives _ hw, Option.map_some]
  rw [readLines_directive hdefine (fun _ => htab) hword, hskip]

/-! ## Lines without a directive -/

theorem lookup_directives_eq_none (h : ¬ IsKeyword w) : directives.lookup w = none := by
  rw [lookup_eq_none_iff]
  intro p hp
  refine bne_iff_ne.2 ?_
  rintro rfl
  exact h (mem_map_of_mem hp)

/-- A line without a blank or a keyword at its start has no directive. -/
theorem readLines_of_not_keyword (hink : ∀ c ∈ d.text.head?, isBlank c = false)
    (hkey : ¬ IsKeyword (firstWord d.text)) :
    readLines st (d :: ls) = (do
      let st ← readPlain st d d.start
      readLines st ls) := by
  have hskip : d.skipBlanks d.start = d.start := skipBlanks_ink (Nat.zero_le _) hink
  have htab : d.text.head? ≠ some '\t' := fun htab => absurd (hink '\t' htab) (by decide)
  obtain ⟨rest, htext, hrest⟩ := exists_firstWord_append d.text
  have hnone : leadingWord? directives (d.rest (d.skipBlanks d.start)) = none := by
    rw [hskip, d.rest_start, htext,
      leadingWord?_eq directives_table (not_blank_of_mem_firstWord) hrest,
      lookup_directives_eq_none hkey, Option.map_none]
  rw [readLines_plain (fun _ => htab) hnone, hskip]

/-- An empty line is skipped. -/
theorem readLines_empty (h : d.text = []) : readLines st (d :: ls) = readLines st ls := by
  have hparse : Expansion.parse d d.start plainStops (.makefile true) =
      pure ⟨.literal [] (some d.loc), none⟩ :=
    (literal_of_not_odd (by simp)).parse_ended d.covers_start (by rw [d.rest_start, h]) (by decide)
  rw [readLines_of_not_keyword (by simp [h]) (by rw [h]; decide),
    readPlain_of_none hparse, pure_bind]

/-- **A line with a name and a mark assigns its flattened rest.** -/
theorem readLines_assigned (hname : IsName name) (hkey : ¬ IsKeyword name)
    (h : d.text = name ++ (' ' :: (mark.text ++ ' ' :: w))) :
    ∃ loc, readLines st (d :: ls) = readLines ((st.add (.assign ⟨.literal name (some d.loc), mark,
      trimLeft (uncomment (condense (' ' :: w))), loc, none, .makefile⟩)).rule false) ls := by
  have hodd : ∀ c ∈ name ++ [' '], c ∉ odds := fun c hc =>
    not_mem_odds_of_space_or_file
      ((mem_append.1 hc).symm.imp mem_singleton.1 (hname.file c))
  have hparse : Expansion.parse d d.start plainStops (.makefile true) =
      pure ⟨.literal (name ++ [' ']) (some d.loc),
        some (.mark mark.text, d.start + (name ++ [' ']).length + mark.text.length)⟩ := by
    refine (literal_of_not_odd hodd).parse_found (z := ' ' :: w) d.covers_start (by simp [h])
      (stops_of_not_odd hodd (by decide)) (apart_of_not_odd hodd _) (match?_mark mark _) ?_ ?_
    · cases mark <;> decide
    · cases mark <;> decide
  have htrim : trim (name ++ [' ']) = name := by
    unfold trim
    rw [trimLeft_eq_self, trimRight_append_blank (by decide), trimRight_eq_self]
    · exact fun c hc => hname.isBlank c (mem_of_getLast? hc)
    · exact hname.head _
  have hflat : d.flatten (d.start + (name ++ [' ']).length + mark.text.length) =
      Line.uncomment (Line.condense (' ' :: w)) := by
    unfold Line.flatten
    rw [Nat.add_assoc, ← length_append, Line.rest_add, h,
      show name ++ ' ' :: (mark.text ++ ' ' :: w) = (name ++ [' '] ++ mark.text) ++
        ' ' :: w by simp,
      drop_left]
  refine ⟨d.locAt (d.start + (name ++ [' ']).length + mark.text.length), ?_⟩
  rw [readLines_of_not_keyword, readPlain_of_mark hparse, pure_bind, htrim]
  · unfold readAssignment
    rw [hflat]
  · rw [h]
    exact hname.head _
  · rwa [h, firstWord_append hname.isBlank (by simp; decide)]

/-- **A printed assignment is read as that assignment.** -/
theorem readLines_assign {value : Text} (hname : IsName name) (hkey : ¬ IsKeyword name)
    (hvalue : IsValue value) (h : d.text = name ++ (' ' :: (mark.text ++ ' ' :: value))) :
    ∃ loc, readLines st (d :: ls) = readLines ((st.add
      (.assign ⟨.literal name (some d.loc), mark, value, loc, none, .makefile⟩)).rule false)
        ls := by
  have hflat : trimLeft (uncomment (condense (' ' :: value))) = value := by
    rw [condense_eq_self (by simpa using hvalue.newline),
      uncomment_eq_self (by simpa using hvalue.hash)]
    exact trimLeft_eq_self hvalue.head
  obtain ⟨loc, hread⟩ := @readLines_assigned st d ls _ _ _ hname hkey h
  exact ⟨loc, by rw [hread, hflat]⟩

/-- A text that a colon ends has the first word of the text before, or none of the keywords. -/
theorem not_isKeyword_firstWord_append (hs : ¬ IsKeyword (firstWord s))
    (hz : z.head? = some ':') : ¬ IsKeyword (firstWord (s ++ z)) := by
  by_cases hb : ∀ c ∈ s, isBlank c = false
  · -- the first word goes on into `z` and has its colon
    obtain ⟨z, rfl⟩ : ∃ z', z = ':' :: z' := head?_eq_some_iff.1 hz
    intro hkey
    have hcolon : ∀ w ∈ directives.map (·.1), ':' ∉ w := by decide
    refine hcolon _ hkey ?_
    unfold firstWord
    rw [takeWhile_append_of_pos (by simpa using hb), takeWhile_cons_of_pos (by decide)]
    simp
  · have heq : firstWord (s ++ z) = firstWord s := by
      unfold firstWord
      rw [takeWhile_append, if_neg]
      intro hlen
      have hstart := takeWhile_prefix (l := s) fun c => !isBlank c
      have hself := hstart.eq_of_length hlen
      exact hb (hself ▸ not_blank_of_mem_firstWord)
    rwa [heq]

theorem not_mem_odds_of_deps (h : deps = [] ∨ ∃ s, deps = ' ' :: s ∧ IsFiles s) :
    ∀ c ∈ deps, c ∉ odds := by
  rcases h with rfl | ⟨s, rfl, hs⟩
  · simp
  · intro c hc
    rcases mem_cons.1 hc with rfl | hc
    · decide
    · exact not_mem_odds_of_space_or_file (hs.mem hc)

/-- **A printed rule is read as that rule.** -/
theorem readLines_rule {targets : Text} {doubleColon : Bool} (htargets : IsFiles targets)
    (hkey : ¬ IsKeyword (firstWord targets))
    (hdeps : deps = [] ∨ ∃ s, deps = ' ' :: s ∧ IsFiles s)
    (h : d.text = targets ++ (colon doubleColon ++ deps)) :
    readLines st (d :: ls) = readLines ((st.add
      (.rule (.literal targets (some d.loc)) (.literal deps (some d.loc)) doubleColon)).rule true)
        ls := by
  have hodd : ∀ c ∈ targets, c ∉ odds := fun c hc => not_mem_odds_of_space_or_file (htargets.mem hc)
  have hodd' : ∀ c ∈ deps, c ∉ odds := not_mem_odds_of_deps hdeps
  have hmatch : Token.match? (colon doubleColon ++ deps) = some (.mark (colon doubleColon)) := by
    cases doubleColon
    · rcases hdeps with rfl | ⟨s, rfl, -⟩ <;> rfl
    · rfl
  have hparse : Expansion.parse d d.start plainStops (.makefile true) =
      pure ⟨.literal targets (some d.loc),
        some (.mark (colon doubleColon), d.start + targets.length +
          (colon doubleColon).length)⟩ := by
    refine (literal_of_not_odd hodd).parse_found d.covers_start (by rw [d.rest_start, h])
      (stops_of_not_odd hodd (by decide)) (apart_of_not_odd hodd _) hmatch ?_ ?_
    · cases doubleColon <;> decide
    · cases doubleColon <;> decide
  have hparse' : Expansion.parse d (d.start + targets.length + (colon doubleColon).length) ruleStops
      (.makefile true) = pure ⟨.literal deps (some d.loc), none⟩ := by
    rw [Nat.add_assoc, ← length_append]
    refine (literal_of_not_odd hodd').parse_ended (covers_add (by simp [h])) ?_
      (stops_of_not_odd hodd' (by decide))
    rw [rest_add, h, ← append_assoc, drop_left]
  obtain ⟨a, t, rfl, ha⟩ := htargets.exists_cons
  have hcolon : colon doubleColon ∈ [[':', ':'], [':']] := by cases doubleColon <;> decide
  have hdouble : (colon doubleColon == [':', ':']) = doubleColon := by cases doubleColon <;> rfl
  rw [readLines_of_not_keyword, readPlain_of_colon hcolon hparse,
    readRule_of_none hparse', pure_bind,
    hdouble, Reader.rule_add, Reader.rule_rule]
  · rw [h]
    rintro _ ⟨⟩
    exact isBlank_eq_false_of_isFileChar ha
  · rw [h]
    exact not_isKeyword_firstWord_append hkey (by cases doubleColon <;> rfl)

/-- **A printed recipe line is read as that recipe line**, under a rule. -/
theorem readLines_recipe (hs : IsRecipeLine s) (hrule : st.inRule = true)
    (h : d.text = '\t' :: escapeDollars s) :
    readLines st (d :: ls) = readLines (st.add (.command (.literal s (some d.loc)))) ls := by
  have hparse : Expansion.parse d (d.start + 1) [] .command =
      pure ⟨.literal s (some d.loc), none⟩ := by
    rw [Expansion.parse_ended (covers_add (by simp [h])) (by rw [rest_add, h]; rfl)
      (.inl (.inr rfl)) (by simp), show Mode.command.flat s = s from untab_eq_self hs.newline]
  rw [readLines_command hrule (by rw [h]; rfl), hparse, pure_bind]

/-! ## Conditions -/

theorem IsSide.literal (h : IsSide s) : Expansion.Literal s where
  newline hc := absurd (h _ hc).1 (by decide)
  dollar hc := (h _ hc).2 (by decide)
  hash hc := (h _ hc).2 (by decide)

theorem IsSide.blankEnded (h : IsSide s) : blankEnded s = false := by
  have hhead : (s.head?.map isBlank).getD false = false := by
    cases hs : s.head? with
    | none => rfl
    | some c => exact (h c (mem_of_head? hs)).1
  have hlast : (s.getLast?.map isBlank).getD false = false := by
    cases hs : s.getLast? with
    | none => rfl
    | some c => exact (h c (mem_of_getLast? hs)).1
  unfold Statement.blankEnded
  rw [hhead, hlast, Bool.or_false]

theorem escapeHashes_eq_self (h : '#' ∉ s) : escapeHashes s = s := by
  induction s with
  | nil => rfl
  | cons c s ih =>
    have hc : c ≠ '#' := fun hc => h (hc ▸ mem_cons_self)
    have hs := ih fun hs => h (mem_cons_of_mem _ hs)
    simp_all [escapeHashes]

theorem IsSide.source (h : IsSide s) (l : Option Location) :
    (Expansion.literal s l).source false true = s := by
  rw [Expansion.source]
  exact escapeHashes_eq_self h.literal.hash

/-- Nothing stands at the end of a line. -/
theorem ensureEnd_of_ended {fault : SyntaxFault} (h : d.text.length ≤ n) :
    ensureEnd d (d.start + n) fault = pure () := by
  unfold ensureEnd Line.flatten
  rw [Line.rest_add, drop_of_length_le h, Line.condense_eq_self (by simp),
    Line.uncomment_eq_self (by simp)]
  rfl

/-- Two plain sides are written in parentheses. -/
theorem sidesSource_of_isSide (ha : IsSide a) (hb : IsSide b) :
    sidesSource a b = .ok ('(' :: (a ++ ',' :: (b ++ [')']))) := by
  simp [sidesSource, ha.blankEnded, hb.blankEnded]

/-- **Two printed sides are read as these sides.** -/
theorem readSides_of_isSide (ha : IsSide a) (hb : IsSide b) (hn : n ≤ d.text.length)
    (h : d.text.drop n = '(' :: (a ++ ',' :: (b ++ [')']))) :
    readSides d (d.start + n) = pure (.literal a (some d.loc), .literal b (some d.loc)) := by
  have hlen : d.text.length = n + (a.length + b.length + 3) := by
    have := congrArg List.length h
    simp only [length_drop, length_cons, length_append, length_nil] at this
    omega
  have hdrop : ∀ k, d.text.drop (n + k) = ('(' :: (a ++ ',' :: (b ++ [')']))).drop k := by
    intro k
    rw [← drop_drop, h]
  have hleft : Expansion.parse d (d.start + n + 1) [[',']] (.makefile true) =
      pure ⟨.literal a (some d.loc), some (.mark [','], d.start + n + 1 + a.length + 1)⟩ := by
    refine ha.literal.parse_found (z := b ++ [')']) ?_ ?_ ?_ (.inr (by simp; decide)) rfl
      (by simp) (by simp)
    · exact covers_add (n := n + 1) (by omega)
    · rw [Nat.add_assoc, rest_add, hdrop]
      rfl
    · simpa using fun hc => (ha _ hc).2 (by decide)
  have hoffset : d.start + n + 1 + a.length + 1 = d.start + (n + (a.length + 2)) := by omega
  have hdrop' : d.text.drop (n + (a.length + 2)) = b ++ [')'] := by
    rw [hdrop, drop_succ_cons, ← drop_drop, drop_left]
    rfl
  have hskip : d.skipBlanks (d.start + n + 1 + a.length + 1) = d.start + (n + (a.length + 2)) := by
    rw [hoffset]
    refine skipBlanks_ink (by omega) ?_
    rw [hdrop']
    intro c hc
    rcases mem_append.1 (mem_of_head? hc) with hc | hc
    · exact (hb c hc).1
    · rw [mem_singleton.1 hc]
      decide
  have hright : Expansion.parse d (d.start + (n + (a.length + 2))) [[')']] (.makefile true) =
      pure ⟨.literal b (some d.loc),
        some (.mark [')'], d.start + (n + (a.length + 2)) + b.length + 1)⟩ := by
    refine hb.literal.parse_found (z := []) ?_ ?_ ?_ (.inr (by simp; decide)) rfl
      (by simp) (by simp)
    · exact covers_add (by omega)
    · rw [rest_add, hdrop']
      rfl
    · simpa using fun hc => (hb _ hc).2 (by decide)
  have hend : ensureEnd d (d.start + (n + (a.length + 2)) + b.length + 1) .afterConditional =
      pure () := by
    rw [Nat.add_assoc, Nat.add_assoc]
    exact ensureEnd_of_ended (by omega)
  have hchar : d.char? (d.start + n) = some '(' := by
    unfold char?
    rw [rest_add, h]
    rfl
  have htrim : (Expansion.literal a (some d.loc)).trimRight? = .ok (.literal a (some d.loc)) := by
    show Except.ok (Expansion.literal (trimRight a) (some d.loc)) = _
    rw [trimRight_eq_self fun c hc => (ha c (mem_of_getLast? hc)).1]
  unfold readSides
  simp only [hchar, hleft, pure_bind, htrim, hskip, hright, hend]
  rfl

/-- A condition that is spelled by a word and what follows it: reading that gives the condition
back, wherever it stands. -/
structure Spelled (c : Condition) (word : ConditionWord) (arg : Text) : Prop where
  newline : '\n' ∉ arg
  slash : '\\' ∉ arg
  head : ∀ x ∈ arg.head?, isBlank x = false
  read : ∀ (loc : Location) {d : Line} {n : Nat}, n ≤ d.text.length → d.text.drop n = arg →
    ∃ c' : Condition, (c'.same c = .ok true ∧ c.same c' = .ok true) ∧ (∀ l, c' ≠ .otherwise l) ∧
      readCondition word loc d (d.start + n) = pure c'

@[simp] theorem bothSame_true (b : Unit → Except Error Bool) : bothSame (.ok true) b = b () := rfl

@[simp] theorem same_literal (s : Text) (l l' : Option Location) :
    (Expansion.literal s l).same (.literal s l') = .ok true := by
  simp [Expansion.same, Expansion.sameTo]

/-- The word of a test whether a name is defined; `equalWord` gives that of a comparison. -/
def definedWord (expected : Bool) : ConditionWord := if expected then .ifdef else .ifndef

def equalWord (expected : Bool) : ConditionWord := if expected then .ifeq else .ifneq

theorem spelled_defined {l : Option Location} (hs : IsName s) (expected : Bool) :
    Spelled (.defined loc (.literal s l) expected) (definedWord expected) s where
  newline hc := absurd (hs.isBlank _ hc) (by decide)
  slash hc := absurd (hs.2 _ hc) (by decide)
  head := by simpa using hs.head []
  read loc' d n hn h := by
    have hodd : ∀ c ∈ s, c ∉ odds := fun c hc => not_mem_odds_of_isFileChar (hs.file c hc)
    have hparse : Expansion.parse d (d.start + n) [] (.makefile true) =
        pure ⟨.literal s (some d.loc), none⟩ :=
      (literal_of_not_odd hodd).parse_ended (covers_add hn) (by rw [rest_add, h]) (by simp)
    have htrim : (Expansion.literal s (some d.loc)).trimRight? = .ok (.literal s (some d.loc)) := by
      show Except.ok (Expansion.literal (trimRight s) (some d.loc)) = _
      rw [trimRight_eq_self fun c hc => hs.isBlank c (mem_of_getLast? hc)]
    refine ⟨.defined loc' (.literal s (some d.loc)) expected, ?_, by simp, ?_⟩
    · simp [Condition.same]
    · cases expected <;> simp only [definedWord, readCondition, hparse, pure_bind, htrim] <;> rfl

theorem spelled_equal {la lb : Option Location} (ha : IsSide a) (hb : IsSide b) (expected : Bool) :
    Spelled (.equal loc (.literal a la) (.literal b lb) expected)
      (equalWord expected) ('(' :: (a ++ ',' :: (b ++ [')']))) where
  newline hc := by
    simp only [mem_cons, mem_append, not_mem_nil, or_false, Char.reduceEq, false_or] at hc
    exact hc.elim ha.literal.newline hb.literal.newline
  slash hc := by
    simp only [mem_cons, mem_append, not_mem_nil, or_false, Char.reduceEq, false_or] at hc
    exact hc.elim (fun hc => (ha _ hc).2 (by decide)) (fun hc => (hb _ hc).2 (by decide))
  head := by
    rintro _ ⟨⟩
    decide
  read loc' d n hn h := by
    have hsides := readSides_of_isSide ha hb hn h
    refine ⟨.equal loc' (.literal a (some d.loc)) (.literal b (some d.loc)) expected,
      ?_, by simp, ?_⟩
    · simp [Condition.same]
    · cases expected <;> simp only [equalWord, readCondition, hsides, pure_bind] <;> rfl

/-- **A plain condition is written with one of the condition words**, after `else` if it is not the
first of its block. -/
theorem PlainCondition.exists_spelled {c : Condition} (h : PlainCondition c) :
    ∃ p ∈ conditionWords, ∃ arg, Spelled c p.2 arg ∧
      ∀ later, conditionSource later c = .ok (elseWord later ++ (p.1 ++ ' ' :: arg)) := by
  cases h with
  | @defined loc s l expected hs =>
    refine ⟨(if expected then "ifdef" else "ifndef", definedWord expected), ?_, s,
      spelled_defined hs expected, fun later => ?_⟩
    · cases expected <;> decide
    · cases expected <;> simp [conditionSource]
  | @equal loc a b la lb expected ha hb =>
    refine ⟨(if expected then "ifeq" else "ifneq", equalWord expected), ?_, _,
      spelled_equal ha hb expected, fun later => ?_⟩
    · cases expected <;> decide
    · rw [conditionSource, ha.source, hb.source, sidesSource_of_isSide ha hb]
      cases expected <;> simp

end Statement

end Rebuild
