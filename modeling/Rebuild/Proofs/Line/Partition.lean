import Rebuild.Proofs.Line.Pieces
import Rebuild.Proofs.Location
/-!
# The logical lines of a source

The logical lines are the source, cut at the newlines after an even number of backslashes and
nowhere else (`lines_partition`). Each line knows where it stands, so that an offset in it has the
location that reading the source up to there leads to (`locations_exact`).
-/

namespace Rebuild

open List Location

namespace Line

variable {d : Line} {s path : Text} {ps qs : List Text} {odd : Bool}

/-! ## Cuts -/

/-- Lines as they stand in a source, each with the newline that ends it. -/
def ended (ps : List Text) : Text := ps.flatMap (· ++ ['\n'])

theorem join_append (ps : List Text) (hqs : qs ≠ []) :
    Text.join ['\n'] (ps ++ qs) = ended ps ++ Text.join ['\n'] qs := by
  induction ps with
  | nil => rfl
  | cons p ps ih =>
    rw [cons_append, Text.join_cons _ _ (by simp [hqs]), ih]
    simp [ended]

/-- A line begins at the start of the source or after a newline. -/
theorem ended_concat (ps : List Text) (p : Text) : ended (ps ++ [p]) = ended ps ++ p ++ ['\n'] := by
  simp [ended]

/-- **Putting the lines together gives the source back.** -/
theorem join_pieces (odd : Bool) (s : Text) : Text.join ['\n'] (pieces odd s) = s := by
  fun_induction pieces odd s with
  | case1 => rfl
  | case2 odd c s hc ih =>
    rw [Text.join_cons _ _ (pieces_ne_nil false s), ih, beq_iff_eq.1 (Bool.and_eq_true_iff.1 hc).1]
    rfl
  | case3 odd c s hc hnil ih => exact absurd hnil (pieces_ne_nil _ _)
  | case4 odd c s hc p ps hp ih =>
    rw [hp] at ih
    rw [← ih]
    cases ps <;> rfl

/-- The last line of a source ends it. -/
theorem exists_pieces_concat (odd : Bool) (s : Text) :
    ∃ before p, pieces odd s = before ++ [p] ∧ ended before ++ p = s := by
  rcases eq_nil_or_concat (pieces odd s) with h | ⟨before, p, h⟩
  · exact absurd h (pieces_ne_nil _ _)
  · rw [concat_eq_append] at h
    have hjoin := join_pieces odd s
    rw [h, join_append before (cons_ne_nil _ _)] at hjoin
    exact ⟨before, p, h, hjoin⟩

/-- Where a source is cut, the number of backslashes is even. -/
theorem oddAfter_of_pieces {p : Text} (h : pieces odd s = ps ++ p :: qs) (hqs : qs ≠ []) :
    oddAfter odd (ended ps ++ p) = false := by
  fun_induction pieces odd s generalizing ps p with
  | case1 odd =>
    have hlen := congrArg List.length h
    have hpos := length_pos_iff.2 hqs
    simp only [length_append, length_cons, length_nil] at hlen
    omega
  | case2 odd c s hc ih =>
    cases ps with
    | nil =>
      cases h
      show odd = false
      simpa using (Bool.and_eq_true_iff.1 hc).2
    | cons q ps =>
      obtain ⟨rfl, hrest⟩ := List.cons.inj h
      exact ih hrest
  | case3 odd c s hc hnil ih => exact absurd hnil (pieces_ne_nil _ _)
  | case4 odd c s hc first rest hfirst ih =>
    cases ps with
    | nil =>
      obtain ⟨rfl, hrest⟩ := List.cons.inj h
      have hcut : pieces (c == '\\' && !odd) s = [] ++ first :: qs := by rw [hfirst, hrest]; rfl
      exact ih hcut
    | cons q ps =>
      obtain ⟨rfl, hrest⟩ := List.cons.inj h
      have hcut : pieces (c == '\\' && !odd) s = (first :: ps) ++ p :: qs := by
        rw [hfirst, hrest]; rfl
      exact ih hcut

/-! ## Lines in their places -/

theorem place_append (start line : Nat) (ps qs : List Text) :
    place path start line (ps ++ qs) = place path start line ps ++
      place path (start + (ended ps).length) (line + (ended ps).count '\n') qs := by
  induction ps generalizing start line with
  | nil => rfl
  | cons p ps ih =>
    have hlen : start + (ended (p :: ps)).length = start + p.length + 1 + (ended ps).length := by
      simp [ended]
      omega
    have hcount : line + (ended (p :: ps)).count '\n' = line + p.count '\n' + 1 +
        (ended ps).count '\n' := by
      simp [ended]
      omega
    rw [cons_append, place, ih, place, hlen, hcount]
    rfl

/-- A line of a source stands after those before it. -/
theorem exists_of_mem_place {start line : Nat} (h : d ∈ place path start line ps) :
    ∃ before after, ps = before ++ d.text :: after ∧ d.start = start + (ended before).length ∧
      d.loc = ⟨path, line + (ended before).count '\n', 0⟩ := by
  induction ps generalizing start line with
  | nil => cases h
  | cons p ps ih =>
    rcases mem_cons.1 h with rfl | h
    · exact ⟨[], ps, rfl, rfl, rfl⟩
    · obtain ⟨before, after, hps, hstart, hloc⟩ := ih h
      refine ⟨p :: before, after, by rw [hps]; rfl, ?_, ?_⟩
      · rw [hstart]
        simp [ended]
        omega
      · rw [hloc]
        simp [ended]
        omega

theorem isChain_place (start line : Nat) (ps : List Text) :
    (place path start line ps).IsChain fun d e => e.start = d.stop + 1 := by
  induction ps generalizing start line with
  | nil => exact .nil
  | cons p ps ih =>
    have hrest := ih (start + p.length + 1) (line + p.count '\n' + 1)
    cases ps with
    | nil => exact .singleton _
    | cons q qs => exact .cons_cons rfl hrest

/-- The lines of a source that another one follows. -/
theorem dropLast_place (start line : Nat) (ps : List Text) :
    (place path start line ps).dropLast = place path start line ps.dropLast := by
  rcases eq_nil_or_concat ps with rfl | ⟨qs, p, rfl⟩
  · rfl
  · rw [concat_eq_append, place_append, dropLast_concat]
    exact dropLast_concat

/-- What stands before a line, the line, and what follows it are the source. -/
theorem exists_of_mem_lines (h : d ∈ lines s path) :
    ∃ before after, s = before ++ (d.text ++ after) ∧ d.start = before.length ∧
      d.loc = before.foldl step ⟨path, 1, 0⟩ := by
  obtain ⟨before, after, hps, hstart, hloc⟩ := exists_of_mem_place h
  have hs := join_pieces false s
  rw [hps, join_append before (cons_ne_nil _ _)] at hs
  have hfold : (ended before).foldl step ⟨path, 1, 0⟩ =
      ⟨path, 1 + (ended before).count '\n', 0⟩ := by
    rcases eq_nil_or_concat before with rfl | ⟨qs, q, rfl⟩
    · rfl
    · rw [concat_eq_append, ended_concat]
      exact foldl_step_newline _ _
  obtain ⟨rest, hrest⟩ : ∃ rest, Text.join ['\n'] (d.text :: after) = d.text ++ rest := by
    cases after with
    | nil => exact ⟨[], (append_nil _).symm⟩
    | cons a after => exact ⟨_, append_assoc _ _ _⟩
  refine ⟨ended before, rest, by rw [← hrest, hs], ?_, ?_⟩
  · rw [hstart, Nat.zero_add]
  · rw [hfold, hloc]

/-! ## The cuts are the newlines after an even number of backslashes -/

/-- A source is cut only at a newline after an even number of backslashes. -/
theorem newline_of_cut (h : d ∈ (lines s path).dropLast) :
    s[d.stop]? = some '\n' ∧ slashesAtEnd (s.take d.stop) % 2 = 0 := by
  unfold lines at h
  rw [dropLast_place] at h
  obtain ⟨before, after, hps, hstart, -⟩ := exists_of_mem_place h
  have hne := pieces_ne_nil false s
  have hpieces : pieces false s = before ++ d.text ::
      (after ++ [(pieces false s).getLast hne]) := by
    rw [← cons_append, ← append_assoc, ← hps, dropLast_concat_getLast]
  have hs : s = (ended before ++ d.text) ++ '\n' :: Text.join ['\n']
      (after ++ [(pieces false s).getLast hne]) := by
    conv_lhs => rw [← join_pieces false s, hpieces, join_append before (cons_ne_nil _ _),
      Text.join_cons _ _ (by simp)]
    simp
  have hstop : d.stop = (ended before ++ d.text).length := by
    unfold stop
    rw [hstart, length_append, Nat.zero_add]
  have htake : s.take d.stop = ended before ++ d.text := by
    rw [hs, hstop, take_left]
  constructor
  · rw [hs, hstop, getElem?_append_right le_rfl, Nat.sub_self]
    rfl
  · rw [htake, ← oddAfter_eq_false_iff]
    exact oddAfter_of_pieces hpieces (by simp)

/-- A source is cut at every newline after an even number of backslashes. -/
theorem exists_cut_of_newline {i : Nat} (hnewline : s[i]? = some '\n')
    (heven : slashesAtEnd (s.take i) % 2 = 0) :
    ∃ d ∈ (lines s path).dropLast, d.stop = i := by
  obtain ⟨hi, hget⟩ := List.getElem?_eq_some_iff.1 hnewline
  have hs : s = s.take i ++ '\n' :: s.drop (i + 1) := by
    rw [← hget, getElem_cons_drop, take_append_drop]
  have hpieces : pieces false s = pieces false (s.take i) ++ pieces false (s.drop (i + 1)) := by
    conv_lhs => rw [hs]
    exact pieces_newline (oddAfter_eq_false_iff.2 heven) _
  obtain ⟨before, p, hp, htake⟩ := exists_pieces_concat false (s.take i)
  refine ⟨⟨p, (ended before).length, ⟨path, 1 + (ended before).count '\n', 0⟩⟩, ?_, ?_⟩
  · unfold lines
    rw [dropLast_place, hpieces, dropLast_append_of_ne_nil (pieces_ne_nil _ _), hp, place_append,
      place_append]
    simp [place]
  · show (ended before).length + p.length = i
    rw [← length_append, htake, length_take]
    omega

/-- The lines are a source, cut where a newline follows an even number of backslashes, and each of
them knows where it stands. -/
structure Partition (s path : Text) (ls : List Line) : Prop where
  ne_nil : ls ≠ []
  /-- With a newline between each two, the lines are the source. -/
  join : Text.join ['\n'] (ls.map text) = s
  /-- Each line is the stretch of the source between its offsets. -/
  stretch : ∀ d ∈ ls, d.stop ≤ s.length ∧ d.text = (s.take d.stop).drop d.start
  /-- The first line begins where the source does. -/
  first : ∀ d ∈ ls.head?, d.start = 0
  /-- Each next line begins after the newline that ends the one before. -/
  next : ls.IsChain fun d e => e.start = d.stop + 1
  /-- The last line ends where the source does. -/
  last : ∀ d ∈ ls.getLast?, d.stop = s.length
  /-- The newlines that end a line are those after an even number of backslashes. -/
  cut : ∀ i, (∃ d ∈ ls.dropLast, d.stop = i) ↔ s[i]? = some '\n' ∧ slashesAtEnd (s.take i) % 2 = 0
  /-- The number of a line is one more than that of the newlines before it. -/
  loc : ∀ d ∈ ls, d.loc = ⟨path, 1 + (s.take d.start).count '\n', 0⟩

/-- **The logical lines partition the source.** -/
theorem lines_partition (s path : Text) : Partition s path (lines s path) where
  ne_nil h := pieces_ne_nil false s (by rw [← map_text_lines s path, h]; rfl)
  join := by rw [map_text_lines, join_pieces]
  stretch d hd := by
    obtain ⟨before, after, hs, hstart, -⟩ := exists_of_mem_lines hd
    have hstop : d.stop = (before ++ d.text).length := by rw [stop, hstart, length_append]
    rw [← append_assoc] at hs
    constructor
    · rw [hs, hstop]
      exact (prefix_append _ after).length_le
    · rw [hs, hstop, hstart, take_left, drop_left]
  first d hd := by
    obtain ⟨p, ps, hp⟩ := exists_cons_of_ne_nil (pieces_ne_nil false s)
    rw [lines, hp, place, head?_cons, Option.mem_some_iff] at hd
    rw [← hd]
  next := isChain_place 0 1 _
  last d hd := by
    obtain ⟨before, p, hp, hs⟩ := exists_pieces_concat false s
    rw [lines, hp, place_append, place, place, getLast?_concat, Option.mem_some_iff] at hd
    rw [← hs, ← hd, length_append]
    show 0 + _ + _ = _
    rw [Nat.zero_add]
  cut i := ⟨fun ⟨d, hd, hi⟩ => hi ▸ newline_of_cut hd, fun ⟨hnewline, heven⟩ =>
    exists_cut_of_newline hnewline heven⟩
  loc d hd := by
    obtain ⟨before, after, hps, hstart, hloc⟩ := exists_of_mem_place hd
    have htake : s.take d.start = ended before := by
      rw [← join_pieces false s, hps, join_append before (cons_ne_nil _ _), hstart,
        Nat.zero_add, take_left]
    rw [hloc, htake]

/-! ## Locations -/

theorem take_drop_append {a b c : Nat} (hab : a ≤ b) (hbc : b ≤ c) (s : Text) :
    (s.take b).drop a ++ (s.take c).drop b = (s.take c).drop a := by
  rw [drop_take, drop_take, drop_take, show c - a = (b - a) + (c - b) by omega, take_add,
    drop_drop, show a + (b - a) = b by omega]

/-- **Locations are exact.** A stretch of a text leads from a location to the one that its
characters lead to one by one; two stretches, one after the other, lead where both together do; and
an offset in a logical line has the location that the source leads to up to there: its row is told
by the newlines before it, and its column by what follows the last of them. -/
theorem locations_exact (s path : Text) :
    (∀ (loc : Location) (start stop : Nat), start ≤ stop → stop ≤ s.length →
      loc.advance ((s.take stop).drop start) = ((s.take stop).drop start).foldl Location.step loc) ∧
    (∀ (loc : Location) (a b c : Nat), a ≤ b → b ≤ c → c ≤ s.length →
      (loc.advance ((s.take b).drop a)).advance ((s.take c).drop b) =
      loc.advance ((s.take c).drop a)) ∧
    ∀ d ∈ lines s path, ∀ offset, d.start ≤ offset → offset ≤ d.stop →
      d.locAt? offset = .ok ((s.take offset).foldl Location.step ⟨path, 1, 0⟩) ∧
      d.locAt? offset = .ok ⟨path, 1 + (s.take offset).count '\n',
        (Location.lastRow (s.take offset)).foldl Location.columnStep 0⟩ := by
  refine ⟨fun loc start stop _ _ => advance_eq_foldl loc _, ?_, ?_⟩
  · intro loc a b c hab hbc _
    rw [← advance_append, take_drop_append hab hbc]
  · intro d hd offset hstart hstop
    obtain ⟨before, after, hs, hbefore, hloc⟩ := exists_of_mem_lines hd
    have htake : s.take offset = before ++ d.text.take (offset - d.start) := by
      unfold stop at hstop
      rw [hs, take_append, take_of_length_le (by omega), ← hbefore,
        take_append_of_le_length (by omega)]
    have hlocAt : d.locAt? offset = .ok ((s.take offset).foldl step ⟨path, 1, 0⟩) := by
      unfold locAt? locAt
      rw [if_pos (by simp [covers, hstart, hstop]), hloc, advance_eq_foldl, ← foldl_append, htake]
    rw [hlocAt, foldl_step_start]
    exact ⟨rfl, rfl⟩

/-- The end of the second line of a source with tabs and a continuation in it, and the way there in
two steps. -/
theorem locations_exact_tabs :
    (⟨"b\\\n\tc", 4, ⟨"f", 2, 0⟩⟩ : Line) ∈ lines "a\\\\\nb\\\n\tc" "f" ∧
    (⟨"b\\\n\tc", 4, ⟨"f", 2, 0⟩⟩ : Line).locAt? 9 = .ok ⟨"f", 3, 5⟩ ∧
    ((⟨"f", 1, 0⟩ : Location).advance "a\\\\\nb").advance "\\\n\tc" = ⟨"f", 3, 5⟩ := by
  have h := locations_exact "a\\\\\nb\\\n\tc" "f"
  have hline : (⟨"b\\\n\tc", 4, ⟨"f", 2, 0⟩⟩ : Line) ∈ lines "a\\\\\nb\\\n\tc" "f" := by decide
  refine ⟨hline, (h.2.2 _ hline 9 (by decide) (by decide)).2, ?_⟩
  exact (h.2.1 ⟨"f", 1, 0⟩ 0 5 9 (by decide) (by decide) (by decide)).trans
    (h.1 ⟨"f", 1, 0⟩ 0 9 (by decide) (by decide))

end Line

end Rebuild
