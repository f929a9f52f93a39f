import Rebuild.Location
import Rebuild.Proofs.Text
/-!
# Locations, character by character

The location that a text leads to is found by counting its newlines and cutting its last row at the
tabs. Here it is compared with reading the text one character at a time (`Location.step`): the two
agree on every text (`advance_eq_foldl`), so reading on from where another text has led to is
reading both (`advance_append`).
-/

namespace Rebuild

open List

namespace Location

variable {s : Text} (column : Nat) (loc : Location)

/-- The column after one more character of a row: a tab leads to the next multiple of four. -/
def columnStep (column : Nat) (c : Char) : Nat :=
  if c = '\t' then 4 * (column / 4 + 1) else column + 1

/-- The location after one more character. -/
def step (loc : Location) (c : Char) : Location :=
  if c = '\n' then { loc with line := loc.line + 1, column := 0 }
  else { loc with column := columnStep loc.column c }

theorem nextStop_eq : nextStop column = 4 * (column / 4 + 1) := by
  unfold nextStop tabWidth
  omega

/-! ## One row -/

theorem columnAfter_tab {pieces : List Text} (h : pieces ≠ []) :
    columnAfter column ([] :: pieces) = columnAfter (nextStop column) pieces := by
  obtain ⟨p, ps, rfl⟩ := exists_cons_of_ne_nil h
  rfl

theorem columnAfter_char (c : Char) (piece : Text) (pieces : List Text) :
    columnAfter column ((c :: piece) :: pieces) = columnAfter (column + 1) (piece :: pieces) := by
  have hlen : column + (c :: piece).length = column + 1 + piece.length := by
    rw [length_cons]
    omega
  cases pieces with
  | nil => exact hlen
  | cons p ps =>
    show columnAfter (nextStop (column + (c :: piece).length)) (p :: ps) = _
    rw [hlen]
    rfl

/-- **The column of a row is found character by character.** -/
theorem columnAfter_splitOn (s : Text) :
    columnAfter column (s.splitOn '\t') = s.foldl columnStep column := by
  induction s generalizing column with
  | nil => rfl
  | cons c s ih =>
    rw [foldl_cons, ← ih]
    by_cases hc : c = '\t'
    · rw [hc, Text.splitOn_cons_sep, columnAfter_tab column (Text.splitOn_ne_nil s '\t'),
        nextStop_eq]
      rfl
    · obtain ⟨w, ws, hws⟩ := exists_cons_of_ne_nil (Text.splitOn_ne_nil s '\t')
      rw [Text.splitOn_cons hc hws, columnAfter_char, hws, columnStep, if_neg hc]

/-! ## Any text -/

theorem foldl_step_row (h : '\n' ∉ s) (loc : Location) :
    s.foldl step loc = { loc with column := s.foldl columnStep loc.column } := by
  induction s generalizing loc with
  | nil => rfl
  | cons c s ih =>
    have hc : c ≠ '\n' := fun hc => h (hc ▸ mem_cons_self)
    rw [foldl_cons, ih fun hs => h (mem_cons_of_mem _ hs), step, if_neg hc]
    rfl

theorem foldl_step_path (s : Text) (loc : Location) : (s.foldl step loc).path = loc.path := by
  induction s generalizing loc with
  | nil => rfl
  | cons c s ih =>
    rw [foldl_cons, ih, step]
    split <;> rfl

theorem foldl_step_line (s : Text) (loc : Location) :
    (s.foldl step loc).line = loc.line + s.count '\n' := by
  induction s generalizing loc with
  | nil => rfl
  | cons c s ih =>
    rw [foldl_cons, ih, step, count_cons]
    by_cases hc : c = '\n'
    · rw [if_pos hc, if_pos (by simp [hc])]
      show loc.line + 1 + _ = _
      omega
    · rw [if_neg hc, if_neg (by simp [hc])]
      rfl

/-- After a newline a new row begins. -/
theorem foldl_step_newline (s : Text) (loc : Location) :
    (s ++ ['\n']).foldl step loc = ⟨loc.path, loc.line + (s ++ ['\n']).count '\n', 0⟩ := by
  have hpath := foldl_step_path s loc
  have hline := foldl_step_line s loc
  rw [foldl_append, count_append, foldl_cons, foldl_nil, step, if_pos rfl, hpath, hline]
  rfl

theorem newline_not_mem_lastRow (s : Text) : '\n' ∉ lastRow s := by
  intro h
  have hne := mem_takeWhile_imp (mem_reverse.1 h)
  simp at hne

/-- A text with a newline ends in its last row, after a newline. -/
theorem exists_append_lastRow (h : '\n' ∈ s) : ∃ u, s = u ++ ['\n'] ++ lastRow s := by
  obtain ⟨c, u, hu⟩ : ∃ c u, s.reverse.dropWhile (· != '\n') = c :: u := by
    refine exists_cons_of_ne_nil fun hnil => ?_
    simpa using dropWhile_eq_nil_iff.1 hnil '\n' (mem_reverse.2 h)
  have hc : c = '\n' := by
    have hnot := head?_dropWhile_not (· != '\n') s.reverse
    rw [hu] at hnot
    simpa using hnot
  refine ⟨u.reverse, ?_⟩
  calc
    s = (s.reverse.takeWhile (· != '\n') ++ s.reverse.dropWhile (· != '\n')).reverse := by
      rw [takeWhile_append_dropWhile, reverse_reverse]
    _ = u.reverse ++ ['\n'] ++ lastRow s := by
      rw [hu, hc, reverse_append, reverse_cons]
      rfl

theorem lastRow_eq_self (h : '\n' ∉ s) : lastRow s = s := by
  unfold lastRow
  rw [takeWhile_eq_self_iff.2 fun c hc => ?_, reverse_reverse]
  exact bne_iff_ne.2 fun hn => h (hn ▸ mem_reverse.1 hc)

theorem foldl_step_of_mem (h : '\n' ∈ s) (loc : Location) :
    s.foldl step loc = ⟨loc.path, loc.line + s.count '\n', (lastRow s).foldl columnStep 0⟩ := by
  obtain ⟨u, hu⟩ := exists_append_lastRow h
  have hlast : (lastRow s).count '\n' = 0 := count_eq_zero.2 (newline_not_mem_lastRow s)
  have hcount : s.count '\n' = (u ++ ['\n']).count '\n' := by
    simpa [hlast] using congrArg (List.count '\n') hu
  conv_lhs => rw [hu, foldl_append, foldl_step_newline, foldl_step_row (newline_not_mem_lastRow s)]
  rw [hcount]

/-- The line after a text is told by its newlines, and the column by what follows the last of
them. -/
theorem foldl_step_start (s path : Text) (line : Nat) :
    s.foldl step ⟨path, line, 0⟩ = ⟨path, line + s.count '\n', (lastRow s).foldl columnStep 0⟩ := by
  by_cases h : '\n' ∈ s
  · exact foldl_step_of_mem h _
  · rw [foldl_step_row h, lastRow_eq_self h, count_eq_zero.2 h]
    rfl

/-- **The location after a text is found character by character.** -/
theorem advance_eq_foldl (s : Text) : loc.advance s = s.foldl step loc := by
  unfold advance
  split
  · rename_i h
    rw [columnAfter_splitOn, foldl_step_of_mem (contains_iff_mem.1 h)]
  · rename_i h
    rw [foldl_step_row fun hs => h (contains_iff_mem.2 hs), columnAfter_splitOn]

/-- **Locations compose.** -/
theorem advance_append (s t : Text) : loc.advance (s ++ t) = (loc.advance s).advance t := by
  rw [advance_eq_foldl, advance_eq_foldl, advance_eq_foldl, foldl_append]

end Location

end Rebuild
