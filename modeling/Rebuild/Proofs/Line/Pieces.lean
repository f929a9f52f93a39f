import Mathlib.Data.List.Induction
import Rebuild.Line.Basic
/-!
# Rows and logical lines

A source is made of rows, the stretches between its newlines. A row that ends in an odd number of
backslashes takes the newline and the next row with it; every other row ends a logical line
(`pieces_row`). So a source all of whose rows end otherwise has its rows as logical lines
(`pieces_join`), and a newline after an even number of backslashes parts a source into two
(`pieces_newline`).
-/

namespace Rebuild

open List

namespace Line

variable {row s : Text} {odd : Bool} {p : Text} {ps : List Text}

/-- Does an odd number of backslashes stand at the end of a text, if it begins after an odd or even
number of them? -/
def oddAfter (odd : Bool) (s : Text) : Bool := s.foldl (fun odd c => c == '\\' && !odd) odd

theorem oddAfter_append_singleton (odd : Bool) (s : Text) (c : Char) :
    oddAfter odd (s ++ [c]) = (c == '\\' && !oddAfter odd s) := by
  simp [oddAfter]

theorem oddAfter_eq_false (h : s.getLast? ≠ some '\\') : oddAfter false s = false := by
  rcases eq_nil_or_concat s with rfl | ⟨t, c, rfl⟩
  · rfl
  · rw [concat_eq_append] at h ⊢
    rw [oddAfter_append_singleton]
    simp_all

/-- The number of backslashes at the end of a text. -/
def slashesAtEnd (s : Text) : Nat := (s.reverse.takeWhile (· == '\\')).length

theorem slashesAtEnd_append_singleton (s : Text) (c : Char) :
    slashesAtEnd (s ++ [c]) = if c = '\\' then slashesAtEnd s + 1 else 0 := by
  unfold slashesAtEnd
  rw [reverse_append, reverse_singleton, singleton_append, takeWhile_cons]
  by_cases hc : c = '\\' <;> simp [hc]

/-- Whether the backslashes at the end of a text are odd in number, told from its characters. -/
theorem oddAfter_eq_slashesAtEnd (s : Text) :
    oddAfter false s = decide (slashesAtEnd s % 2 = 1) := by
  induction s using List.reverseRecOn with
  | nil => rfl
  | append_singleton s c ih =>
    rw [oddAfter_append_singleton, slashesAtEnd_append_singleton, ih]
    by_cases hc : c = '\\'
    · rw [if_pos hc, hc]
      grind
    · simp [hc]

theorem oddAfter_eq_false_iff : oddAfter false s = false ↔ slashesAtEnd s % 2 = 0 := by
  rw [oddAfter_eq_slashesAtEnd]
  simp

theorem pieces_ne_nil (odd : Bool) (s : Text) : pieces odd s ≠ [] := by
  cases s with
  | nil => simp [pieces]
  | cons c s =>
    rw [pieces]
    split
    · simp
    · split <;> simp

/-- A stretch without newlines belongs to the first piece. -/
theorem pieces_append (h : '\n' ∉ row) (hp : pieces (oddAfter odd row) s = p :: ps) :
    pieces odd (row ++ s) = (row ++ p) :: ps := by
  induction row generalizing odd with
  | nil => exact hp
  | cons c row ih =>
    have hc : c ≠ '\n' := fun hc => h (hc ▸ mem_cons_self)
    rw [cons_append, pieces, if_neg (by simp [hc]), ih (fun hn => h (mem_cons_of_mem _ hn)) hp]
    rfl

theorem pieces_row_last (h : '\n' ∉ row) : pieces odd row = [row] := by
  simpa using pieces_append (s := []) h rfl

/-- **A row ends a logical line exactly if it does not end in an odd number of backslashes.** -/
theorem pieces_row (h : '\n' ∉ row) (s : Text) :
    pieces false (row ++ '\n' :: s) =
      if oddAfter false row then
        match pieces false s with
        | [] => []
        | p :: ps => (row ++ '\n' :: p) :: ps
      else row :: pieces false s := by
  split
  · rename_i hodd
    obtain ⟨p, ps, hs⟩ := exists_cons_of_ne_nil (pieces_ne_nil false s)
    have hnext : pieces (oddAfter false row) ('\n' :: s) = ('\n' :: p) :: ps := by
      simp [pieces, hodd, hs]
    rw [pieces_append h hnext, hs]
  · rename_i hodd
    have hnext : pieces (oddAfter false row) ('\n' :: s) = [] :: pieces false s := by
      simp [pieces, hodd]
    rw [pieces_append h hnext, append_nil]

/-- **The seam of two texts.** A newline after an even number of backslashes parts the logical lines
before it from those after it. -/
theorem pieces_newline {u : Text} (h : oddAfter odd u = false) (v : Text) :
    pieces odd (u ++ '\n' :: v) = pieces odd u ++ pieces false v := by
  induction u generalizing odd with
  | nil =>
    rw [show odd = false from h]
    simp [pieces]
  | cons c u ih =>
    have hu : oddAfter (c == '\\' && !odd) u = false := h
    rw [cons_append, pieces, pieces]
    split
    · rename_i hc
      rw [beq_iff_eq.1 (Bool.and_eq_true_iff.1 hc).1] at hu
      rw [cons_append, ih (show oddAfter false u = false from hu)]
    · rw [ih hu]
      obtain ⟨p, ps, hp⟩ := exists_cons_of_ne_nil (pieces_ne_nil (c == '\\' && !odd) u)
      rw [hp]
      rfl

/-- A newline in front of a piece stands after a backslash. -/
theorem head?_ne_newline_of_pieces (h : pieces false s = p :: ps) : p.head? ≠ some '\n' := by
  cases s with
  | nil =>
    cases h
    simp
  | cons c s =>
    rw [pieces] at h
    split at h
    · cases h
      simp
    · rename_i hc
      have hne : c ≠ '\n' := by simpa using hc
      split at h <;> cases h <;> simpa using hne

/-- A newline at the end of a piece stands after a backslash, and so after no dollar sign. -/
theorem not_dollar_of_mem_pieces (h : p ∈ pieces odd s) : ¬ ['$', '\n'] <:+ p := by
  induction s generalizing odd p with
  | nil =>
    rw [show p = [] from mem_singleton.1 h]
    simp
  | cons c s ih =>
    rw [pieces] at h
    split at h
    · rcases mem_cons.1 h with rfl | h
      · simp
      · exact ih h
    obtain ⟨q, ps, hq⟩ := exists_cons_of_ne_nil (pieces_ne_nil (c == '\\' && !odd) s)
    rw [hq] at h
    rcases mem_cons.1 h with rfl | h
    · intro hsuffix
      rcases suffix_cons_iff.1 hsuffix with heq | hsuffix
      · cases heq
        exact head?_ne_newline_of_pieces hq rfl
      · exact ih (hq ▸ mem_cons_self) hsuffix
    · exact ih (hq ▸ mem_cons_of_mem _ h)

/-- **Rows that do not end in a backslash are the logical lines of their source.** -/
theorem pieces_join {rows : List Text} (hrows : rows ≠ [])
    (h : ∀ row ∈ rows, '\n' ∉ row ∧ row.getLast? ≠ some '\\') :
    pieces false (Text.join ['\n'] rows) = rows := by
  fun_induction Text.join ['\n'] rows with
  | case1 => cases hrows rfl
  | case2 row => exact pieces_row_last (h row (by simp)).1
  | case3 row rest hrest ih =>
    have hrow := h row (by simp)
    rw [append_assoc, singleton_append, pieces_row hrow.1, oddAfter_eq_false hrow.2,
      ih (by simpa using hrest) fun r hr => h r (mem_cons_of_mem _ hr)]
    rfl

theorem map_text_place (path : Text) (start line : Nat) (ps : List Text) :
    (place path start line ps).map text = ps := by
  induction ps generalizing start line with
  | nil => rfl
  | cons p ps ih => simp [place, ih]

theorem map_text_lines (s path : Text) :
    (lines s path).map text = pieces false s := map_text_place path 0 1 _

end Line

end Rebuild
