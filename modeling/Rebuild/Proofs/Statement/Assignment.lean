import Rebuild.Proofs.Line.Stepwise
import Rebuild.Proofs.Statement.RoundTrip
import Rebuild.Proofs.Statement.Twin
/-!
# Printed values

An assignment is printed with the hash signs of its value quoted, and is read as an assignment
again. The printer looks one character back from a hash sign, while the reader halves the whole run
of backslashes before it, so the two agree on a value exactly if it has no hash sign after two
backslashes (`reread_eq_self_iff`); only then the assignment that is read has the value that was
printed (`parse_source_assign`).
-/

namespace Rebuild

open List Text

namespace Statement

open Line

variable {name value w : Text} {c : Char} (n : Nat) (v : Text)

/-! ## A value that is printed and read -/

/-- What is read of a value that was printed. -/
def reread (value : Text) : Text := uncomment (escapeValue false value)

theorem escapeValue_slashes (slash : Bool) (n : Nat) (z : Text) :
    escapeValue slash (copies n '\\' ++ z) = copies n '\\' ++ escapeValue (slash || 0 < n) z := by
  induction n generalizing slash with
  | zero => simp [copies]
  | succ n ih =>
    have hstep := ih true
    simp only [copies, replicate_succ, cons_append] at hstep ⊢
    rw [escapeValue, if_neg (by decide), beq_self_eq_true, hstep]
    simp

/-- A hash sign is printed after one backslash more, or two more if there is one already. -/
theorem escapeValue_hash : escapeValue false (copies n '\\' ++ '#' :: v) =
    copies (n + if 0 < n then 2 else 1) '\\' ++ '#' :: escapeValue false v := by
  have hsplit (m : Nat) : copies (n + m) '\\' = copies n '\\' ++ copies m '\\' :=
    replicate_add n m '\\'
  rw [escapeValue_slashes, escapeValue, if_pos (by decide), hsplit, append_assoc]
  by_cases hn : 0 < n <;> simp [hn, copies, replicate_succ]

theorem reread_slashes : reread (copies n '\\') = copies n '\\' := by
  have hhash : '#' ∉ copies n '\\' := by simp [copies]
  unfold reread
  rw [escapeValue_eq_self hhash, uncomment_eq_self hhash]

theorem reread_other (hhash : c ≠ '#') (hslash : c ≠ '\\') (n : Nat) (v : Text) :
    reread (copies n '\\' ++ c :: v) = copies n '\\' ++ c :: reread v := by
  unfold reread
  rw [escapeValue_slashes, escapeValue, if_neg (by simpa using hhash), beq_false_of_ne hslash,
    uncomment_slashes hhash hslash]

theorem reread_hash : reread (copies n '\\' ++ '#' :: v) =
    copies ((n + if 0 < n then 2 else 1) / 2) '\\' ++
      if (n + if 0 < n then 2 else 1) % 2 = 0 then [] else '#' :: reread v := by
  unfold reread
  rw [escapeValue_hash, uncomment_hash]

theorem length_copies (c : Char) : (copies n c).length = n := by simp [copies]

/-- A value does not get longer. -/
theorem length_reread_le : (reread v).length ≤ v.length := by
  induction v using slashes_induction with
  | run n => rw [reread_slashes]
  | step n c v hslash ih =>
    by_cases hhash : c = '#'
    · subst hhash
      have hhalf : (n + if 0 < n then 2 else 1) / 2 ≤ n := by split <;> omega
      rw [reread_hash]
      generalize n + (if 0 < n then 2 else 1) = m at hhalf ⊢
      rw [length_append, length_append, length_copies, length_copies, length_cons]
      split
      · exact Nat.add_le_add hhalf (Nat.zero_le _)
      · exact Nat.add_le_add hhalf (Nat.succ_le_succ ih)
    · rw [reread_other hhash hslash]
      simpa using ih

/-- After two backslashes or more, it gets shorter. -/
theorem length_reread_hash_lt {n : Nat} (hn : 2 ≤ n) (v : Text) :
    (reread (copies n '\\' ++ '#' :: v)).length < (copies n '\\' ++ '#' :: v).length := by
  have hv := length_reread_le v
  rw [reread_hash, if_pos (by omega), length_append, length_append, length_copies,
    length_copies, length_cons]
  split
  · simp only [length_nil]
    omega
  · simp only [length_cons]
    omega

/-- Two backslashes and a hash sign stand across the end of a run of backslashes, or after it. -/
theorem slashes_hash_isInfix_iff (hslash : c ≠ '\\') (n : Nat) (v : Text) :
    ['\\', '\\', '#'] <:+: copies n '\\' ++ c :: v ↔ (2 ≤ n ∧ c = '#') ∨
    ['\\', '\\', '#'] <:+: v := by
  induction n with
  | zero => simp [copies, infix_cons_iff, cons_prefix_cons, hslash.symm]
  | succ n ih =>
    have hcons : copies (n + 1) '\\' ++ c :: v = '\\' :: (copies n '\\' ++ c :: v) := by
      simp [copies, replicate_succ]
    have hprefix : ['\\', '\\', '#'] <+: '\\' :: (copies n '\\' ++ c :: v) ↔ n = 1 ∧ c = '#' := by
      rcases n with - | - | n <;>
        simp [copies, replicate_succ, cons_prefix_cons, hslash.symm, eq_comm]
    rw [hcons, infix_cons_iff, hprefix, ih]
    constructor
    · rintro (⟨rfl, rfl⟩ | ⟨hn, rfl⟩ | hv)
      · exact .inl ⟨Nat.le_refl _, rfl⟩
      · exact .inl ⟨Nat.le_succ_of_le hn, rfl⟩
      · exact .inr hv
    · rintro (⟨hn, rfl⟩ | hv)
      · rcases Nat.lt_or_ge n 2 with hlt | hge
        · exact .inl ⟨by omega, rfl⟩
        · exact .inr (.inl ⟨hge, rfl⟩)
      · exact .inr (.inr hv)

/-- **A printed value is read as it was exactly if it has no hash sign after two backslashes.** -/
theorem reread_eq_self_iff : reread v = v ↔ ¬ ['\\', '\\', '#'] <:+: v := by
  induction v using slashes_induction with
  | run n =>
    have hno : ¬ ['\\', '\\', '#'] <:+: copies n '\\' := fun h =>
      absurd (h.subset (by simp : '#' ∈ ['\\', '\\', '#'])) (by simp [copies])
    simp [reread_slashes, hno]
  | step n c v hslash ih =>
    rw [slashes_hash_isInfix_iff hslash, not_or, ← ih]
    by_cases hhash : c = '#'
    · subst hhash
      by_cases hn : 2 ≤ n
      · have hlt := length_reread_hash_lt hn v
        exact iff_of_false (fun h => absurd (congrArg List.length h) hlt.ne)
          (fun h => h.1 ⟨hn, rfl⟩)
      · -- one backslash at most: the printer's look back sees the whole run
        have hrun : n = 0 ∨ n = 1 := by omega
        rcases hrun with rfl | rfl
        · rw [reread_hash]
          simp [copies]
        · rw [reread_hash]
          simp [copies]
    · rw [reread_other hhash hslash]
      simp [hhash]

/-! ## The line -/

theorem head_escapeValue (h : ∀ c ∈ value.head?, isBlank c = false) (slash : Bool) :
    ∀ c ∈ (escapeValue slash value).head?, isBlank c = false := by
  have hslash : isBlank '\\' = false := by decide
  cases value with
  | nil => simp [escapeValue]
  | cons a v =>
    rw [escapeValue]
    split
    · split <;> simpa using hslash
    · simpa using h

theorem newline_not_mem_escapeValue (h : '\n' ∉ value) (slash : Bool) :
    '\n' ∉ escapeValue slash value := by
  induction value generalizing slash with
  | nil => simp [escapeValue]
  | cons a v ih =>
    have hv := ih fun hmem => h (mem_cons_of_mem a hmem)
    have ha : '\n' ≠ a := fun ha => h (ha ▸ mem_cons_self)
    rw [escapeValue]
    split
    · split <;> simp [hv]
    · simp [hv, ha]

/-- A value of one row that begins with ink is printed on the line of its name. -/
theorem source_assign (hnewline : '\n' ∉ value) (hhead : ∀ c ∈ value.head?, isBlank c = false)
    (name : Text) (l : Option Location) (mark : AssignMark) (valueLoc : Location) :
    source (.assign ⟨.literal name l, mark, value, valueLoc, none, .makefile⟩) =
      .ok (name ++ (' ' :: (mark.text ++ ' ' :: escapeValue false value))) := by
  have hmem := newline_not_mem_escapeValue hnewline false
  have hblank : ((escapeValue false value).head?.map isBlank).getD false = false := by
    have hescaped := head_escapeValue hhead false
    cases hhd : (escapeValue false value).head? with
    | none => rfl
    | some a => exact hescaped a hhd
  rw [source]
  simp [assignmentSource, hmem, hblank, Expansion.source]

/-- **A line with a name, a mark and a text is read as the assignment of the text without its
comment.** -/
theorem parse_assigned (hname : IsName name) (hkey : ¬ IsKeyword name) (hnewline : '\n' ∉ w)
    (hhead : ∀ c ∈ w.head?, isBlank c = false) (mark : AssignMark) (path : Text) :
    ∃ l loc, (parse (name ++ (' ' :: (mark.text ++ ' ' :: w))) path).outcome =
      (.ok [.assign ⟨.literal name (some l), mark, uncomment w, loc, none, .makefile⟩], []) := by
  have hrow : '\n' ∉ name ++ (' ' :: (mark.text ++ ' ' :: w)) := by
    have hmark : '\n' ∉ mark.text := by cases mark <;> decide
    have hnew : '\n' ∉ name := fun hc => absurd (hname.isBlank _ hc) (by decide)
    simp [hmark, hnew, hnewline]
  obtain ⟨d, ls, hlines, hd, hnil⟩ :=
    map_eq_cons_iff.1 ((map_text_lines _ path).trans (pieces_row_last hrow))
  obtain rfl := map_eq_nil_iff.1 hnil
  have hflat : trimLeft (uncomment (condense (' ' :: w))) = uncomment w := by
    rw [condense_eq_self (by simpa using hnewline), uncomment_cons (by decide) (by decide)]
    exact trimLeft_eq_self (head_uncomment hhead)
  obtain ⟨loc, hread⟩ := @readLines_assigned ⟨[], [], false⟩ d [] _ _ _ hname hkey hd
  refine ⟨d.loc, loc, ?_⟩
  rw [parse_eq, hlines, hread, hflat, readLines]
  rfl

/-- **A printed assignment is read as one assignment of the same name with the same mark, and its
value is the same exactly if no hash sign stands after two backslashes in it.** -/
theorem parse_source_assign (hname : IsName name) (hkey : ¬ IsKeyword name)
    (hnewline : '\n' ∉ value)
    (hhead : ∀ c ∈ value.head?, isBlank c = false) (mark : AssignMark) (l : Option Location)
    (valueLoc : Location) (path : Text) :
    ∃ t l' value' loc, source (.assign ⟨.literal name l, mark, value, valueLoc, none, .makefile⟩) =
    .ok t ∧
      (parse t path).outcome =
      (.ok [.assign ⟨.literal name (some l'), mark, value', loc, none, .makefile⟩], []) ∧
      (value' = value ↔ ¬ ['\\', '\\', '#'] <:+: value) := by
  obtain ⟨l', loc, hparse⟩ := parse_assigned hname hkey (newline_not_mem_escapeValue hnewline false)
    (head_escapeValue hhead false) mark path
  exact ⟨_, l', reread value, loc, source_assign hnewline hhead name l mark valueLoc, hparse,
    reread_eq_self_iff value⟩

theorem parse_source_assign_hash : IsName "X_1" ∧ ¬ IsKeyword "X_1" ∧
    ∃ t l' value' loc, source
      (.assign ⟨.literal "X_1" none, .append, "#a\\#\\\\b\\", ⟨"f", 1, 0⟩, none, .makefile⟩) =
        .ok t ∧
      (parse t "f").outcome =
      (.ok [.assign ⟨.literal "X_1" (some l'), .append, value', loc, none, .makefile⟩], []) ∧
      (value' = "#a\\#\\\\b\\" ↔ ¬ ['\\', '\\', '#'] <:+: "#a\\#\\\\b\\") := by
  have hname : IsName "X_1" := by
    unfold IsName
    decide
  exact ⟨hname, by decide, parse_source_assign hname (by decide) (by decide) (by decide) .append
    none ⟨"f", 1, 0⟩ "f"⟩

/-- Two backslashes and a hash sign are printed with four backslashes, and the hash sign begins a
comment. -/
theorem assignment_loses_hash : ∃ t l' loc,
    source (.assign ⟨.literal "X" none, .recursive, "a\\\\#b", ⟨"f", 1, 0⟩, none, .makefile⟩) =
    .ok t ∧
      t = "X = a\\\\\\\\#b" ∧
      (parse t "f").outcome =
      (.ok [.assign ⟨.literal "X" (some l'), .recursive, "a\\\\", loc, none, .makefile⟩], []) := by
  have hname : IsName "X" := by
    unfold IsName
    decide
  obtain ⟨l', loc, hparse⟩ := parse_assigned (w := "a\\\\\\\\#b") hname (by decide) (by decide)
    (by decide) .recursive "f"
  refine ⟨_, l', loc, source_assign (by decide) (by decide) "X" none .recursive ⟨"f", 1, 0⟩,
    by decide, ?_⟩
  rw [show uncomment "a\\\\\\\\#b" = "a\\\\" by decide +kernel] at hparse
  exact hparse

end Statement

end Rebuild
