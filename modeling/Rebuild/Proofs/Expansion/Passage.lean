import Rebuild.Proofs.Expansion.Arguments
import Rebuild.Proofs.Expansion.Substitution
import Rebuild.Proofs.Expansion.Twin
/-!
# Passing through a part of a reference

Inside of a reference, the reader passes over glyphs until it meets a mark that the current part
waits for, outside of parentheses of the kind that the reference is written in. `Passes` says that
it meets none and how many parentheses are open at the end. A token sees one character after the
text that it begins in (`Token.match?_append_congr`), so of a reference inside the part it matters
only that it begins with a dollar sign, and of the text after the part only its first character
(`Passes.congr`).
-/

namespace Rebuild

open List Text Token

namespace Token

variable {c : Char} {s : Text} {t : Token}

/-- No mark holds a blank. -/
theorem isBlank_eq_false_of_mem_text (h : match? s = some t) (hs : s.head? ≠ some '$')
    (hc : c ∈ t.text) :
    isBlank c = false := by
  obtain ⟨n, rfl⟩ | ⟨w, hw, rfl⟩ := hash_or_mark h hs
  · rcases mem_text_hash hc with rfl | rfl <;> decide
  · have hmarks : ∀ w ∈ marks, ∀ c ∈ w, isBlank c = false := by decide
    exact hmarks w hw c hc

end Token

namespace Glyph

variable {b : Brace} {stops : List Text} {y z : Text} {n m k : Nat} {c : Char} {gs hs : List Glyph}
  {r : Reference}

/-- The text of glyphs, with a dollar sign for every reference. -/
def skeleton : List Glyph → Text
  | [] => []
  | .char c :: gs => c :: skeleton gs
  | .ref _ :: gs => '$' :: skeleton gs

@[simp] theorem skeleton_nil : skeleton [] = [] := rfl

@[simp] theorem skeleton_char (c : Char) (gs : List Glyph) :
    skeleton (.char c :: gs) = c :: skeleton gs := rfl

@[simp] theorem skeleton_ref (r : Reference) (gs : List Glyph) :
    skeleton (.ref r :: gs) = '$' :: skeleton gs := rfl

@[simp] theorem skeleton_append (gs hs : List Glyph) :
    skeleton (gs ++ hs) = skeleton gs ++ skeleton hs := by
  induction gs with
  | nil => rfl
  | cons g gs ih => cases g <;> simp [ih]

@[simp] theorem skeleton_ofText (s : Text) : skeleton (ofText s) = s := by
  induction s with
  | nil => rfl
  | cons c s ih => simp [ih]

/-- **The reader passes over glyphs** inside of parentheses `b`, with a text `z` after them: from
`n` open parentheses to `m`, and without meeting one of the `stops` outside of all of them. -/
inductive Passes (b : Brace) (stops : List Text) (z : Text) : Nat → List Glyph → Nat → Prop
  | nil {n : Nat} : Passes b stops z n [] n
  /-- No token begins at the character. -/
  | char {n m : Nat} {c : Char} {gs : List Glyph} (free : match? (c :: (skeleton gs ++ z)) = none)
      (rest : Passes b stops z n gs m) : Passes b stops z n (.char c :: gs) m
  /-- A token that does not matter. -/
  | token {n m : Nat} {t : Token} {gs : List Glyph}
      (found : match? (t.text ++ (skeleton gs ++ z)) = some t)
      (mark : t.isReference = false) (paren : t.text ≠ [b.opening] ∧ t.text ≠ [b.closing])
      (stop : n = 0 → t.text ∉ stops) (rest : Passes b stops z n gs m) : Passes b stops z n
        (ofText t.text ++ gs) m
  /-- A parenthesis is opened. -/
  | opening {n m : Nat} {gs : List Glyph} (rest : Passes b stops z (n + 1) gs m) :
      Passes b stops z n (.char b.opening :: gs) m
  /-- A parenthesis is closed that was opened before. -/
  | closing {n m : Nat} {gs : List Glyph} (rest : Passes b stops z n gs m) :
      Passes b stops z (n + 1) (.char b.closing :: gs) m
  /-- A dollar sign that is text. -/
  | dollar {n m : Nat} {gs : List Glyph} (rest : Passes b stops z n gs m) :
      Passes b stops z n (.char '$' :: gs) m
  | ref {n m : Nat} {r : Reference} {gs : List Glyph} (rest : Passes b stops z n gs m) :
      Passes b stops z n (.ref r :: gs) m

namespace Passes

/-- Glyphs are passed one stretch after the other. -/
theorem append (h : Passes b stops (skeleton hs ++ z) n gs m) (h' : Passes b stops z m hs k) :
    Passes b stops z n (gs ++ hs) k := by
  induction h with
  | nil => exact h'
  | char free _ ih => exact .char (by simpa using free) (ih h')
  | token found mark paren stop _ ih =>
    rw [append_assoc]
    exact .token (by simpa using found) mark paren stop (ih h')
  | opening _ ih => exact .opening (ih h')
  | closing _ ih => exact .closing (ih h')
  | dollar _ ih => exact .dollar (ih h')
  | ref _ ih => exact .ref (ih h')

/-- **Of the text after them, glyphs see one character at most**, if that is no backslash. -/
theorem congr (h : Passes b stops z n gs m) (hz : lookahead z = lookahead y)
    (hslash : lookahead z ≠ some '\\') : Passes b stops y n gs m := by
  induction h with
  | nil => exact .nil
  | @char n m c gs free _ ih =>
    by_cases hc : c = '$'
    · subst hc
      exact .dollar ih
    · refine .char ?_ ih
      rw [← cons_append] at free ⊢
      rw [← match?_append_congr (by simp) (by simpa using hc) hz hslash]
      exact free
  | @token n m t gs found mark paren stop _ ih =>
    refine .token ?_ mark paren stop ih
    have hne := text_ne_nil_of_match? found
    have hhead := head_ne_dollar found mark
    rw [← append_assoc] at found ⊢
    rw [← match?_append_congr (by simp [hne]) ?_ hz hslash]
    · exact found
    · obtain ⟨a, w, hw⟩ := exists_cons_of_ne_nil hne
      simpa [hw] using hhead
  | opening _ ih => exact .opening ih
  | closing _ ih => exact .closing ih
  | dollar _ ih => exact .dollar ih
  | ref _ ih => exact .ref ih

/-! ## Without the blanks at the ends -/

theorem eq_of_nil (h : Passes b stops z n [] m) : n = m := by
  generalize hl : ([] : List Glyph) = l at h
  cases h with
  | nil => rfl
  | token found =>
    have hne := text_ne_nil_of_match? found
    simp [ofText, hne] at hl
  | char | opening | closing | dollar | ref => cases hl

/-- The glyph in front is a blank, so it is passed by itself. -/
theorem of_blank_cons (hc : Text.isBlank c = true) (h : Passes b stops z n (.char c :: gs) m) :
    Passes b stops z n gs m := by
  have hno {x : Char} (hx : Text.isBlank x = false) : x ≠ c := by
    rintro rfl
    simp [hc] at hx
  generalize hl : Glyph.char c :: gs = l at h
  cases h with
  | nil | ref => cases hl
  | char free rest =>
    cases hl
    exact rest
  | token found mark paren stop rest =>
    obtain ⟨x, w, hw⟩ := exists_cons_of_ne_nil (text_ne_nil_of_match? found)
    have hx := isBlank_eq_false_of_mem_text found (head_ne_dollar found mark) (hw ▸ mem_cons_self)
    rw [hw] at hl
    cases hl
    cases hno hx rfl
  | opening | closing | dollar =>
    cases hl
    exact absurd rfl (hno (by first | decide | (cases b <;> decide)))

/-- The last glyph is a blank, so it is passed by itself. -/
theorem of_concat_blank (hc : Text.isBlank c = true) (h : Passes b stops z n (gs ++ [.char c]) m) :
    Passes b stops (c :: z) n gs m := by
  have hno {x : Char} (hx : Text.isBlank x = false) : x ≠ c := by
    rintro rfl
    simp [hc] at hx
  -- a glyph in front that is not the blank stands before it
  have hcons {as l : List Glyph} {g : Glyph} (hl : as ++ [.char c] = g :: l) (hg : g ≠ .char c) :
      ∃ as1, as = g :: as1 ∧ as1 ++ [.char c] = l := by
    rcases append_eq_cons_iff.1 hl with ⟨-, hx⟩ | ⟨as1, has, hl⟩
    · cases hx
      cases hg rfl
    · exact ⟨as1, has, hl.symm⟩
  generalize hl : gs ++ [Glyph.char c] = l at h
  induction h generalizing gs with
  | nil => simp at hl
  | char free rest ih =>
    rcases append_eq_cons_iff.1 hl with ⟨rfl, hx⟩ | ⟨gs1, rfl, rfl⟩
    · cases hx
      rw [rest.eq_of_nil]
      exact .nil
    · exact .char (by simpa using free) (ih rfl)
  | @token n m t gs' found mark paren stop rest ih =>
    have hne : Glyph.char c ∉ ofText t.text := by
      rw [char_mem_ofText]
      intro hmem
      exact hno (isBlank_eq_false_of_mem_text found (head_ne_dollar found mark) hmem) rfl
    have hsplit : ∃ gs1, gs = ofText t.text ++ gs1 ∧ gs' = gs1 ++ [.char c] := by
      rcases append_eq_append_iff.1 hl with ⟨as, has, hgs'⟩ | ⟨bs, hbs, hgs'⟩
      · cases as with
        | nil => exact ⟨[], by simpa using has.symm, by simpa using hgs'.symm⟩
        | cons a as =>
          obtain ⟨rfl, -⟩ := List.cons.inj hgs'
          exact absurd (has ▸ mem_append_right _ mem_cons_self) hne
      · exact ⟨bs, hbs, hgs'⟩
    obtain ⟨gs1, rfl, rfl⟩ := hsplit
    exact .token (by simpa using found) mark paren stop (ih rfl)
  | opening rest ih =>
    obtain ⟨gs1, rfl, hrest⟩ := hcons hl (by simpa using hno (by cases b <;> decide))
    exact .opening (ih hrest)
  | closing rest ih =>
    obtain ⟨gs1, rfl, hrest⟩ := hcons hl (by simpa using hno (by cases b <;> decide))
    exact .closing (ih hrest)
  | dollar rest ih =>
    obtain ⟨gs1, rfl, hrest⟩ := hcons hl (by simpa using hno (by decide))
    exact .dollar (ih hrest)
  | ref rest ih =>
    obtain ⟨gs1, rfl, hrest⟩ := hcons hl nofun
    exact .ref (ih hrest)

theorem dropWhile (h : Passes b stops z n gs m) : Passes b stops z n (gs.dropWhile isBlank) m := by
  induction gs with
  | nil => exact h
  | cons g gs ih =>
    rw [dropWhile_cons]
    split
    · rename_i hg
      cases g with
      | char c => exact ih (of_blank_cons hg h)
      | ref r => cases hg
    · exact h

theorem rdropWhile (h : Passes b stops [] n gs m) :
    Passes b stops [] n (gs.rdropWhile isBlank) m := by
  induction gs using List.reverseRecOn with
  | nil => exact h
  | append_singleton gs g ih =>
    rw [rdropWhile_concat]
    split
    · rename_i hg
      cases g with
      | char c =>
        have hnone : lookahead [c] = none := by
          have hgoings : ∀ x ∈ goings, Text.isBlank x = false := by decide
          have hno : c ∉ goings := fun hmem => by simp [isBlank_char, hgoings c hmem] at hg
          simp [lookahead, hno]
        refine ih ((of_concat_blank hg h).congr hnone ?_)
        rw [hnone]
        exact (Option.some_ne_none _).symm
      | ref r => cases hg
    · exact h

end Passes

end Glyph

end Rebuild
