import Rebuild.Text.Blank
import Mathlib.Data.List.Induction
import Mathlib.Data.List.Nodup
import Mathlib.Data.List.TakeWhile
/-!
# Splitting, joining and trimming

Splitting a text at a separator and joining the pieces gives the text back (`join_splitOn`), and
splitting a joined list splits its members (`splitOn_join`). Trimming leaves a text alone whose ends
are not blank. The words of a text are those before a blank in it and those after
(`words_append_blank`).
-/

namespace Rebuild

open List

namespace Text

section Decidable

-- What is said of the characters of a text is decided at these, before trying all characters there
-- are.
variable (p : Char → Prop) [DecidablePred p]

instance decidableForall (s : Text) : Decidable (∀ c ∈ s, p c) := List.decidableBAll p s

instance decidableExists (s : Text) : Decidable (∃ c ∈ s, p c) := List.decidableBEx p s

instance decidableForallOption (o : Option Char) : Decidable (∀ c ∈ o, p c) :=
  Option.decidableForallMem o

end Decidable

variable {s t : Text} {sep c : Char} {ts : List Text} {w u : Text}

theorem splitOn_ne_nil (s : Text) (sep : Char) : s.splitOn sep ≠ [] := by
  unfold splitOn
  cases s with
  | nil => simp [splitBy]
  | cons c s =>
    rw [splitBy]
    split
    · simp
    · split <;> simp

theorem splitOn_cons_sep (s : Text) (sep : Char) :
    splitOn (sep :: s) sep = [] :: s.splitOn sep := by
  simp [splitOn, splitBy]

theorem splitOn_cons (hc : c ≠ sep) {ws : List Text} (h : s.splitOn sep = w :: ws) :
    splitOn (c :: s) sep = (c :: w) :: ws := by
  have hp : (c == sep) = false := by simpa using hc
  unfold splitOn at h ⊢
  rw [splitBy, hp, h]
  rfl

/-- A separator divides the pieces before it from those after it. -/
theorem splitOn_append (s t : Text) (sep : Char) :
    splitOn (s ++ sep :: t) sep = s.splitOn sep ++ t.splitOn sep := by
  induction s with
  | nil => exact splitOn_cons_sep t sep
  | cons c s ih =>
    rw [cons_append]
    by_cases hc : c = sep
    · subst hc
      rw [splitOn_cons_sep, splitOn_cons_sep, ih, cons_append]
    · obtain ⟨w, ws, hs⟩ := exists_cons_of_ne_nil (splitOn_ne_nil s sep)
      have hst : splitOn (s ++ sep :: t) sep = w :: (ws ++ t.splitOn sep) := by
        rw [ih, hs, cons_append]
      rw [splitOn_cons hc hs, splitOn_cons hc hst, cons_append]

theorem splitOn_of_not_mem (h : sep ∉ s) : s.splitOn sep = [s] := by
  induction s with
  | nil => rfl
  | cons c s ih =>
    have hc : c ≠ sep := fun hc => h (hc ▸ mem_cons_self)
    exact splitOn_cons hc (ih fun hs => h (mem_cons_of_mem _ hs))

theorem join_cons (sep s : Text) (hts : ts ≠ []) :
    join sep (s :: ts) = s ++ sep ++ join sep ts := by
  cases ts with
  | nil => cases hts rfl
  | cons t ts => rfl

/-- **The pieces of a text joined are the text.** -/
theorem join_splitOn (s : Text) (sep : Char) : join [sep] (s.splitOn sep) = s := by
  induction s with
  | nil => rfl
  | cons c s ih =>
    by_cases hc : c = sep
    · subst hc
      rw [splitOn_cons_sep, join_cons _ _ (splitOn_ne_nil s c), ih]
      rfl
    · obtain ⟨w, ws, hs⟩ := exists_cons_of_ne_nil (splitOn_ne_nil s sep)
      rw [splitOn_cons hc hs]
      rw [hs] at ih
      cases ws with
      | nil => simpa [join] using ih
      | cons v ws => simpa [join] using ih

/-- **The pieces of joined texts are the pieces of each.** -/
theorem splitOn_join (hts : ts ≠ []) (sep : Char) :
    splitOn (join [sep] ts) sep = ts.flatMap (splitOn · sep) := by
  induction ts with
  | nil => cases hts rfl
  | cons t ts ih =>
    cases ts with
    | nil => simp [join]
    | cons u ts =>
      rw [join_cons _ _ (by simp), append_assoc, singleton_append, splitOn_append, ih (by simp)]
      rfl

theorem join_flatMap_splitOn (ts : List Text) (sep : Char) :
    join [sep] (ts.flatMap (splitOn · sep)) = join [sep] ts := by
  cases ts with
  | nil => rfl
  | cons t ts => rw [← splitOn_join (by simp), join_splitOn]

/-- A character of a text is the separator or stands in a piece. -/
theorem mem_splitOn (hc : c ∈ s) (sep : Char) : c = sep ∨ ∃ w ∈ s.splitOn sep, c ∈ w := by
  induction s with
  | nil => simp at hc
  | cons a s ih =>
    by_cases ha : a = sep
    · subst ha
      rw [splitOn_cons_sep]
      rcases mem_cons.1 hc with rfl | hc
      · exact .inl rfl
      · exact (ih hc).imp_right fun ⟨w, hw, hcw⟩ => ⟨w, mem_cons_of_mem _ hw, hcw⟩
    · obtain ⟨w, ws, hs⟩ := exists_cons_of_ne_nil (splitOn_ne_nil s sep)
      rw [splitOn_cons ha hs]
      rcases mem_cons.1 hc with rfl | hc
      · exact .inr ⟨_, mem_cons_self, mem_cons_self⟩
      · refine (ih hc).imp_right fun ⟨v, hv, hcv⟩ => ?_
        rw [hs] at hv
        rcases mem_cons.1 hv with rfl | hv
        · exact ⟨_, mem_cons_self, mem_cons_of_mem _ hcv⟩
        · exact ⟨v, mem_cons_of_mem _ hv, hcv⟩

/-! ## Blanks -/

theorem isBlank_eq_false_of_visible (h : 33 ≤ c.toNat ∧ c.toNat ≤ 126) : isBlank c = false := by
  simp only [isBlank, inRanges, blankRanges, any_cons, any_nil, Bool.or_false,
    Bool.or_eq_false_iff, Bool.and_eq_false_iff, decide_eq_false_iff_not, Nat.not_le]
  omega

theorem visible_of_isAlphanum (h : c.isAlphanum = true) : 33 ≤ c.toNat ∧ c.toNat ≤ 126 := by
  have hc : c.toNat = c.val.toNat := rfl
  rw [Char.isAlphanum, Bool.or_eq_true] at h
  rcases h with h | h
  · -- a letter is a capital or a small one
    rcases (Bool.or_eq_true ..).mp h with h | h
    · obtain ⟨hle, hge⟩ := of_decide_eq_true h
      have hle : 65 ≤ c.val.toNat := UInt32.le_iff_toNat_le.1 hle
      have hge : c.val.toNat ≤ 90 := UInt32.le_iff_toNat_le.1 hge
      omega
    · obtain ⟨hle, hge⟩ := (Bool.and_eq_true ..).mp h
      have hle : 97 ≤ c.val.toNat := UInt32.le_iff_toNat_le.1 (of_decide_eq_true hle)
      have hge : c.val.toNat ≤ 122 := UInt32.le_iff_toNat_le.1 (of_decide_eq_true hge)
      omega
  · obtain ⟨hle, hge⟩ := Char.isDigit_iff_toNat.1 h
    exact ⟨Nat.le_trans (by decide) hle, Nat.le_trans hge (by decide)⟩

/-! ## Trimming -/

theorem trimLeft_eq_self (h : ∀ c ∈ s.head?, isBlank c = false) : trimLeft s = s := by
  cases s with
  | nil => rfl
  | cons c s => exact dropWhile_cons_of_neg (by simp [h c rfl])

/-- The characters of a kind up to the first one of another kind. -/
theorem takeWhile_append_of_head {p : Char → Bool} (hu : ∀ c ∈ u, p c = true)
    (hs : ∀ c ∈ s.head?, p c = false) : (u ++ s).takeWhile p = u := by
  rw [takeWhile_append_of_pos hu]
  cases s with
  | nil => simp
  | cons c s => simp [hs c rfl]

/-- The blanks of a text up to its first ink. -/
theorem takeWhile_isBlank_append (hu : ∀ c ∈ u, isBlank c = true)
    (hs : ∀ c ∈ s.head?, isBlank c = false) : (u ++ s).takeWhile isBlank = u :=
  takeWhile_append_of_head hu hs

theorem trimRight_eq_self (h : ∀ c ∈ s.getLast?, isBlank c = false) : trimRight s = s := by
  unfold trimRight dropRight
  rw [← head?_reverse] at h
  rw [← trimLeft, trimLeft_eq_self h, reverse_reverse]

theorem trimRight_append_blanks (ht : ∀ c ∈ t, isBlank c = true) (s : Text) :
    trimRight (s ++ t) = trimRight s := by
  unfold trimRight dropRight
  rw [reverse_append, dropWhile_append_of_pos fun c hc => ht c (mem_reverse.1 hc)]

theorem trimRight_append_blank (hc : isBlank c = true) (s : Text) :
    trimRight (s ++ [c]) = trimRight s :=
  trimRight_append_blanks (by simpa using hc) s

theorem trim_append_blank (hc : isBlank c = true) (s : Text) : trim (s ++ [c]) = trim s := by
  unfold trim
  rw [trimLeft, dropWhile_append]
  split
  · rename_i hs
    rw [trimLeft, List.isEmpty_iff.1 hs]
    simp [hc]
  · exact trimRight_append_blank hc _

theorem trimRight_append_ink (hc : isBlank c = false) (s t : Text) :
    trimRight (s ++ c :: t) = s ++ c :: trimRight t := by
  unfold trimRight dropRight
  rw [reverse_append, reverse_cons, append_assoc, dropWhile_append]
  split
  · rename_i ht
    rw [List.isEmpty_iff.1 ht, singleton_append, dropWhile_cons_of_neg (by simp [hc])]
    simp
  · simp

theorem exists_append_trimLeft (s : Text) :
    ∃ u, s = u ++ trimLeft s ∧ (∀ c ∈ u, isBlank c = true) ∧
      ∀ c ∈ (trimLeft s).head?, isBlank c = false := by
  refine ⟨s.takeWhile isBlank, takeWhile_append_dropWhile.symm, ?_, ?_⟩
  · exact fun c hc => mem_takeWhile_imp hc
  · intro c hc
    have hnot := head?_dropWhile_not isBlank s
    rw [show (s.dropWhile isBlank).head? = some c from hc] at hnot
    simpa using hnot

theorem exists_trimRight_append (s : Text) :
    ∃ u, s = trimRight s ++ u ∧ ∀ c ∈ u, isBlank c = true := by
  refine ⟨(s.reverse.takeWhile isBlank).reverse, ?_, fun c hc => ?_⟩
  · unfold trimRight dropRight
    rw [← reverse_append, takeWhile_append_dropWhile, reverse_reverse]
  · exact mem_takeWhile_imp (mem_reverse.1 hc)

/-! ## Words -/

theorem words_cons_blank (hc : isBlank c = true) (s : Text) : words (c :: s) = words s := by
  rw [words.eq_def]
  simp [hc]

theorem words_ne_nil (hc : isBlank c = false) (s : Text) : words (c :: s) ≠ [] := by
  rw [words.eq_def]
  simp only [hc, Bool.false_eq_true, if_false]
  split
  · simp
  · split
    · simp
    · split <;> simp

/-- **A blank divides words.** -/
theorem words_append_blank (hc : isBlank c = true) (s t : Text) :
    words (s ++ c :: t) = words s ++ words t := by
  induction s with
  | nil => exact words_cons_blank hc t
  | cons a s ih =>
    cases ha : isBlank a with
    | true => rw [cons_append, words_cons_blank ha, words_cons_blank ha, ih]
    | false =>
      cases s with
      | nil =>
        rw [singleton_append, words.eq_def, words.eq_def [a]]
        simp [ha, hc, words_cons_blank hc]
      | cons b s =>
        rw [cons_append] at ih
        rw [cons_append, cons_append, words.eq_def, words.eq_def (a :: b :: s)]
        simp only [ha, Bool.false_eq_true, if_false, ih]
        cases hb : isBlank b with
        | true => simp
        | false =>
          obtain ⟨w, ws, hw⟩ := exists_cons_of_ne_nil (words_ne_nil hb s)
          simp [hw]

/-! ## Each member once -/

section Nub

theorem nub_concat {α : Type} [BEq α] (xs : List α) (x : α) :
    nub (xs ++ [x]) = if (nub xs).contains x then nub xs else nub xs ++ [x] := by
  unfold nub
  rw [foldl_append, contains_reverse, foldl_cons, foldl_nil]
  split
  · rfl
  · rw [reverse_cons]

variable {α β : Type} [BEq α] [LawfulBEq α] [BEq β] [LawfulBEq β] {xs : List α} {x : α}

theorem mem_nub : x ∈ nub xs ↔ x ∈ xs := by
  induction xs using List.reverseRecOn with
  | nil => rfl
  | append_singleton xs y ih =>
    rw [nub_concat]
    split
    · rename_i h
      rw [contains_iff_mem] at h
      grind
    · simp [ih]

theorem nodup_nub (xs : List α) : (nub xs).Nodup := by
  induction xs using List.reverseRecOn with
  | nil => exact nodup_nil
  | append_singleton xs y ih =>
    rw [nub_concat]
    split
    · exact ih
    · rename_i h
      rw [contains_iff_mem] at h
      exact nodup_append.2 ⟨ih, by simp, by grind⟩

theorem nub_eq_self (h : xs.Nodup) : nub xs = xs := by
  induction xs using List.reverseRecOn with
  | nil => rfl
  | append_singleton xs y ih =>
    obtain ⟨hxs, -, hy⟩ := nodup_append.1 h
    rw [nub_concat, ih hxs, if_neg]
    rw [contains_iff_mem]
    exact fun hmem => hy y hmem y (mem_singleton_self y) rfl

/-- What is left out once may be left out before a function is applied. -/
theorem nub_map_nub (f : α → β) (xs : List α) : nub ((nub xs).map f) = nub (xs.map f) := by
  induction xs using List.reverseRecOn with
  | nil => rfl
  | append_singleton xs y ih =>
    have hmem : f y ∈ (nub xs).map f ↔ f y ∈ xs.map f := by simp only [mem_map, mem_nub]
    rw [map_append, map_singleton, nub_concat, nub_concat]
    split
    · rename_i h
      rw [contains_iff_mem, mem_nub] at h
      rw [ih, if_pos (by rw [contains_iff_mem, mem_nub]; exact mem_map_of_mem h)]
    · rw [map_append, map_singleton, nub_concat, ih]

theorem nub_map {f : α → β} (h : ∀ x ∈ xs, ∀ y ∈ xs, f x = f y → x = y) :
    nub (xs.map f) = (nub xs).map f := by
  rw [← nub_map_nub, nub_eq_self]
  exact List.Nodup.map_on (fun x hx y hy => h x (mem_nub.1 hx) y (mem_nub.1 hy)) (nodup_nub xs)

end Nub

end Text

end Rebuild
