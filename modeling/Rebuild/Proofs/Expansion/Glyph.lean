import Mathlib.Data.List.DropRight
import Rebuild.Proofs.Expansion.Normal
/-!
# Items up to how their texts are cut

The reader gathers a text in pieces, and an expansion joins them again. So lists of items count by
their glyphs, which are single characters and references: putting lists together is putting their
glyphs together, and an expansion depends on the glyphs of its items only (`ofItems_congr`).
-/

namespace Rebuild

open List

/-- A character or a reference. -/
inductive Glyph where
  | char (c : Char)
  | ref (r : Reference)

variable (r : Reference) (gs : List Glyph)

namespace Glyph

/-- The glyph as an item. -/
def item : Glyph → Item
  | .char c => .text [c]
  | .ref r => .ref r

/-- The glyphs of a text. -/
def ofText (s : Text) : List Glyph := s.map .char

@[simp] theorem ofText_nil : ofText [] = [] := rfl

@[simp] theorem ofText_cons (c : Char) (s : Text) : ofText (c :: s) = .char c :: ofText s := rfl

variable (s : Text)

theorem ofText_append (t : Text) : ofText (s ++ t) = ofText s ++ ofText t := map_append

@[simp] theorem char_mem_ofText {c : Char} {s : Text} :
    .char c ∈ ofText s ↔ c ∈ s := by simp [ofText]

@[simp] theorem ref_not_mem_ofText : .ref r ∉ ofText s := by simp [ofText]

/-- Is the glyph a blank? -/
def isBlank : Glyph → Bool
  | .char c => Text.isBlank c
  | .ref _ => false

@[simp] theorem isBlank_char (c : Char) : (char c).isBlank = Text.isBlank c := rfl

@[simp] theorem isBlank_ref : (ref r).isBlank = false := rfl

theorem dropWhile_ofText_append (gs : List Glyph) : (ofText s ++ gs).dropWhile isBlank =
    if Text.trimLeft s = [] then gs.dropWhile isBlank else ofText (Text.trimLeft s) ++ gs := by
  induction s with
  | nil => rfl
  | cons c s ih =>
    rw [ofText_cons, cons_append, dropWhile_cons, isBlank_char]
    by_cases hc : Text.isBlank c = true
    · have hdrop : Text.trimLeft (c :: s) = Text.trimLeft s := dropWhile_cons_of_pos hc
      rw [if_pos hc, hdrop, ← ih]
    · have hdrop : Text.trimLeft (c :: s) = c :: s := dropWhile_cons_of_neg hc
      rw [if_neg hc, hdrop, if_neg (cons_ne_nil _ _), ofText_cons, cons_append]

theorem rdropWhile_append_ofText : (gs ++ ofText s).rdropWhile isBlank =
    if Text.trimRight s = [] then gs.rdropWhile isBlank else gs ++ ofText (Text.trimRight s) := by
  induction s using List.reverseRecOn with
  | nil => simp [Text.trimRight, Text.dropRight]
  | append_singleton s c ih =>
    have htrim : Text.trimRight (s ++ [c]) = if Text.isBlank c =
        true then Text.trimRight s else s ++ [c] :=
      rdropWhile_concat Text.isBlank s c
    have hglyphs : gs ++ ofText (s ++ [c]) = (gs ++ ofText s) ++ [.char c] := by
      simp [ofText_append]
    rw [htrim, hglyphs, rdropWhile_concat, isBlank_char]
    by_cases hc : Text.isBlank c = true
    · rw [if_pos hc, if_pos hc, ih]
    · rw [if_neg hc, if_neg hc, if_neg (by simp), hglyphs]

end Glyph

namespace Item

variable {xs ys zs : List Item} {i : Item} {s t : Text}

/-- The glyphs of a list of items. -/
def glyphs : List Item → List Glyph
  | [] => []
  | .text s :: rest => Glyph.ofText s ++ glyphs rest
  | .ref r :: rest => .ref r :: glyphs rest

@[simp] theorem glyphs_nil : glyphs [] = [] := rfl

@[simp] theorem glyphs_text (s : Text) (xs : List Item) :
    glyphs (.text s :: xs) = Glyph.ofText s ++ glyphs xs := rfl

@[simp] theorem glyphs_ref (xs : List Item) : glyphs (.ref r :: xs) = .ref r :: glyphs xs := rfl

@[simp] theorem glyphs_append (xs ys : List Item) : glyphs (xs ++ ys) = glyphs xs ++ glyphs ys := by
  induction xs with
  | nil => rfl
  | cons i xs ih => cases i <;> simp [ih]

@[simp] theorem glyphs_map_item : glyphs (gs.map Glyph.item) = gs := by
  induction gs with
  | nil => rfl
  | cons g gs ih => cases g <;> simp [Glyph.item, ih]

theorem ref_mem_glyphs {r : Reference} : .ref r ∈ glyphs xs ↔ .ref r ∈ xs := by
  induction xs with
  | nil => simp
  | cons i xs ih => cases i <;> simp [ih]

/-! ## Joining texts -/

theorem merge_cons_congr (h : merge xs = merge ys) (i : Item) :
    merge (i :: xs) = merge (i :: ys) := by
  cases i with
  | ref r => rw [merge, merge, h]
  | text s => rw [merge, merge, h]

theorem merge_append_congr (h : merge xs = merge ys) (zs : List Item) :
    merge (zs ++ xs) = merge (zs ++ ys) := by
  induction zs with
  | nil => exact h
  | cons i zs ih => exact merge_cons_congr ih i

theorem merge_text_nil (xs : List Item) : merge (.text [] :: xs) = merge xs := by
  rw [merge]
  split
  · rename_i hmerge
    rw [hmerge]
    rfl
  · rfl

/-- Where a text is cut does not matter. -/
theorem merge_text_append (s t : Text) (xs : List Item) :
    merge (.text (s ++ t) :: xs) = merge (.text s :: .text t :: xs) := by
  rw [merge, merge, merge]
  rcases merge xs with _ | ⟨_ | _, more⟩
  · cases t with
    | nil => simp
    | cons c t => simp
  · simp
  · cases t with
    | nil => simp
    | cons c t => simp

theorem merge_glyphs (xs : List Item) : merge ((glyphs xs).map Glyph.item) = merge xs := by
  have hchars (s : Text) (ys : List Item) :
      merge ((Glyph.ofText s).map Glyph.item ++ ys) = merge (.text s :: ys) := by
    induction s with
    | nil => exact (merge_text_nil ys).symm
    | cons c s ih =>
      have hstep := merge_cons_congr ih (.text [c])
      rw [← merge_text_append] at hstep
      exact hstep
  induction xs with
  | nil => rfl
  | cons i xs ih =>
    cases i with
    | ref r => exact merge_cons_congr ih (.ref r)
    | text s =>
      rw [glyphs_text, map_append, merge_append_congr ih, hchars]

theorem merge_congr (h : glyphs xs = glyphs ys) : merge xs = merge ys := by
  rw [← merge_glyphs xs, h, merge_glyphs]

@[simp] theorem glyphs_merge (xs : List Item) : glyphs (merge xs) = glyphs xs := by
  induction xs with
  | nil => rfl
  | cons i xs ih =>
    cases i with
    | ref r => rw [merge, glyphs_ref, glyphs_ref, ih]
    | text s =>
      rw [glyphs_text, ← ih, merge]
      split
      · rename_i hmerge
        rw [hmerge, glyphs_text, glyphs_text, Glyph.ofText_append, append_assoc]
      · split
        · rename_i hempty
          rw [List.isEmpty_iff.1 hempty]
          rfl
        · rfl

theorem glyphs_ofText (s : Text) : glyphs (ofText s) = Glyph.ofText s := by
  unfold ofText
  split
  · rename_i hempty
    rw [List.isEmpty_iff.1 hempty]
    rfl
  · simp

/-! ## Trimming -/

theorem glyphs_trimLeft (xs : List Item) :
    glyphs (trimLeft xs) = (glyphs xs).dropWhile Glyph.isBlank := by
  fun_induction trimLeft xs with
  | case1 s rest hnil ih => rw [glyphs_text, Glyph.dropWhile_ofText_append, if_pos hnil, ih]
  | case2 s rest hne => rw [glyphs_text, glyphs_text, Glyph.dropWhile_ofText_append, if_neg hne]
  | case3 items hnot =>
    rcases items with _ | ⟨_ | _, _⟩
    · rfl
    · cases hnot _ _ rfl
    · rfl

theorem glyphs_trimRight (xs : List Item) :
    glyphs (trimRight xs) = (glyphs xs).rdropWhile Glyph.isBlank := by
  have hrev (ys : List Item) : glyphs (trimRightRev ys).reverse =
      (glyphs ys.reverse).rdropWhile Glyph.isBlank := by
    fun_induction trimRightRev ys with
    | case1 s rest hnil ih =>
      rw [reverse_cons, glyphs_append, glyphs_text, glyphs_nil, append_nil,
        Glyph.rdropWhile_append_ofText, if_pos hnil, ih]
    | case2 s rest hne =>
      rw [reverse_cons, reverse_cons, glyphs_append, glyphs_append, glyphs_text,
        glyphs_text, glyphs_nil,
        append_nil, append_nil, Glyph.rdropWhile_append_ofText, if_neg hne]
    | case3 items hnot =>
      rcases items with _ | ⟨_ | r, rest⟩
      · rfl
      · cases hnot _ _ rfl
      · rw [reverse_cons, glyphs_append]
        exact (rdropWhile_concat_neg _ _ (Glyph.ref r) Bool.false_ne_true).symm
  rw [trimRight, hrev, reverse_reverse]

end Item

namespace Expansion

open Item

variable {xs ys : List Item} {e : Expansion}

theorem hasRef_congr (h : glyphs xs = glyphs ys) : hasRef xs = hasRef ys := by
  rw [Bool.eq_iff_iff, hasRef_iff, hasRef_iff]
  simp only [← ref_mem_glyphs, h]

theorem glyphs_eq_ofText (h : hasRef xs = false) : glyphs xs = Glyph.ofText (textOf xs) := by
  induction xs with
  | nil => rfl
  | cons i xs ih =>
    cases i with
    | ref r => simp [hasRef] at h
    | text s =>
      rw [glyphs_text, ih (by simpa [hasRef] using h), ← Glyph.ofText_append]
      rfl

/-- **An expansion depends on the glyphs of its items only.** -/
theorem ofItems_congr (h : glyphs xs = glyphs ys) (l : Option Location) :
    ofItems xs l = ofItems ys l := by
  unfold ofItems
  rw [hasRef_congr h, merge_congr h]
  split
  · rfl
  · rename_i href
    have hys : hasRef ys = false := by simpa using href
    have hxs : hasRef xs = false := (hasRef_congr h).trans hys
    rw [glyphs_eq_ofText hxs, glyphs_eq_ofText hys] at h
    rw [(map_injective_iff.2 fun _ _ => Glyph.char.inj) h]

/-- The glyphs of an expansion. -/
def glyphs (e : Expansion) : List Glyph := Item.glyphs e.items

@[simp] theorem glyphs_ofItems (xs : List Item) (l : Option Location) :
    (ofItems xs l).glyphs = Item.glyphs xs := by
  unfold ofItems
  split
  · exact glyphs_merge xs
  · rename_i href
    rw [glyphs_eq_ofText (by simpa using href)]
    exact glyphs_ofText _

theorem glyphs_trimLeft (e : Expansion) : e.trimLeft.glyphs = e.glyphs.dropWhile Glyph.isBlank := by
  cases e with
  | literal s l =>
    have h := Glyph.dropWhile_ofText_append s []
    rw [append_nil] at h
    unfold glyphs items
    simp only [trimLeft, Item.glyphs_ofText, h]
    split
    · rename_i hnil
      rw [hnil]
      rfl
    · simp
  | sequence xs l => exact Item.glyphs_trimLeft xs

theorem glyphs_trimRight (e : Expansion) :
    e.trimRight.glyphs = e.glyphs.rdropWhile Glyph.isBlank := by
  cases e with
  | literal s l =>
    have h := Glyph.rdropWhile_append_ofText [] s
    rw [nil_append] at h
    unfold glyphs items
    simp only [trimRight, Item.glyphs_ofText, h]
    split
    · rename_i hnil
      rw [hnil]
      rfl
    · simp
  | sequence xs l => exact Item.glyphs_trimRight xs

end Expansion

end Rebuild
