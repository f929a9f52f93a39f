import Mathlib.Data.List.Chain
import Rebuild.Expansion.Inspect
import Rebuild.Proofs.Expansion.Sound
/-!
# Normal forms

An expansion is tidy if it is a literal, or a sequence that has a reference, no empty text and no
two texts side by side; it is in normal form if it and every expansion inside it are tidy
(`Normal`). What is put together from items whose references are in normal form is in normal form
(`normal_ofItems`), and it stays so when blanks are cut off at its ends (`Normal.trimLeft?`,
`Normal.trimRight?`).
-/

namespace Rebuild

open List

namespace Item

variable {xs : List Item} {s t : Text}

/-- Is the item a text? -/
def isText : Item → Bool
  | .text _ => true
  | .ref _ => false

/-- Two items that may stand side by side in a normal form: they are not both texts. -/
def Apart (i j : Item) : Prop := ¬ (i.isText = true ∧ j.isText = true)

/-- No text is empty, and no two texts stand side by side. -/
structure Separate (xs : List Item) : Prop where
  ink : ∀ s, .text s ∈ xs → s ≠ []
  apart : xs.IsChain Apart

theorem Separate.tail {i : Item} (h : Separate (i :: xs)) : Separate xs where
  ink s hs := h.ink s (mem_cons_of_mem _ hs)
  apart := h.apart.tail

/-- Whether a text can stand in front does not depend on its characters. -/
theorem Separate.replace_head (h : Separate (.text s :: xs)) (ht : t ≠ []) :
    Separate (.text t :: xs) where
  ink u hu := by
    rcases mem_cons.1 hu with hu | hu
    · cases hu
      exact ht
    · exact h.ink u (mem_cons_of_mem _ hu)
  apart := by
    have happart := h.apart
    rw [isChain_cons] at happart ⊢
    exact happart

theorem Separate.cons_text (h : Separate xs) (hs : s ≠ [])
    (hhead : ∀ i ∈ xs.head?, i.isText = false) :
    Separate (.text s :: xs) where
  ink u hu := by
    rcases mem_cons.1 hu with hu | hu
    · cases hu
      exact hs
    · exact h.ink u hu
  apart := by
    rw [isChain_cons]
    refine ⟨fun i hi hboth => ?_, h.apart⟩
    rw [hhead i hi] at hboth
    cases hboth.2

theorem Separate.cons_ref (h : Separate xs) (r : Reference) : Separate (.ref r :: xs) where
  ink s hs := by
    rcases mem_cons.1 hs with hs | hs
    · cases hs
    · exact h.ink s hs
  apart := by
    rw [isChain_cons]
    exact ⟨fun _ _ hboth => Bool.false_ne_true hboth.1, h.apart⟩

theorem Separate.reverse (h : Separate xs) : Separate xs.reverse where
  ink s hs := h.ink s (mem_reverse.1 hs)
  apart := by
    rw [isChain_reverse]
    exact h.apart.imp fun i j hij hji => hij ⟨hji.2, hji.1⟩

/-- **Joining neighbouring texts leaves no two of them side by side.** -/
theorem separate_merge (xs : List Item) : Separate (merge xs) := by
  fun_induction merge xs with
  | case1 => exact ⟨nofun, .nil⟩
  | case2 r rest ih => exact ih.cons_ref r
  | case3 s rest t more hmerge ih =>
    rw [hmerge] at ih
    have ht : t ≠ [] := ih.ink t mem_cons_self
    exact ih.replace_head (by simp [ht])
  | case4 s rest hempty hnot ih => exact ih
  | case5 s rest hempty hnot ih =>
    refine ih.cons_text (by simpa using hempty) ?_
    intro i hi
    cases i with
    | ref r => rfl
    | text t =>
      obtain ⟨more, hmore⟩ := head?_eq_some_iff.1 hi
      exact absurd hmore (hnot t more)

theorem Separate.trimLeft (h : Separate xs) : Separate (trimLeft xs) := by
  fun_induction Item.trimLeft xs with
  | case1 s rest hnil ih => exact ih h.tail
  | case2 s rest hne => exact h.replace_head hne
  | case3 => exact h

theorem Separate.trimRightRev (h : Separate xs) : Separate (trimRightRev xs) := by
  fun_induction Item.trimRightRev xs with
  | case1 s rest hnil ih => exact ih h.tail
  | case2 s rest hne => exact h.replace_head hne
  | case3 => exact h

theorem Separate.trimRight (h : Separate xs) :
    Separate (trimRight xs) := h.reverse.trimRightRev.reverse

end Item

/-- A literal, or a sequence that has a reference, no empty text and no two texts side by side. -/
def Expansion.Tidy : Expansion → Prop
  | .literal _ _ => True
  | .sequence xs _ => Item.hasRef xs = true ∧ Item.Separate xs

/-- Every expansion inside the reference is tidy. -/
def Reference.Normal (r : Reference) : Prop := ∀ e, .expansion e ∈ r.parts → e.Tidy

namespace Expansion

variable {xs ys : List Item} {e : Expansion} {loc : Option Location} {args : List Expansion}

/-- The expansion and every expansion inside it are tidy. -/
def Normal (e : Expansion) : Prop := e.Tidy ∧ ∀ e', .expansion e' ∈ partsInside e → e'.Tidy

/-- The references among the items are in normal form. -/
def NormalItems (xs : List Item) : Prop := ∀ r, .ref r ∈ xs → r.Normal

/-! ## Parts -/

theorem mem_partsItems :
    .expansion e ∈ partsItems xs ↔ ∃ r, .ref r ∈ xs ∧ .expansion e ∈ r.parts := by
  induction xs with
  | nil => simp [partsItems]
  | cons i xs ih =>
    cases i with
    | text s => simp [partsItems, ih]
    | ref r => simp [partsItems, ih, or_and_right, exists_or]

theorem mem_partsArgs :
    .expansion e ∈ partsArgs args ↔ ∃ a ∈ args, e = a ∨ .expansion e ∈ partsInside a := by
  induction args with
  | nil => simp [partsArgs]
  | cons a args ih => simp [partsArgs, ih, or_assoc]

theorem normal_sequence :
    Normal (.sequence xs loc) ↔ (Item.hasRef xs = true ∧ Item.Separate xs) ∧ NormalItems xs := by
  unfold Normal NormalItems Reference.Normal
  rw [partsInside]
  constructor
  · rintro ⟨htidy, hinside⟩
    exact ⟨htidy, fun r hr e he => hinside e (mem_partsItems.2 ⟨r, hr, he⟩)⟩
  · rintro ⟨htidy, hrefs⟩
    refine ⟨htidy, fun e he => ?_⟩
    obtain ⟨r, hr, he⟩ := mem_partsItems.1 he
    exact hrefs r hr e he

theorem normal_literal (s : Text) (loc : Option Location) : Normal (.literal s loc) :=
  ⟨trivial, fun _ he => by simp [partsInside] at he⟩

theorem normal_variable : Reference.Normal (.variable loc e) ↔ e.Normal := by
  unfold Reference.Normal Normal
  simp [Reference.parts]

theorem normal_substitution {p r : Expansion} :
    Reference.Normal (.substitution loc e p r) ↔ e.Normal ∧ p.Normal ∧ r.Normal := by
  unfold Reference.Normal Normal
  simp only [Reference.parts, cons_append, mem_cons, mem_append, Part.expansion.injEq]
  grind

theorem normal_call {fn : Builtin} :
    Reference.Normal (.call loc fn args) ↔ ∀ e ∈ args, e.Normal := by
  unfold Reference.Normal Normal
  rw [Reference.parts]
  simp only [mem_partsArgs]
  grind

/-! ## Lists of items -/

theorem normalItems_nil : NormalItems [] := nofun

theorem normalItems_append : NormalItems (xs ++ ys) ↔ NormalItems xs ∧ NormalItems ys := by
  simp only [NormalItems, mem_append, or_imp, forall_and]

theorem NormalItems.cons_text (h : NormalItems xs) (s : Text) : NormalItems (.text s :: xs) := by
  intro r hr
  rcases mem_cons.1 hr with hr | hr
  · cases hr
  · exact h r hr

theorem NormalItems.cons_ref (h : NormalItems xs) {r : Reference} (hr : r.Normal) :
    NormalItems (.ref r :: xs) := by
  intro r' hr'
  rcases mem_cons.1 hr' with hr' | hr'
  · cases hr'
    exact hr
  · exact h r' hr'

/-- **What is put together from items in normal form is in normal form.** -/
theorem normal_ofItems (h : NormalItems xs) (loc : Option Location) : (ofItems xs loc).Normal := by
  unfold ofItems
  split
  · rename_i href
    obtain ⟨r, hr⟩ := hasRef_iff.1 href
    refine normal_sequence.2 ⟨⟨hasRef_iff.2 ⟨r, ref_mem_merge.2 hr⟩, Item.separate_merge xs⟩, ?_⟩
    exact fun r hr => h r (ref_mem_merge.1 hr)
  · exact normal_literal _ _

/-! ## Trimming -/

theorem Normal.trimmed (h : e.Normal) : e.trimmed = .ok e := by
  rcases e with ⟨s, l⟩ | ⟨_ | ⟨i, xs⟩, l⟩
  · rfl
  · cases h.1.1
  · rfl

theorem Normal.trimLeft (h : e.Normal) : e.trimLeft.Normal := by
  cases e with
  | literal s l => exact normal_literal _ _
  | sequence xs l =>
    obtain ⟨⟨href, hseparate⟩, hrefs⟩ := normal_sequence.1 h
    obtain ⟨r, hr⟩ := hasRef_iff.1 href
    refine normal_sequence.2 ⟨⟨hasRef_iff.2 ⟨r, ref_mem_trimLeft.2 hr⟩, hseparate.trimLeft⟩, ?_⟩
    exact fun r hr => hrefs r (ref_mem_trimLeft.1 hr)

theorem Normal.trimRight (h : e.Normal) : e.trimRight.Normal := by
  cases e with
  | literal s l => exact normal_literal _ _
  | sequence xs l =>
    obtain ⟨⟨href, hseparate⟩, hrefs⟩ := normal_sequence.1 h
    obtain ⟨r, hr⟩ := hasRef_iff.1 href
    refine normal_sequence.2 ⟨⟨hasRef_iff.2 ⟨r, ref_mem_trimRight.2 hr⟩, hseparate.trimRight⟩, ?_⟩
    exact fun r hr => hrefs r (ref_mem_trimRight.1 hr)

/-- **A normal form can be trimmed**, to its trimmed items. -/
theorem Normal.trimLeft? (h : e.Normal) : e.trimLeft? = .ok e.trimLeft := h.trimLeft.trimmed

theorem Normal.trimRight? (h : e.Normal) : e.trimRight? = .ok e.trimRight := h.trimRight.trimmed

end Expansion

end Rebuild
