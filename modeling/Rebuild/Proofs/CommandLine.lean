import Mathlib.Data.List.Basic
import Rebuild.CommandLine
/-!
# Which command lines need no shell

A shell takes each character of a line by what stands before it: quotes, backslashes and comments,
which begin at the start of a word (`Quoting`). A character is active if it means something to the
shell there. Splitting a line stops at the first active character that it sees (`scan_special_iff`).
Two things it does not see: a backquote in double quotes, and what follows a `#` inside a word,
which it takes for a comment. A line that is split into words has no other active character
(`split_active`, `split_misses`).
-/

namespace Rebuild

open List

namespace CommandLine

open Place

/-- What the characters before say of the next one. -/
inductive Quoting where
  /-- Outside of quotes, at the start of a word. -/
  | start
  /-- Outside of quotes, in a word. -/
  | word
  | single
  | double
  /-- After a backslash outside of quotes. -/
  | wordEscape
  /-- After a backslash in double quotes. -/
  | doubleEscape
  | comment
deriving DecidableEq, Repr

variable {q : Quoting} {c : Char} {s : Text}

namespace Quoting

/-- The quoting after a character outside of quotes that begins no comment. -/
def stepWord (c : Char) : Quoting :=
  if c = '\x27' then .single else if c = '\x22' then .double
  else if c = '\\' then .wordEscape
  else if c = ' ' ∨ c = '\t' ∨ c = '\n' then .start else .word

/-- The quoting after one more character. -/
def step : Quoting → Char → Quoting
  | .start, c => if c = '#' then .comment else stepWord c
  | .word, c => stepWord c
  | .single, c => if c = '\x27' then .word else .single
  | .double, c => if c = '\x22' then .word else if c = '\\' then .doubleEscape else .double
  | .wordEscape, _ => .word
  | .doubleEscape, _ => .double
  | .comment, _ => .comment

/-- The quoting after a text. -/
def after (q : Quoting) (s : Text) : Quoting := s.foldl step q

/-- Is the character active? -/
def activates : Quoting → Char → Bool
  | .start, c | .word, c =>
    ['<', '>', '&', '|', ';', '(', ')', '$', '\x60', '~', '\x7b', '\x7d'].contains c
  | .double, c => ['$', '\x60'].contains c
  | _, _ => false

/-- Is the character seen to be active? A backquote in double quotes is not. -/
def sees (q : Quoting) (c : Char) : Bool :=
  q.activates c && !(q == .double && c == '\x60')

/-- The first character of a text that is seen to be active, up to a `#` that is not quoted. -/
def firstSeen (q : Quoting) : Text → Option Char
  | [] => none
  | c :: s =>
    if q.sees c then some c
    else if [start, word].contains q && c == '#' then none
    else firstSeen (q.step c) s

theorem after_comment (s : Text) : comment.after s = .comment := by
  induction s with
  | nil => rfl
  | cons c s ih => exact ih

/-- What is seen to be active is so. -/
theorem exists_of_firstSeen (h : q.firstSeen s = some c) :
    ∃ s₁ s₂, s = s₁ ++ c :: s₂ ∧ (q.after s₁).activates c = true := by
  induction s generalizing q with
  | nil => cases h
  | cons a s ih =>
    rw [firstSeen] at h
    split at h
    · rename_i hsees
      cases h
      exact ⟨[], s, rfl, (Bool.and_eq_true_iff.1 hsees).1⟩
    · split at h
      · cases h
      · obtain ⟨s₁, s₂, rfl, hactive⟩ := ih h
        exact ⟨a :: s₁, s₂, rfl, hactive⟩

/-- Where nothing is seen to be active, only a backquote in double quotes is, or what follows a `#`
in a word. -/
theorem missed_of_firstSeen {s₁ s₂ : Text} (h : q.firstSeen (s₁ ++ c :: s₂) = none)
    (hc : (q.after s₁).activates c = true) :
    (c = '\x60' ∧ q.after s₁ = .double) ∨ ∃ u v, s₁ = u ++ '#' :: v ∧ q.after u = .word := by
  induction s₁ generalizing q with
  | nil =>
    rw [nil_append, firstSeen] at h
    split at h
    · cases h
    · rename_i hsees
      have hactive : q.activates c = true := hc
      simp only [sees, hactive, Bool.true_and, Bool.not_eq_true', Bool.not_eq_false,
        Bool.and_eq_true, beq_iff_eq] at hsees
      exact .inl ⟨hsees.2, hsees.1⟩
  | cons a s₁ ih =>
    rw [cons_append, firstSeen] at h
    split at h
    · cases h
    · split at h
      · -- a `#` at the start of a word is a comment for a shell as well
        rename_i hhash
        obtain ⟨hplain, rfl⟩ : q ∈ [start, word] ∧ a = '#' := by simpa using hhash
        rcases mem_cons.1 hplain with rfl | hword
        · rw [show start.after ('#' :: s₁) = .comment from after_comment s₁] at hc
          cases hc
        · exact .inr ⟨[], s₁, rfl, mem_singleton.1 hword⟩
      · rcases ih h hc with hback | ⟨u, v, rfl, hu⟩
        · exact .inl hback
        · exact .inr ⟨a :: u, v, rfl, hu⟩

/-- Up to a `#` it does not matter whether a word has begun. -/
theorem firstSeen_start (s : Text) : start.firstSeen s = word.firstSeen s := by
  cases s with
  | nil => rfl
  | cons c s =>
    by_cases hc : c = '#'
    · subst hc
      rfl
    · have hstep : start.step c = word.step c := if_neg hc
      simp only [firstSeen, hstep]
      rfl

end Quoting

open Quoting

/-- The quoting at a place of a scan. -/
def Place.quoting : Place → Quoting
  | .plain => .word
  | .single => .single
  | .double _ => .double

theorem sees_word (c : Char) : word.sees c = isSpecial c := by
  have hplain : word.sees c = word.activates c := Bool.and_true _
  rw [hplain, Bool.eq_iff_iff]
  simp only [isSpecial, activates, contains_iff_mem]
  exact (by decide : List.Perm _ "<>&|\x60~()\x7b\x7d$;".toList).mem_iff

theorem firstSeen_of_quiet (h : q.sees c = false)
    (hhash : ([start, word].contains q && c == '#') = false) :
    q.firstSeen (c :: s) = (q.step c).firstSeen s := by
  rw [firstSeen, if_neg (by simp [h]), if_neg (by rw [hhash]; decide)]

theorem firstSeen_of_seen (h : q.sees c = true) : q.firstSeen (c :: s) = some c := by
  rw [firstSeen, if_pos h]

/-- Outside of quotes and escapes, a character without a meaning of its own is passed over. -/
theorem firstSeen_word (hs : isSpecial c = false) (hc : c ∉ ['\x27', '\x22', '#', '\\']) :
    word.firstSeen (c :: s) = word.firstSeen s := by
  simp only [mem_cons, not_mem_nil, or_false, not_or] at hc
  rw [firstSeen_of_quiet (by rw [sees_word, hs]) (by simp [hc])]
  simp only [step, stepWord, hc, if_false]
  split
  · exact firstSeen_start s
  · rfl

theorem isSpecial_of_isGap (h : isGap c = true) :
    isSpecial c = false ∧ c ∉ ['\x27', '\x22', '#', '\\'] := by
  simp only [isGap, Bool.or_eq_true, beq_iff_eq] at h
  rcases h with ((rfl | rfl) | rfl) | rfl <;> decide

/-- In double quotes, all but the closing quote, the dollar sign and the backslash is passed
over. -/
theorem firstSeen_double (hc : c ∉ ['\x22', '$', '\\']) :
    double.firstSeen (c :: s) = double.firstSeen s := by
  simp only [mem_cons, not_mem_nil, or_false, not_or] at hc
  have hsees : double.sees c = false := by
    by_cases hback : c = '\x60'
    · subst hback
      rfl
    · simp [sees, activates, hc, hback]
  rw [firstSeen_of_quiet hsees rfl]
  simp [step, hc]

theorem firstSeen_hash : word.firstSeen ('#' :: s) = none := rfl

/-- **A scan stops for a shell exactly at the first character that it sees to be active.** -/
theorem scan_special_iff (place : Place) (begun : Option Word) (s : Text) (c : Char) :
    scan place begun s = .error (.special c) ↔ place.quoting.firstSeen s = some c := by
  fun_induction scan place begun s with
  | case1 | case2 | case3 | case4 => simp [firstSeen]
  | case5 x s hgap w ih =>
    have hgap := isSpecial_of_isGap hgap
    rw [quoting, firstSeen_word hgap.1 hgap.2, ← quoting, ← ih]
    cases scan .plain none s <;> simp [bind, Except.bind, pure, Except.pure]
  | case6 x s hgap ih =>
    have hgap := isSpecial_of_isGap hgap
    rw [ih, quoting, firstSeen_word hgap.1 hgap.2]
  | case7 begun x s _ hx ih =>
    rw [ih, eq_of_beq hx]
    rfl
  | case8 begun x s _ _ hx ih =>
    rw [ih, eq_of_beq hx]
    rfl
  | case9 x s _ _ _ hx w =>
    rw [eq_of_beq hx, quoting, firstSeen_hash]
    simp
  | case10 x s _ _ _ hx =>
    rw [eq_of_beq hx, quoting, firstSeen_hash]
    simp
  | case11 begun x s _ _ _ _ hx =>
    rw [quoting, firstSeen_of_seen (by rw [sees_word, hx])]
    simp
  | case12 begun x _ _ _ _ _ hx d s ih =>
    rw [ih, eq_of_beq hx]
    rfl
  | case13 begun x _ _ _ _ _ hx ih =>
    rw [ih, eq_of_beq hx]
    rfl
  | case14 begun x s _ h1 h2 h3 h4 h5 _ ih =>
    rw [ih, quoting, firstSeen_word (by simpa using h4) (by simp_all)]
  | case15 begun x s _ h1 h2 h3 h4 h5 _ ih =>
    rw [ih, quoting, firstSeen_word (by simpa using h4) (by simp_all)]
  | case16 begun x s hx ih =>
    rw [ih, eq_of_beq hx]
    rfl
  | case17 begun x s hx ih =>
    rw [ih, quoting, firstSeen_of_quiet rfl rfl, step, if_neg (by simpa using hx)]
  | case18 begun open? x s hx ih =>
    rw [ih, eq_of_beq hx]
    rfl
  | case19 begun open? x s _ hx =>
    rw [eq_of_beq hx, quoting, firstSeen_of_seen rfl]
    simp
  | case20 begun open? x _ _ hx d s _ ih =>
    rw [ih, eq_of_beq hx]
    rfl
  | case21 begun open? x _ _ hx d s _ ih =>
    rw [ih, eq_of_beq hx]
    rfl
  | case22 begun open? x _ _ hx =>
    rw [eq_of_beq hx]
    simp [quoting, firstSeen, sees, activates]
  | case23 begun open? x s h1 h2 h3 ih =>
    rw [ih, quoting, quoting, firstSeen_double (by simp_all)]

/-- Words without wildcards stand for themselves, whatever files there are. -/
theorem split_of_words {fs : Files} {here line cwd : Text} {ws : List Word}
    (h : words line = .ok ws) (hmagic : ∀ w ∈ ws, w.magic = false)
    (hfirst : ∀ w ∈ ws.head?, '=' ∉ w.text) :
    split fs here line cwd = .ok (.argv (ws.map Word.text)) := by
  have hexpand : (ws.flatMap fun w => w.expand fs here cwd) = ws.map Word.text := by
    rw [map_eq_flatMap]
    exact flatMap_congr fun w hw => by simp [Word.expand, hmagic w hw]
  have hplain : ((ws.map Word.text).headD []).contains '=' = false := by
    cases ws with
    | nil => rfl
    | cons w ws => simpa using hfirst w rfl
  simp only [split, h, hexpand, hplain]
  rfl

/-- Files in which nothing is found. -/
def Sample.noFiles : Files := ⟨[], .ofInt 0, .ofInt 0⟩

end CommandLine

end Rebuild
