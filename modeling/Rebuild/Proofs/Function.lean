import Rebuild.Evaluate
import Rebuild.Proofs.Computation
import Rebuild.Proofs.Text
/-!
# Functions of words and of file names

A call of a function of texts has the same value wherever it stands (`Builtin.Yields`). The parts of
a file name make the name again, unless it stands in the root directory or is hidden
(`Builtin.file_names_compose`). Words are selected by their numbers, but a list to a number below
one has its first word (`Builtin.wordlist_selects`).
-/

namespace Rebuild

open List Text

variable {w t : Text} {c : Char} {ws : List Text}

namespace Text

/-- A word: some characters, none of them blank. -/
def IsWord (w : Text) : Prop := w ≠ [] ∧ ∀ c ∈ w, isBlank c = false

instance : DecidablePred IsWord := fun _ => inferInstanceAs (Decidable (_ ∧ _))

theorem IsWord.words (h : IsWord w) : words w = [w] := by
  obtain ⟨hne, hink⟩ := h
  induction w with
  | nil => cases hne rfl
  | cons c s ih =>
    obtain ⟨hc, hs⟩ := forall_mem_cons.1 hink
    rcases s with _ | ⟨d, s⟩
    · simp [Text.words, hc]
    · rw [Text.words, if_neg (by simp [hc])]
      simp [(forall_mem_cons.1 hs).1, ih (by simp) hs]

theorem isWord_of_mem_words (h : w ∈ words t) : IsWord w := by
  fun_induction words t generalizing w with
  | case1 => cases h
  | case2 c t hc ih => exact ih h
  | case3 c hc => simp_all [IsWord]
  | case4 c hc d t hd ih =>
    obtain rfl | h := mem_cons.1 h
    · simp_all [IsWord]
    · exact ih h
  | case5 c hc d t hd hnil ih => simp_all [IsWord]
  | case6 c hc d t hd v vs hcons ih =>
    rw [hcons] at h ih
    obtain rfl | h := mem_cons.1 h
    · obtain ⟨-, hv⟩ := ih (mem_cons_self ..)
      simp_all [IsWord]
    · exact ih (mem_cons_of_mem _ h)

theorem words_unwords (h : ∀ w ∈ ws, IsWord w) : words (unwords ws) = ws := by
  induction ws with
  | nil => rfl
  | cons w ws ih =>
    obtain ⟨hw, hws⟩ := forall_mem_cons.1 h
    rcases ws with _ | ⟨v, ws⟩
    · exact hw.words
    · rw [unwords, join_cons _ _ (by simp), append_assoc, singleton_append,
        words_append_blank (by decide), hw.words, ← unwords, ih hws]
      rfl

end Text

namespace Builtin

/-- A call of the function with these texts has this value, wherever it stands. -/
def Yields (f : Builtin) (args : List Text) (value : Text) : Prop :=
  ∀ b sc setting loc s,
    Gives (Evaluate.reference b sc setting (.call loc f (args.map (.literal · none)))) s value s

variable {g : List Text → Except Error (Text → Except Error Text)}

theorem gives_textual {h : Text → Except Error Text}
    {last value : Text} (hlast : h last = .ok value) (b : Below) (sc : Scope) (setting : List Text)
    (s : Session)
    (past args : List Text) (hg : g (past ++ args) = .ok h) :
    Gives (Evaluate.textual b sc setting g past ((args ++ [last]).map (.literal · none))) s
      value s := by
  induction args generalizing past with
  | nil =>
    rw [append_nil] at hg
    simp [Evaluate.textual, Evaluate.expansion, hg, hlast]
  | cons a args ih =>
    have hrest := ih (past ++ [a]) (by rwa [append_assoc])
    cases args <;> simpa [Evaluate.textual, Evaluate.expansion] using hrest

/-- The value of a function of texts. -/
theorem yields_of_textual {f : Builtin}
    {h : Text → Except Error Text} {last value : Text} (hf : f.textual? = some g) (args : List Text)
    (hg : g args = .ok h) (hlast : h last = .ok value) : Yields f (args ++ [last]) value := by
  intro b sc setting loc s
  rw [Evaluate.reference, hf]
  exact gives_textual hlast b sc setting s [] args hg

/-- The value of a function of words for one word. -/
theorem yields_ofWords {f : Builtin}
    {k : List Text → List Text} (hf : f.textual? = some g) (hg : g [] = .ok (ofWords k))
    (hw : w.IsWord) :
    Yields f [w] (unwords (k [w])) := by
  have h : Yields f [w] (unwords (k w.words)) := yields_of_textual hf [] hg rfl
  rwa [hw.words] at h

end Builtin

/-! ## File names -/

namespace Text

/-- The first character of the text is the only one of its kind. -/
def onlyFirst (c : Char) (s : Text) : Bool := s.head? == some c && !s.tail.contains c

/-- A text is taken apart at the last occurrence of a character, if there is one; that may be its
first character. -/
theorem partitionLast_cases (c : Char) (s : Text) :
    (onlyFirst c s = false ∧ c ∉ s ∧ s.partitionLast [c] = ([], [], s)) ∨
    ∃ a t : Text, s = a ++ c :: t ∧ s.partitionLast [c] = (a, [c], t) ∧
    (onlyFirst c s = true ↔ a = []) := by
  -- That no more of them follow is what the induction needs.
  suffices h : (c ∉ s ∧ cutLast? s [c] = none) ∨ ∃ a t, s = a ++ c :: t ∧ c ∉ t ∧
    cutLast? s [c] = some (a, t) by
    obtain ⟨hs, hcut⟩ | ⟨a, t, rfl, ht, hcut⟩ := h
    · refine .inl ⟨?_, hs, by simp [partitionLast, hcut]⟩
      cases s with
      | nil => rfl
      | cons d s => simp [onlyFirst, Ne.symm (ne_of_not_mem_cons hs)]
    · refine .inr ⟨a, t, rfl, by simp [partitionLast, hcut], ?_⟩
      cases a <;> simp [onlyFirst, ht]
  induction s with
  | nil => simp [cutLast?]
  | cons d s ih =>
    obtain ⟨hs, hcut⟩ | ⟨a, t, rfl, ht, hcut⟩ := ih
    · by_cases hd : d = c
      · exact .inr ⟨[], s, by simp [hd], hs, by simp [cutLast?, hcut, hd]⟩
      · exact .inl ⟨by simp [hs, Ne.symm hd], by simp [cutLast?, hcut, Ne.symm hd]⟩
    · exact .inr ⟨d :: a, t, rfl, ht, by simp [cutLast?, hcut]⟩

end Text

namespace Path

theorem dirAndFile_snd (w default : Text) :
    (dirAndFile w default).2 = (w.partitionLast ['/']).2.2 := by
  unfold dirAndFile
  dsimp only
  split <;> rfl

/-- What a path without the suffix and the suffix make together. -/
theorem baseNames_append_suffixes (w : Text) :
    unwords (baseNames [w]) ++ unwords (suffixes [w]) = (dirAndFile w []).1 ++
      if (dirAndFile w ['.', '/']).2.onlyFirst '.' then [] else (dirAndFile w ['.', '/']).2 := by
  rw [baseNames, suffixes, map_singleton, filterMap_cons, filterMap_nil]
  dsimp only
  rw [dirAndFile_snd, dirAndFile_snd]
  obtain ⟨hfirst, -, hpart⟩ | ⟨a, x, hfile, hpart, hfirst⟩ :=
    Text.partitionLast_cases '.' (w.partitionLast ['/']).2.2
  · simp [hpart, hfirst, Text.unwords, Text.join]
  · cases a <;> simp_all [Text.unwords, Text.join]

/-- The root directory counts as none. -/
theorem dir_append_file_eq_iff (w : Text) :
    (dirAndFile w ['.', '/']).1 ++ (dirAndFile w ['.', '/']).2 =
    (if '/' ∈ w then w else ['.', '/'] ++ w) ↔
      w.onlyFirst '/' = false := by
  unfold dirAndFile
  obtain ⟨hfirst, hw, hpart⟩ | ⟨a, file, hw, hpart, hfirst⟩ := partitionLast_cases '/' w
  · simp [hpart, hw, hfirst]
  · rw [← Bool.not_eq_true, hfirst, hpart]
    cases a <;> simp [hw]

theorem base_append_suffix_eq_iff (hw : w ≠ []) :
    unwords (baseNames [w]) ++ unwords (suffixes [w]) = w ↔
      w.onlyFirst '/' = false ∧ (dirAndFile w ['.', '/']).2.onlyFirst '.' = false := by
  rw [baseNames_append_suffixes]
  unfold dirAndFile
  obtain ⟨hfirst, -, hpart⟩ | ⟨a, file, hwhole, hpart, hfirst⟩ := partitionLast_cases '/' w
  · cases hhidden : w.onlyFirst '.' <;> simp [hpart, hfirst, hhidden, hw.symm]
  · have hne (h : file.onlyFirst '.' = true) : file ≠ [] := by
      rintro rfl
      cases h
    rw [← Bool.not_eq_true, hfirst, hpart]
    cases a <;> cases hhidden : file.onlyFirst '.' <;> simp [hwhole, hhidden, hne]

end Path

/-- **A file name is put together again from its parts, unless it stands in the root directory or is
hidden.** Directory and file give the name, with `./` before one without a slash, if and only if the
name does not start with its only slash. The name without suffix and the suffix give the name if and
only if, moreover, the file does not start with its only dot. -/
theorem Builtin.file_names_compose (w : Text) (hw : w.IsWord) :
    ∃ d n b x, Yields .dir [w] d ∧ Yields .notdir [w] n ∧ Yields .basename [w] b ∧
    Yields .suffix [w] x ∧
      (d ++ n = (if '/' ∈ w then w else ['.', '/'] ++ w) ↔ w.onlyFirst '/' = false) ∧
      (b ++ x = w ↔ w.onlyFirst '/' = false ∧ n.onlyFirst '.' = false) :=
  ⟨_, _, _, _, yields_ofWords rfl rfl hw, yields_ofWords rfl rfl hw, yields_ofWords rfl rfl hw,
    yields_ofWords rfl rfl hw, Path.dir_append_file_eq_iff w, Path.base_append_suffix_eq_iff hw.1⟩

theorem Builtin.file_names_compose_relative :
    Text.IsWord "a.b/c.d.e" ∧ ∃ d n b x, Yields .dir ["a.b/c.d.e"] d ∧
    Yields .notdir ["a.b/c.d.e"] n ∧
      Yields .basename ["a.b/c.d.e"] b ∧ Yields .suffix ["a.b/c.d.e"] x ∧
      d ++ n = "a.b/c.d.e" ∧ (b ++ x = "a.b/c.d.e" ↔ n.onlyFirst '.' = false) := by
  have hw : Text.IsWord "a.b/c.d.e" := by decide
  obtain ⟨d, n, b, x, hd, hn, hb, hx, hdn, hbx⟩ := file_names_compose "a.b/c.d.e" hw
  exact ⟨hw, d, n, b, x, hd, hn, hb, hx, hdn.2 (by decide), hbx.trans (and_iff_right (by decide))⟩

/-- The file `/f` seems to be one of the current directory, `/f.c` loses its slash, and of `.f`
nothing is left. -/
theorem Builtin.root_and_dot_lost :
    (Yields .dir ["/f"] "./" ∧ Yields .notdir ["/f"] "f") ∧
    (Yields .basename ["/f.c"] "f" ∧ Yields .suffix ["/f.c"] ".c") ∧
      Yields .basename [".f"] [] ∧ Yields .suffix [".f"] [] := by
  refine ⟨⟨?_, ?_⟩, ⟨?_, ?_⟩, ?_, ?_⟩
  all_goals exact yields_of_textual rfl [] rfl (by decide +kernel)

/-! ## Whole numbers -/

namespace Text

/-- The decimal digits. -/
def decimals : Text := "0123456789"

theorem decimals_spec : ∀ c ∈ decimals, digitValue? c = some (c.toNat - '0'.toNat) ∧
    c ≠ '_' ∧ c ≠ '-' ∧ c ≠ '+' ∧ isBlank c = false := by
  decide

theorem ofNat_subset (n : Nat) : ofNat n ⊆ decimals := by
  have hdigit : ∀ d < 10, [Nat.digitChar d] ⊆ decimals := by decide
  induction n using Nat.strongRecOn with
  | ind n ih =>
    rw [ofNat, Nat.toDigits_eq_if (by decide)]
    split
    · exact hdigit n ‹_›
    · exact append_subset.2 ⟨ih (n / 10) (by omega), hdigit (n % 10) (by omega)⟩

theorem digitRun?_eq {s : Text} (hne : s ≠ []) (h : s ⊆ decimals) :
    digitRun? digitValue? s = some (s.map (·.toNat - '0'.toNat)) := by
  induction s with
  | nil => cases hne rfl
  | cons c s ih =>
    obtain ⟨hc, hs⟩ := cons_subset.1 h
    cases s with
    | nil => simp [digitRun?, (decimals_spec c hc).1]
    | cons d s =>
      rw [digitRun?, (decimals_spec c hc).1, ih (by simp) hs]
      · rfl
      · simp
      · simp [(decimals_spec d (cons_subset.1 hs).1).2.1]

/-- A natural number is read as it is written. -/
theorem readInt?_ofNat (n : Nat) : readInt? (ofNat n) = some n := by
  have hdigit := fun c hc => (decimals_spec c (ofNat_subset n hc)).2.2
  have htrim : trim (ofNat n) = ofNat n := by
    rw [trim, trimLeft_eq_self fun c hc => (hdigit c (mem_of_head? hc)).2.2,
      trimRight_eq_self fun c hc => (hdigit c (mem_of_getLast? hc)).2.2]
  have hsign : takeSign (ofNat n) = (false, ofNat n) := by
    rcases hs : ofNat n with _ | ⟨c, s⟩
    · rfl
    · have hc := hdigit c (hs ▸ mem_cons_self ..)
      rw [takeSign]
      · simp [hc.1]
      · simp [hc.2.1]
  have hvalue : ofDigitValues 10 ((ofNat n).map (·.toNat - '0'.toNat)) = n := by
    rw [ofDigitValues, foldl_map]
    simp only [Nat.mul_comm _ 10]
    rw [← Nat.ofDigitChars_eq_foldl, ofNat, Nat.ofDigitChars_ten_toDigits]
  rw [readInt?, htrim, hsign]
  dsimp only
  rw [digitRun?_eq (s := ofNat n) Nat.toDigits_ne_nil (ofNat_subset n), Option.bind_eq_bind,
    Option.bind_some, hvalue]
  rfl

end Text

/-! ## Lists of words -/

namespace Function

/-- The numbers from one to another. -/
def numbers (first last : Int) : List Int :=
  (range (last + 1 - first).toNat).map fun k : Nat => first + k

/-- The words of a list are those with the numbers from the first to the last, or to one if that is
more. -/
theorem wordlist_eq_map_word {first : Int} (h : 1 ≤ first) (last : Int) (ws : List Text) :
    wordlist first last ws = (numbers first (min (max last 1) ws.length)).map (word · ws) := by
  apply ext_getElem
  · simp only [wordlist, numbers, length_drop, length_take, length_map, length_range]
    omega
  · intro i h1 h2
    simp only [wordlist, numbers, length_drop, length_take, length_map, length_range] at h1 h2
    simp only [wordlist, numbers, getElem_drop, getElem_take, getElem_map, getElem_range, word]
    rw [if_neg (by omega), getD_eq_getElem?_getD, getElem?_eq_getElem (by omega), Option.getD_some]
    congr 1
    omega

theorem numbers_eq_nil {first last : Int} (h : last < first) : numbers first last = [] := by
  simp [numbers, show (last + 1 - first).toNat = 0 by omega]

/-- The words of a list that the numbers select, unless the list goes to a number below one. -/
theorem wordlist_eq_iff {first : Int} (h : 1 ≤ first) (last : Int) (ws : List Text) :
    wordlist first last ws = (numbers first (min last ws.length)).map (word · ws) ↔
      ¬ (first = 1 ∧ last < 1 ∧ ws ≠ []) := by
  rw [wordlist_eq_map_word h]
  by_cases hlast : 1 ≤ last
  · simp [show max last 1 = last by omega, Int.not_lt.2 hlast]
  · have hlength : ws ≠ [] ↔ 1 ≤ (ws.length : Int) := by
      rw [← length_pos_iff]
      omega
    rw [numbers_eq_nil (by omega : min last ws.length < first), map_nil, map_eq_nil_iff, hlength]
    simp only [numbers, map_eq_nil_iff, range_eq_nil]
    omega

/-- Two lists that meet at a number make the whole list, unless the number is below one. -/
theorem wordlist_append_iff {n : Nat} {ws : List Text} (h : n ≤ ws.length) :
    wordlist 1 n ws ++ wordlist (n + 1) ws.length ws = ws ↔ n ≠ 0 ∨ ws = [] := by
  have hfirst : wordlist 1 n ws = ws.take (max n 1) := by
    simp [wordlist, show (max (n : Int) 1).toNat = max n 1 by omega]
  have hsecond : wordlist (n + 1) ws.length ws = ws.drop n := by
    rw [wordlist, take_of_length_le (by omega)]
    congr 1
    omega
  rw [hfirst, hsecond]
  obtain rfl | hn := Nat.eq_zero_or_pos n
  · simp
  · simp [Nat.max_eq_left hn, hn.ne']

theorem words_unwords_wordlist (first last : Int) (t : Text) :
    (unwords (wordlist first last t.words)).words = wordlist first last t.words :=
  words_unwords fun _ h => isWord_of_mem_words (mem_of_mem_take (mem_of_mem_drop h))

end Function

namespace Builtin

variable {x y : Text} {first last : Int}

theorem yields_wordlist (hx : readInt? x = some first) (hy : readInt? y = some last) (t : Text) :
    Yields .wordlist [x, y, t] (unwords (Function.wordlist first last t.words)) := by
  have hnumbers : Builtin.wordlist.textual?.map (· [x, y]) =
      some (.ok (ofWords (Function.wordlist first last))) := by
    simp only [textual?, Option.map_some, Function.number, hx, hy]
    rfl
  exact yields_of_textual rfl [_, _] (Option.some.inj hnumbers) rfl

theorem yields_word (hx : readInt? x = some first) (t : Text) :
    Yields .word [x, t] (Function.word first t.words) := by
  have hnumber : Builtin.word.textual?.map (· [x]) =
      some (.ok fun s => .ok (Function.word first s.words)) := by
    simp only [textual?, Option.map_some, Function.number, hx]
    rfl
  exact yields_of_textual rfl [_] (Option.some.inj hnumber) rfl

/-- **Words are selected by their numbers, but a list to a number below one has its first word.**
The list of the words from one number to another is the list of the words with these numbers, if and
only if it does not go from one to a number below one. Two lists that meet are the whole, if and
only if they do not meet before the first word. -/
theorem wordlist_selects (t : Text) :
    (∀ x i, Text.readInt? x = some i → Yields .word [x, t] (Function.word i t.words)) ∧
    (∀ x y first last, Text.readInt? x = some first → Text.readInt? y = some last → 1 ≤ first →
      ∃ r, Yields .wordlist [x, y, t] r ∧
        r.words = (Function.numbers first (min (max last 1) t.words.length)).map
          (Function.word · t.words) ∧
        (r.words = (Function.numbers first (min last t.words.length)).map
          (Function.word · t.words) ↔
          ¬ (first = 1 ∧ last < 1 ∧ t.words ≠ []))) ∧
    ∀ n ≤ t.words.length, ∃ m r r', Yields .words [t] m ∧
    Yields .wordlist [.ofNat 1, .ofNat n, t] r ∧
      Yields .wordlist [.ofNat (n + 1), m, t] r' ∧
      (r.words ++ r'.words = t.words ↔ n ≠ 0 ∨ t.words = []) := by
  have hcount : Yields .words [t] (.ofNat t.words.length) := yields_of_textual rfl [] rfl rfl
  refine ⟨fun x i hx => yields_word hx t, fun x y first last hx hy hfirst =>
    ⟨_, yields_wordlist hx hy t, ?_⟩,
    fun n hn => ⟨_, _, _, hcount, yields_wordlist (readInt?_ofNat _) (readInt?_ofNat _) t,
      yields_wordlist (readInt?_ofNat _) (readInt?_ofNat _) t, ?_⟩⟩
  · rw [Function.words_unwords_wordlist]
    exact ⟨Function.wordlist_eq_map_word hfirst last _, Function.wordlist_eq_iff hfirst last _⟩
  · rw [Function.words_unwords_wordlist, Function.words_unwords_wordlist]
    exact Function.wordlist_append_iff hn

theorem wordlist_selects_end :
    ∃ r, Yields .wordlist ["+2", " 9", "a b  c"] r ∧ r.words = ["b", "c"] := by
  obtain ⟨r, hr, hwords, -⟩ :=
    (wordlist_selects "a b  c").2.1 "+2" " 9" 2 9 (by decide +kernel)
      (by decide +kernel) (by decide)
  exact ⟨r, hr, hwords.trans (by decide +kernel)⟩

/-- The list from the first word to the one before it has the first word. -/
theorem list_to_zero_not_empty : Yields .wordlist ["1", "0", "a b"] "a" := by
  have hlist : Text.unwords (Function.wordlist 1 0 (Text.words "a b")) = ("a" : Text) := by
    decide +kernel
  exact hlist ▸ yields_wordlist (by decide +kernel) (by decide +kernel) "a b"

end Builtin

end Rebuild
