import Rebuild.Arguments
import Rebuild.Options
import Rebuild.Proofs.Text
/-!
# Passing assignments on in flags

A make passes its options and the assignments of its command line on in one text. Every word is
escaped there, so that the words can be read back (`flagWords_unwords`). But the text is trimmed
first, and this cuts an escaped blank at its end in two: all comes back unless the last assignment
ends with a blank (`ofFlags_overrides`).
-/

namespace Rebuild

open List Text Arguments

variable {a : Text} {args : List Text}

namespace Arguments

theorem escape_append (s t : Text) : escape (s ++ t) = escape s ++ escape t := by
  simp [escape]

theorem escape_singleton (c : Char) :
    escape [c] = if isBlank c || c == '\\' then ['\\', c] else [c] := by
  rw [escape, flatMap_singleton]

theorem escape_eq_self {s : Text} (h : ∀ c ∈ s, isBlank c = false ∧ c ≠ '\\') : escape s = s := by
  induction s with
  | nil => rfl
  | cons c s ih =>
    have hc := h c mem_cons_self
    have hs := ih fun c hc => h c (mem_cons_of_mem _ hc)
    unfold escape at hs ⊢
    rw [flatMap_cons, hs, if_neg (by simp [hc])]
    rfl

theorem exists_of_mem_equals {s : Text} (h : '=' ∈ s) : ∃ p, s.cutFirst? ['='] = some p := by
  induction s with
  | nil => cases h
  | cons c s ih =>
    rw [cutFirst?]
    split
    · exact ⟨_, rfl⟩
    · rename_i hc
      have hne : '=' ≠ c := by
        rintro rfl
        exact hc (by simp)
      obtain ⟨p, hp⟩ := ih ((mem_cons.1 h).resolve_left hne)
      rw [hp]
      exact ⟨_, rfl⟩

theorem exists_assignment (h : '=' ∈ a) : ∃ p, assignment? a = some p := by
  unfold assignment?
  split
  · exact ⟨_, rfl⟩
  · obtain ⟨⟨name, value⟩, hcut⟩ := exists_of_mem_equals h
    rw [hcut]
    exact ⟨_, rfl⟩

theorem collect_overrides (h : ∀ a ∈ args, '=' ∈ a) (i : Nat) :
    (collect i args).2.2 = args.map escape := by
  induction args generalizing i with
  | nil => rfl
  | cons a args ih =>
    obtain ⟨⟨name, mark, value⟩, ha⟩ := exists_assignment (h a mem_cons_self)
    have hrest := ih (fun a ha => h a (mem_cons_of_mem _ ha)) (i + 1)
    simp only [collect, ha, map_cons, hrest]

/-- **Arguments that all are assignments are passed on as their escaped texts.** -/
theorem parse_overrides (h : ∀ a ∈ args, '=' ∈ a) :
    (parse args).overrides = unwords (args.map escape) := by
  show unwords (collect 0 args).2.2 = _
  rw [collect_overrides h]

end Arguments

namespace Options

open Arguments (escape)

variable {word : Text} {gap : Bool} {c : Char} {ws : List Text} {w : Text}

theorem flagWords_slash (c : Char) (t : Text) :
    flagWords word gap ('\\' :: c :: t) = flagWords (c :: word) false t := by
  rw [flagWords]

theorem flagWords_ink (hb : isBlank c = false) (hs : c ≠ '\\') (t : Text) :
    flagWords word gap (c :: t) = flagWords (c :: word) false t := by
  rw [flagWords, if_neg (by simp [hb])]
  · rintro rfl
    cases hs rfl
  · rintro _ _ rfl
    cases hs rfl

theorem flagWords_space (word t : Text) :
    flagWords word false (' ' :: t) = (do return word.reverse :: (← flagWords [] true t)) := by
  rw [flagWords, if_pos (by decide)]
  · rfl
  · rintro ⟨⟩
  · rintro _ _ ⟨⟩

theorem flagWords_escape (ha : a ≠ []) (t : Text) :
    flagWords word gap (escape a ++ t) = flagWords (a.reverse ++ word) false t := by
  induction a generalizing word gap with
  | nil => cases ha rfl
  | cons c a ih =>
    have hstep : flagWords word gap (escape (c :: a) ++ t) =
        flagWords (c :: word) false (escape a ++ t) := by
      rw [← singleton_append, escape_append, append_assoc]
      cases hc : isBlank c || c == '\\' with
      | true =>
        rw [escape_singleton, if_pos hc]
        exact flagWords_slash c _
      | false =>
        rw [Bool.or_eq_false_iff, beq_eq_false_iff_ne] at hc
        rw [escape_eq_self (by simpa using hc)]
        exact flagWords_ink hc.1 hc.2 _
    rw [hstep]
    cases a with
    | nil => rfl
    | cons b a =>
      rw [ih (by simp), reverse_cons (a := c), append_assoc]
      rfl

/-- **Escaped words are read back**, up to the last, which goes on into the text after them. -/
theorem flagWords_unwords (hws : ∀ v ∈ ws, v ≠ []) (hw : w ≠ []) (t : Text) :
    flagWords [] gap (unwords ((ws ++ [w]).map escape) ++ t) =
      (do return ws ++ (← flagWords w.reverse false t)) := by
  induction ws generalizing gap with
  | nil =>
    rw [nil_append, map_singleton, show unwords [escape w] = escape w from rfl,
      flagWords_escape hw, append_nil]
    cases flagWords w.reverse false t <;> rfl
  | cons v ws ih =>
    have hcons : unwords ((v :: ws ++ [w]).map escape) =
        escape v ++ ' ' :: unwords ((ws ++ [w]).map escape) := by
      rw [cons_append, map_cons]
      unfold unwords
      rw [join_cons _ _ (by simp), append_assoc]
      rfl
    rw [hcons, append_assoc, flagWords_escape (hws v mem_cons_self), cons_append,
      flagWords_space, ih fun v hv => hws v (mem_cons_of_mem _ hv)]
    cases flagWords w.reverse false t <;> simp

theorem flagWords_last (hw : w ≠ []) : flagWords w.reverse false [] = .ok [w] := by
  rw [flagWords]
  simp [hw]

theorem flagWords_cut (word : Text) :
    flagWords word gap ['\\'] = .error (.refused .flagsBackslash none) := by
  rw [flagWords]

/-! ## The option words -/

/-- The letters that are passed on. -/
def letters (o : Options) : Text :=
  (if o.keepGoing then ['k'] else []) ++ (if o.printDir then ['w'] else [])
    ++ (if o.silent then ['s'] else []) ++ (if o.justPrint then ['n'] else [])
    ++ (if o.verbose then ['d'] else [])

/-- The number of jobs as an option, unless it is one. -/
def jobsWords (o : Options) : List Text := if o.jobs = 1 then [] else [['-', 'j'] ++ ofInt o.jobs]

/-- The options that a make below is to read. -/
def passedWords (o : Options) : List Text :=
  (if o.letters = [] then [] else ['-' :: o.letters]) ++ o.jobsWords

variable {o : Options} {n : Int}

theorem mem_letters (h : c ∈ o.letters) : c ∈ ['k', 'w', 's', 'n', 'd'] := by
  simp only [letters, mem_append] at h
  rcases h with (((h | h) | h) | h) | h
  all_goals
    split at h
    · rw [mem_singleton.1 h]
      decide
    · cases h

theorem unwords_append {vs : List Text} (hws : ws ≠ []) (hvs : vs ≠ []) :
    unwords (ws ++ vs) = unwords ws ++ ' ' :: unwords vs := by
  unfold unwords
  induction ws with
  | nil => cases hws rfl
  | cons w ws ih =>
    rw [cons_append, join_cons _ _ (by simp [hvs])]
    cases ws with
    | nil => simp [join]
    | cons v ws => rw [ih (by simp), join_cons _ w (by simp)]; simp

theorem flags_eq (h : o.debugLog = none) : o.flags = unwords (o.letters :: o.jobsWords) := by
  unfold flags
  simp only [h, nil_append]
  unfold jobsWords letters
  by_cases hj : o.jobs = 1
  · simp [hj, unwords, join]
  · simp [hj, unwords, join]

theorem isDigit_of_mem_ofNat {n : Nat} (h : c ∈ ofNat n) : c.isDigit = true :=
  Nat.isDigit_of_mem_toDigits (by decide) (by decide) h

theorem isDigit_of_mem_ofInt (h : c ∈ ofInt n) : c = '-' ∨ c.isDigit = true := by
  cases n with
  | ofNat n => exact .inr (isDigit_of_mem_ofNat h)
  | negSucc n => exact (mem_cons.1 h).imp_right isDigit_of_mem_ofNat

/-- Flags do not refer to variables. -/
theorem dollar_not_mem_flags (h : o.debugLog = none) : '$' ∉ o.flags := by
  have hletters : '$' ∉ o.letters := fun hd => absurd (mem_letters hd) (by decide)
  rw [flags_eq h]
  unfold jobsWords
  split
  · exact hletters
  · intro hd
    simp only [unwords, join, mem_append, hletters, false_or] at hd
    rcases hd with hd | hd | hd
    · exact absurd hd (by decide)
    · exact absurd hd (by decide)
    · exact absurd (isDigit_of_mem_ofInt hd) (by decide)

/-- A word of visible characters without backslashes. -/
def IsPlain (w : Text) : Prop := w ≠ [] ∧ ∀ c ∈ w, isBlank c = false ∧ c ≠ '\\'

theorem plain_of_isDigit (h : c.isDigit = true) : isBlank c = false ∧ c ≠ '\\' := by
  refine ⟨isBlank_eq_false_of_visible (visible_of_isAlphanum ?_), ?_⟩
  · simp [Char.isAlphanum, h]
  · rintro rfl
    cases h

theorem plain_of_mem_ofInt (h : c ∈ ofInt n) : isBlank c = false ∧ c ≠ '\\' := by
  rcases isDigit_of_mem_ofInt h with rfl | h
  · decide
  · exact plain_of_isDigit h

theorem isPlain_jobsWords : ∀ w ∈ o.jobsWords, IsPlain w ∧ w.head? = some '-' := by
  intro w hw
  unfold jobsWords at hw
  split at hw
  · cases hw
  · rw [mem_singleton.1 hw]
    refine ⟨⟨by simp, fun c hc => ?_⟩, rfl⟩
    rcases mem_append.1 hc with hc | hc
    · exact (by decide : ∀ c ∈ ['-', 'j'], isBlank c = false ∧ c ≠ '\\') c hc
    · exact plain_of_mem_ofInt hc

theorem isPlain_letters : ∀ c ∈ '-' :: o.letters, isBlank c = false ∧ c ≠ '\\' := by
  have hall : ∀ c ∈ '-' :: ['k', 'w', 's', 'n', 'd'], isBlank c = false ∧ c ≠ '\\' := by decide
  intro c hc
  exact hall c (mem_cons.2 ((mem_cons.1 hc).imp_right mem_letters))

theorem isPlain_passedWords : ∀ w ∈ o.passedWords ++ [['-', '-']], IsPlain w := by
  intro w hw
  rcases mem_append.1 hw with hw | hw
  · rcases mem_append.1 hw with hw | hw
    · split at hw
      · cases hw
      · rw [mem_singleton.1 hw]
        exact ⟨by simp, isPlain_letters⟩
    · exact (isPlain_jobsWords w hw).1
  · rw [mem_singleton.1 hw]
    exact ⟨by simp, by decide⟩

/-- The words after the letters begin with a hyphen. -/
theorem head?_unwords_jobsWords (t : Text) :
    (unwords (o.jobsWords ++ [['-', '-']]) ++ t).head? = some '-' := by
  unfold jobsWords
  split <;> rfl

theorem isLetter_of_mem_letters (hc : c ∈ o.letters) :
    ('a' ≤ c && c ≤ 'z' || 'A' ≤ c && c ≤ 'Z') = true :=
  (by decide : ∀ c ∈ ['k', 'w', 's', 'n', 'd'], ('a' ≤ c && c ≤ 'z' || 'A' ≤ c && c ≤ 'Z') = true) c
    (mem_letters hc)

theorem startsWithFlags_letters (hl : o.letters ≠ []) (t : Text) :
    startsWithFlags (o.letters ++ ' ' :: t) = true := by
  have hletters : ∀ c ∈ o.letters, ('a' ≤ c && c ≤ 'z' || 'A' ≤ c && c ≤ 'Z') = true := fun c hc =>
    isLetter_of_mem_letters hc
  unfold startsWithFlags
  simp only
  rw [takeWhile_append_of_pos hletters, dropWhile_append_of_pos hletters,
    takeWhile_cons_of_neg (by decide), dropWhile_cons_of_neg (by decide), append_nil]
  have hempty : o.letters.isEmpty = false := by simpa using hl
  rw [hempty]
  rfl

theorem ofFlags_append_blank (hc : isBlank c = true) (s : Text) :
    ofFlags (s ++ [c]) = ofFlags s := by
  unfold ofFlags
  rw [trim_append_blank hc]

/-- **The flags are read as their words**, whatever text without a blank at its end follows. -/
theorem ofFlags_eq (h : o.debugLog = none) {x : Text} (hne : x ≠ [])
    (hx : ∀ c ∈ x.getLast?, isBlank c = false) :
    ofFlags (o.flags ++ " -- " ++ x) =
      flagWords [] false (unwords (o.passedWords ++ [['-', '-']]) ++ ' ' :: x) := by
  have htext : o.flags ++ " -- " ++ x =
      unwords (o.letters :: (o.jobsWords ++ [['-', '-']])) ++ ' ' :: x := by
    rw [flags_eq h, ← cons_append, unwords_append (by simp) (by simp)]
    simp [unwords, join]
  have hcons : unwords (o.letters :: (o.jobsWords ++ [['-', '-']])) =
      o.letters ++ ' ' :: unwords (o.jobsWords ++ [['-', '-']]) :=
    unwords_append (cons_ne_nil o.letters []) (by simp)
  have hlast : ∀ s : Text, ∀ c ∈ (s ++ ' ' :: x).getLast?, isBlank c = false := by
    intro s c hc
    rw [append_cons, getLast?_append, getLast?_eq_some_getLast hne] at hc
    exact hx c (by rw [getLast?_eq_some_getLast hne]; exact hc)
  unfold ofFlags
  by_cases hl : o.letters = []
  · have hhead := @head?_unwords_jobsWords o (' ' :: x)
    have htrim : trim (o.flags ++ " -- " ++ x) =
        unwords (o.jobsWords ++ [['-', '-']]) ++ ' ' :: x := by
      rw [htext, hcons, hl]
      unfold trim
      rw [nil_append, cons_append, trimLeft, dropWhile_cons_of_pos (by decide),
        ← trimLeft, trimLeft_eq_self, trimRight_eq_self (hlast _)]
      intro c hc
      rw [hhead] at hc
      cases hc
      decide
    have hflags : startsWithFlags (unwords (o.jobsWords ++ [['-', '-']]) ++ ' ' :: x) = false := by
      obtain ⟨t, ht⟩ := head?_eq_some_iff.1 hhead
      rw [ht]
      rfl
    simp only [htrim, hflags]
    simp [passedWords, hl]
  · have htrim : trim (o.flags ++ " -- " ++ x) =
        unwords (o.letters :: (o.jobsWords ++ [['-', '-']])) ++ ' ' :: x := by
      rw [htext]
      unfold trim
      rw [trimLeft_eq_self, trimRight_eq_self (hlast _)]
      intro c hc
      rw [hcons] at hc
      obtain ⟨a, t, hat⟩ := exists_cons_of_ne_nil hl
      rw [hat] at hc
      cases hc
      exact (isPlain_letters (o := o) c (by simp [hat])).1
    have hflags : startsWithFlags
        (unwords (o.letters :: (o.jobsWords ++ [['-', '-']])) ++ ' ' :: x) = true := by
      rw [hcons, append_assoc]
      exact startsWithFlags_letters hl _
    have hhyphen : unwords (('-' :: o.letters) :: (o.jobsWords ++ [['-', '-']])) =
        '-' :: unwords (o.letters :: (o.jobsWords ++ [['-', '-']])) := by
      rw [hcons]
      exact unwords_append (cons_ne_nil ('-' :: o.letters) []) (by simp)
    simp only [htrim, hflags]
    simp [passedWords, hl, hhyphen]

/-- The last word of an escaped list, with a blank at its end. -/
theorem unwords_escape_concat (ws : List Text) (w : Text) (c : Char) (hc : isBlank c = true) :
    unwords ((ws ++ [w ++ [c]]).map escape) = unwords ((ws ++ [w]).map escape) ++ ['\\', c] := by
  have hlast : escape (w ++ [c]) = escape w ++ ['\\', c] := by
    rw [escape_append, escape_singleton, if_pos (by simp [hc])]
  cases ws with
  | nil => exact hlast
  | cons v ws =>
    rw [map_append, map_append, unwords_append (by simp) (by simp),
      unwords_append (by simp) (by simp), append_assoc]
    exact congrArg _ (congrArg _ hlast)

theorem getLast?_escape_concat (w : Text) (c : Char) : (escape (w ++ [c])).getLast? = some c := by
  rw [escape_append, getLast?_append, escape_singleton]
  split <;> rfl

theorem getLast?_unwords (ws : List Text) (h : w.getLast? = some c) :
    (unwords (ws ++ [w])).getLast? = some c := by
  cases ws with
  | nil => exact h
  | cons v ws =>
    rw [unwords_append (by simp) (by simp), append_cons, getLast?_append, show unwords [w] =
      w from rfl, h]
    rfl

theorem getLast?_unwords_escape (ws : List Text) (w : Text) (c : Char) :
    (unwords ((ws ++ [w ++ [c]]).map escape)).getLast? = some c := by
  rw [map_append]
  exact getLast?_unwords _ (getLast?_escape_concat w c)

theorem unwords_escape_ne_nil (ws : List Text) (hw : w ≠ []) :
    unwords ((ws ++ [w]).map escape) ≠ [] := by
  rcases eq_nil_or_concat w with rfl | ⟨v, c, rfl⟩
  · cases hw rfl
  · rw [concat_eq_append]
    intro hnil
    have hlast := getLast?_unwords_escape ws v c
    rw [hnil] at hlast
    cases hlast

theorem unwords_passedWords (ws : List Text) (w : Text) :
    unwords (o.passedWords ++ [['-', '-']]) ++ ' ' :: unwords ((ws ++ [w]).map escape) =
      unwords ((o.passedWords ++ ['-', '-'] :: ws ++ [w]).map escape) := by
  have hself : ∀ w ∈ o.passedWords ++ [['-', '-']], escape w = id w := fun w hw =>
    escape_eq_self (isPlain_passedWords w hw).2
  have hplain : (o.passedWords ++ [['-', '-']]).map escape = o.passedWords ++ [['-', '-']] := by
    rw [map_congr_left hself, map_id]
  rw [← unwords_append (by simp) (by simp)]
  conv => lhs; rw [← hplain]
  rw [← map_append]
  simp

/-- **Options and assignments that are passed on come back in order**, unless the last assignment
ends with a blank: then the flags are refused. -/
theorem ofFlags_overrides (h : o.debugLog = none) (hargs : ∀ b ∈ args ++ [a], '=' ∈ b) :
    ofFlags (o.flags ++ " -- " ++ (parse (args ++ [a])).overrides) =
      if (a.getLast?.map isBlank).getD false then .error (.refused .flagsBackslash none)
      else .ok (o.passedWords ++ ['-', '-'] :: (args ++ [a])) := by
  have hne : ∀ b ∈ o.passedWords ++ ['-', '-'] :: args, b ≠ [] := by
    intro b hb
    rw [append_cons] at hb
    rcases mem_append.1 hb with hb | hb
    · exact (isPlain_passedWords b hb).1
    · rintro rfl
      exact absurd (hargs [] (mem_append_left _ hb)) (by simp)
  have ha : '=' ∈ a := hargs a (by simp)
  rw [parse_overrides hargs]
  rcases eq_nil_or_concat a with rfl | ⟨b, c, rfl⟩
  · cases ha
  rw [concat_eq_append] at ha ⊢
  rw [getLast?_concat, Option.map_some, Option.getD_some]
  cases hc : isBlank c with
  | true =>
    have hb : b ≠ [] := by
      rintro rfl
      rw [nil_append, mem_singleton] at ha
      subst ha
      cases hc
    rw [unwords_escape_concat args b c hc,
      show ['\\', c] = ['\\'] ++ [c] from rfl, ← append_assoc, ← append_assoc,
      ofFlags_append_blank hc, append_assoc, ofFlags_eq h (by simp) (by simp; decide),
      ← cons_append, ← append_assoc, unwords_passedWords, flagWords_unwords hne hb,
      flagWords_cut]
    rfl
  | false =>
    have hlast := getLast?_unwords_escape args b c
    have hink : ∀ x ∈ (unwords ((args ++ [b ++ [c]]).map escape)).getLast?, isBlank x = false := by
      rw [hlast]
      rintro _ ⟨⟩
      exact hc
    rw [ofFlags_eq h (unwords_escape_ne_nil args (by simp)) hink, unwords_passedWords,
      ← append_nil (unwords _),
      flagWords_unwords hne (by simp), flagWords_last (by simp)]
    exact congrArg Except.ok (append_assoc _ _ _)

end Options

end Rebuild
