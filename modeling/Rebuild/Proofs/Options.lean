import Rebuild.Proofs.Overrides
import Rebuild.World
import Mathlib.Data.List.Basic
/-!
# Passing a dry run on in flags

The letters of the options stand in front of the flags that a make passes on, and what follows them
begins with a blank (`Passes`). A make below reads them as its first word, whatever becomes of the
text after them (`exists_ofFlags`). Nothing that is read later takes back that commands are only
printed, so a make below a dry run is one (`Reads.dry`).
-/

namespace Rebuild

open List

namespace Options

variable {o o' : Options} {v : Text} {words args rest rest' : List Text} {s : Text} {env : Env}

/-! ## What is asked for is not taken back -/

theorem bind_eq_ok {ε α β : Type} {x : Except ε α} {f : α → Except ε β} {b : β} :
    x >>= f = .ok b ↔ ∃ a, x = .ok a ∧ f a = .ok b := by
  cases x <;> simp [bind, Except.bind]

theorem set_dry {s : Switch} {name value : Text} (h : o.set s name value = .ok o')
    (hp : s = .justPrint ∨ o.justPrint = true) : o'.justPrint = true := by
  cases s with
  | justPrint =>
    cases h
    rfl
  | jobs =>
    simp only [set] at h
    split at h
    · cases h
      simpa using hp
    · cases h
  | _ =>
    cases h
    simpa using hp

theorem readLong_dry {word : Text} (h : o.readLong word rest = .ok (o', rest'))
    (hp : o.justPrint = true) : o'.justPrint = true := by
  have hset {s : Switch} {name value : Text} {rest : List Text}
      (h : (do return (← o.set s name value, rest)) = Except.ok (o', rest')) : o'.justPrint =
      true := by
    obtain ⟨o1, hset, h⟩ := bind_eq_ok.1 h
    cases h
    exact set_dry hset (.inr hp)
  unfold readLong at h
  generalize word.partition ['='] = parts at h
  obtain ⟨⟨name, s⟩, -, h⟩ := bind_eq_ok.1 h
  dsimp only at h
  split at h
  · split at h
    · exact hset h
    · split at h
      · exact hset h
      · cases h
  · split at h
    · cases h
    · exact hset h

theorem readShorts_dry (h : o.readShorts s rest = .ok (o', rest')) (hp : o.justPrint = true) :
    o'.justPrint = true := by
  induction s generalizing o with
  | nil =>
    cases h
    exact hp
  | cons c more ih =>
    rw [readShorts] at h
    split at h
    · cases h
    · split at h
      · split at h
        · cases h
        · obtain ⟨o1, hset, h⟩ := bind_eq_ok.1 h
          cases h
          exact set_dry hset (.inr hp)
        · obtain ⟨o1, hset, h⟩ := bind_eq_ok.1 h
          cases h
          exact set_dry hset (.inr hp)
      · obtain ⟨o1, hset, h⟩ := bind_eq_ok.1 h
        exact ih h (set_dry hset (.inr hp))

theorem readTo_dry {fuel : Nat} (h : readTo fuel o words = .ok (o', args))
    (hp : o.justPrint = true) :
    o'.justPrint = true := by
  fun_induction readTo fuel o words generalizing args with
  | case1 | case2 | case3 =>
    cases h
    exact hp
  | case4 o fuel rest more _ ih =>
    obtain ⟨⟨o1, rest1⟩, hlong, h⟩ := bind_eq_ok.1 h
    exact ih o1 rest1 h (readLong_dry hlong hp)
  | case5 o fuel rest c more _ _ ih =>
    obtain ⟨⟨o1, rest1⟩, hshorts, h⟩ := bind_eq_ok.1 h
    exact ih o1 rest1 h (readShorts_dry hshorts hp)
  | case6 o fuel word rest _ _ _ ih =>
    obtain ⟨⟨o1, args1⟩, hrest, h⟩ := bind_eq_ok.1 h
    cases h
    exact ih hrest hp

/-- Letters that ask for no value and for commands to be printed only. -/
theorem readShorts_letters (hs : ∀ c ∈ s, c ∈ ['k', 'w', 's', 'n', 'd']) (hn : 'n' ∈ s)
    (h : o.readShorts s rest = .ok (o', rest')) : o'.justPrint = true := by
  have hplain : ∀ c ∈ ['k', 'w', 's', 'n', 'd'],
      (Switch.shorts.lookup c).any (fun s => !s.takesValue) = true := by
    decide
  induction s generalizing o with
  | nil => cases hn
  | cons c more ih =>
    obtain ⟨switch, hswitch, hvalue⟩ := (Option.any_eq_true _ _).1 (hplain c (hs c mem_cons_self))
    rw [readShorts, hswitch] at h
    dsimp only at h
    rw [if_neg (by simpa using hvalue)] at h
    obtain ⟨o1, hset, hmore⟩ := bind_eq_ok.1 h
    rcases mem_cons.1 hn with rfl | hn
    · have hswitch : switch = .justPrint := (Option.some.inj hswitch).symm
      exact readShorts_dry hmore (set_dry hset (.inl hswitch))
    · exact ih (fun c hc => hs c (mem_cons_of_mem _ hc)) hn hmore

/-- A first word of such letters asks for a dry run. -/
theorem read_letters (hs : ∀ c ∈ s, c ∈ ['k', 'w', 's', 'n', 'd']) (hn : 'n' ∈ s)
    (h : o.read (('-' :: s) :: rest) = .ok (o', args)) : o'.justPrint = true := by
  obtain ⟨c, more, rfl⟩ := exists_cons_of_ne_nil (ne_nil_of_mem hn)
  have hc : c ≠ '-' := by
    rintro rfl
    exact absurd (hs '-' mem_cons_self) (by decide)
  rw [read, length_cons, readTo] at h
  · obtain ⟨⟨o1, rest1⟩, hshorts, h⟩ := bind_eq_ok.1 h
    exact readTo_dry h (readShorts_letters hs hn hshorts)
  · exact fun e _ => hc e
  · exact hc

/-! ## Through the flags -/

/-- Flags have the letters of options in front, as a word of their own. -/
def Passes (o : Options) (v : Text) : Prop := ∃ x, v = o.letters ++ x ∧ ∀ c ∈ x.head?, c = ' '

theorem passes_flags (o : Options) : o.Passes o.flags := by
  have hfold : ∀ (ws : List Text) (v : Text), o.Passes v →
      o.Passes (ws.foldl (fun s w => s ++ [' '] ++ w) v) := by
    intro ws
    induction ws with
    | nil => exact fun _ => id
    | cons w ws ih =>
      rintro _ ⟨x, rfl, hx⟩
      refine ih _ ⟨x ++ [' '] ++ w, by simp, ?_⟩
      cases x with
      | nil => simp
      | cons c x => exact hx
  exact hfold _ _ ⟨[], (append_nil _).symm, by simp⟩

theorem Passes.append (h : o.Passes v) {z : Text} (hz : ∀ c ∈ z.head?, c = ' ') :
    o.Passes (v ++ z) := by
  obtain ⟨x, rfl, hx⟩ := h
  refine ⟨x ++ z, append_assoc _ _ _, ?_⟩
  cases x with
  | nil => exact hz
  | cons c x => exact hx

theorem n_mem_letters (hp : o.justPrint = true) : 'n' ∈ o.letters := by
  simp [letters, hp]

/-- Blanks at the end do not belong to the letters. -/
theorem Passes.trim (h : o.Passes v) (hl : o.letters ≠ []) : o.Passes v.trim := by
  obtain ⟨x, rfl, hx⟩ := h
  have hink : ∀ c ∈ o.letters, Text.isBlank c = false := fun c hc =>
    (isPlain_letters c (mem_cons_of_mem _ hc)).1
  have hhead : ∀ c ∈ (o.letters ++ x).head?, Text.isBlank c = false := by
    rw [head?_append_of_ne_nil _ hl]
    exact fun c hc => hink c (mem_of_mem_head? hc)
  have hlast := dropLast_append_getLast hl
  refine ⟨x.trimRight, ?_, fun c hc => hx c ?_⟩
  · rw [Text.trim, Text.trimLeft_eq_self hhead, ← hlast, append_assoc, singleton_append,
      Text.trimRight_append_ink (hink _ (getLast_mem hl))]
    simp
  · obtain ⟨u, hu, -⟩ := Text.exists_trimRight_append x
    rw [hu, head?_append, show x.trimRight.head? = some c from hc]
    rfl

theorem startsWithFlags_passes (h : o.Passes v) (hl : o.letters ≠ []) :
    startsWithFlags v = true := by
  obtain ⟨x, rfl, hx⟩ := h
  cases x with
  | nil =>
    have hletters : ∀ c ∈ o.letters, ('a' ≤ c && c ≤ 'z' || 'A' ≤ c && c ≤ 'Z') = true :=
      fun c hc =>
      isLetter_of_mem_letters hc
    rw [append_nil]
    unfold startsWithFlags
    dsimp only
    rw [takeWhile_eq_self_iff.2 hletters, dropWhile_eq_nil_iff.2 hletters]
    simpa using hl
  | cons c x =>
    rw [hx c rfl]
    exact startsWithFlags_letters hl x

theorem flagWords_passes (h : o.Passes v) (hw : flagWords [] false ('-' :: v) = .ok words) :
    ∃ more, words = ('-' :: o.letters) :: more := by
  obtain ⟨x, rfl, hx⟩ := h
  have hword : flagWords [] false ('-' :: o.letters ++ x) = flagWords ('-' :: o.letters).reverse
      false x := by
    have hescape := Arguments.escape_eq_self (isPlain_letters (o := o))
    rw [← hescape, flagWords_escape (by simp), append_nil, hescape]
  rw [← cons_append, hword] at hw
  cases x with
  | nil =>
    rw [flagWords_last (cons_ne_nil _ _)] at hw
    cases hw
    exact ⟨[], rfl⟩
  | cons c x =>
    rw [hx c rfl, flagWords_space] at hw
    obtain ⟨more, -, hw⟩ := bind_eq_ok.1 hw
    cases hw
    exact ⟨more, by rw [reverse_reverse]⟩

/-- **Letters that were passed on are read first.** -/
theorem exists_ofFlags (h : o.Passes v) (hl : o.letters ≠ []) (hw : ofFlags v = .ok words) :
    ∃ more, words = ('-' :: o.letters) :: more := by
  have htrim := h.trim hl
  unfold ofFlags at hw
  dsimp only at hw
  rw [if_pos (startsWithFlags_passes htrim hl)] at hw
  exact flagWords_passes htrim hw

/-! ## What a make reads -/

/-- The options that a make reads, from the flags in its environment and from its command line. -/
def Reads (env : Env) (args : List Text) (o : Options) : Prop :=
  ∃ words o₀ first more, ofFlags ((env.get? "MAKEFLAGS").getD []) = .ok words ∧
    Options.default.read words = .ok (o₀, first) ∧ o₀.read args = .ok (o, more)

/-- **A make below a dry run is a dry run.** -/
theorem Reads.dry (h : Reads env args o') (hv : env.get? "MAKEFLAGS" = some v)
    (hpasses : o.Passes v) (hp : o.justPrint = true) : o'.justPrint = true := by
  obtain ⟨words, o0, first, more, hwords, hfirst, hread⟩ := h
  rw [hv] at hwords
  have hn := n_mem_letters hp
  obtain ⟨rest, rfl⟩ := exists_ofFlags hpasses (ne_nil_of_mem hn) hwords
  exact readTo_dry hread (read_letters (fun c => mem_letters) hn hfirst)

/-- With `-n` in front of its command line a make is a dry run, whatever else it is asked for. -/
theorem Reads.dry_of_cons (h : Reads env (['-', 'n'] :: args) o) : o.justPrint = true := by
  obtain ⟨words, o0, first, more, -, -, hread⟩ := h
  exact read_letters (by decide) (by decide) hread

end Options

end Rebuild
