import Rebuild.Line.Flatten
import Rebuild.Proofs.Text
/-!
# What flattening leaves alone

Continuations, comments and tabs after newlines are the only things that flattening changes, so a
text without newlines and hash signs comes out as it went in. A character that is neither blank nor
a backslash belongs to no continuation, so flattening goes through it piece by piece
(`condense_append_cons`, `untab_append`).
-/

namespace Rebuild

open List Text

namespace Line

variable {x y s z : Text} {c : Char} {p : Char → Bool} {after : Text}

theorem ne_newline_of_not_blank (hc : isBlank c = false) : c ≠ '\n' := by
  rintro rfl
  cases hc

/-! ## Continuations -/

theorem continuation?_eq_none (h : '\n' ∉ s) : continuation? s = none := by
  have hblank : '\n' ∉ s.dropWhile isBlank := fun hn => h ((dropWhile_sublist _).mem hn)
  have hdrop : ∀ n, '\n' ∉ s.drop n := fun n hn => h (mem_of_mem_drop hn)
  unfold continuation?
  split
  · rename_i he
    simp [he] at hblank
  · dsimp only
    split
    · rename_i he
      exact absurd (he ▸ mem_cons_self) (hdrop _)
    · rfl

theorem condense_of_none (h : continuation? (c :: s) = none) :
    condense (c :: s) = c :: condense s := by
  rw [condense]
  split
  · rename_i he
    simp [h] at he
  · rfl

theorem condense_of_some {n : Nat} (h : continuation? s = some (n, after)) :
    condense s = copies n '\\' ++ ' ' :: condense after := by
  cases s with
  | nil => cases h
  | cons c s =>
    rw [condense]
    split
    · rename_i he
      rw [h] at he
      cases he
      rfl
    · rename_i he
      simp [h] at he

/-- A text without newlines has nothing to condense. -/
theorem condense_eq_self (h : '\n' ∉ s) : condense s = s := by
  induction s with
  | nil => rw [condense]
  | cons c rest ih =>
    rw [condense_of_none (continuation?_eq_none h), ih (fun hn => h (mem_cons_of_mem _ hn))]

theorem drop_takeWhile (s : Text) : s.drop (s.takeWhile p).length = s.dropWhile p := by
  conv => lhs; arg 2; rw [← takeWhile_append_dropWhile (p := p) (l := s)]
  exact drop_left

theorem continuation?_of_blanks (h : s.dropWhile isBlank = '\\' :: '\n' :: after) :
    continuation? s = some (0, trimLeft after) := by
  unfold continuation?
  simp only [h]

/-- Without that, a continuation is an odd number of backslashes before a newline. -/
theorem continuation?_of_slashes (h : ∀ after, s.dropWhile isBlank ≠ '\\' :: '\n' :: after) :
    continuation? s = match s.dropWhile (· == '\\') with
      | '\n' :: after =>
        if (s.takeWhile (· == '\\')).length % 2 = 1 then
          some ((s.takeWhile (· == '\\')).length / 2, trimLeft after)
        else none
      | _ => none := by
  unfold continuation?
  split
  · rename_i he
    exact absurd he (h _)
  · exact drop_takeWhile s ▸ rfl

/-- A continuation ends before a text that begins with ink, if no backslashes before a newline begin
it. -/
theorem continuation?_append (hink : ∀ c ∈ z.head?, isBlank c = false)
    (hnewline : (z.dropWhile (· == '\\')).head? ≠ some '\n') (u : Text) :
    continuation? (u ++ z) = (continuation? u).map fun p => (p.1, p.2 ++ z) := by
  have htrim (v : Text) : trimLeft (v ++ z) = trimLeft v ++ z := by
    unfold trimLeft
    rw [dropWhile_append]
    split
    · rename_i hv
      rw [List.isEmpty_iff.1 hv, nil_append]
      exact trimLeft_eq_self hink
    · rfl
  have hblank : (u ++ z).dropWhile isBlank = u.dropWhile isBlank ++ z := htrim u
  by_cases h : ∃ after, u.dropWhile isBlank = '\\' :: '\n' :: after
  · obtain ⟨after, h⟩ := h
    rw [h] at hblank
    rw [continuation?_of_blanks h, continuation?_of_blanks hblank]
    simp [htrim]
  have h := not_exists.1 h
  have h' : ∀ after, (u ++ z).dropWhile isBlank ≠ '\\' :: '\n' :: after := by
    intro after he
    rw [hblank] at he
    rcases hu : u.dropWhile isBlank with _ | ⟨a, _ | ⟨b, r⟩⟩
    · rw [hu, nil_append] at he
      exact hnewline (he ▸ rfl)
    · rw [hu] at he
      have hz : z = '\n' :: after := (List.cons.inj he).2
      exact ne_newline_of_not_blank (hink '\n' (hz ▸ rfl)) rfl
    · rw [hu] at he
      cases he
      exact h _ hu
  rw [continuation?_of_slashes h, continuation?_of_slashes h', dropWhile_append, takeWhile_append]
  rcases hu : u.dropWhile (· == '\\') with _ | ⟨a, r⟩
  · -- the backslashes of the first text go on into the second, but no newline ends them
    simp only [isEmpty_nil, if_true]
    split
    · rename_i after hz
      exact absurd (hz ▸ rfl) hnewline
    · rfl
  · have hlen : (u.takeWhile (· == '\\')).length ≠ u.length := by
      have hall := congrArg List.length (takeWhile_append_dropWhile (p := (· == '\\')) (l := u))
      rw [hu, length_append, length_cons] at hall
      omega
    rw [if_neg hlen]
    simp only [isEmpty_cons, Bool.false_eq_true, if_false, cons_append]
    by_cases ha : a = '\n'
    · subst ha
      simp only [htrim]
      split <;> rfl
    · grind

/-- A text begins with a continuation, which leaves a shorter text, or with a character that
stays. -/
theorem condense_induction {motive : Text → Prop} (nil : motive [])
    (continued : ∀ u k after, continuation? u = some (k, after) → motive after → motive u)
    (stays : ∀ c u, continuation? (c :: u) = none → motive u → motive (c :: u)) (u : Text) :
    motive u := by
  induction hlen : u.length using Nat.strongRecOn generalizing u with
  | _ n ih =>
    cases hu : continuation? u with
    | some p => exact continued u p.1 p.2 hu (ih _ (hlen ▸ length_lt_of_continuation? hu) p.2 rfl)
    | none =>
      cases u with
      | nil => exact nil
      | cons c u =>
        exact stays c u hu (ih u.length (by rw [← hlen]; exact Nat.lt_succ_self _) u rfl)

/-- **Condensing goes piece by piece** before a text that begins with ink, if no backslashes before
a newline begin it. -/
theorem condense_append (hink : ∀ c ∈ z.head?, isBlank c = false)
    (hnewline : (z.dropWhile (· == '\\')).head? ≠ some '\n') (u : Text) :
    condense (u ++ z) = condense u ++ condense z := by
  induction u using condense_induction with
  | nil => rw [nil_append, condense, nil_append]
  | continued u k after hu ih =>
    have happ := continuation?_append hink hnewline u
    rw [hu, Option.map_some] at happ
    rw [condense_of_some hu, condense_of_some happ, ih]
    simp
  | stays a u hu ih =>
    have happ := continuation?_append hink hnewline (a :: u)
    rw [hu, Option.map_none, cons_append] at happ
    rw [cons_append, condense_of_none happ, condense_of_none hu, ih, cons_append]

/-- A character that is neither blank nor a backslash belongs to no continuation. -/
theorem condense_append_cons (hb : isBlank c = false) (hs : c ≠ '\\') (x y : Text) :
    condense (x ++ c :: y) = condense x ++ c :: condense y := by
  have hink : ∀ a ∈ (c :: y).head?, isBlank a = false := by simpa using hb
  have hnewline : ((c :: y).dropWhile (· == '\\')).head? ≠ some '\n' := by
    simpa [hs] using ne_newline_of_not_blank hb
  rw [condense_append hink hnewline, condense_of_none (continuation?_append hink hnewline [])]

/-! ## Comments -/

theorem copies_takeWhile (s : Text) (c : Char) :
    copies (s.takeWhile (· == c)).length c = s.takeWhile (· == c) := by
  unfold copies
  rw [eq_comm, eq_replicate_iff]
  exact ⟨rfl, fun b hb => by simpa using mem_takeWhile_imp hb⟩

/-- A text without hash signs has no comment. -/
theorem uncomment_eq_self (h : '#' ∉ s) : uncomment s = s := by
  have hdrop : ∀ {rest : Text}, '#' ∉ '\\' :: rest → '#' ∉ rest.dropWhile (· == '\\') :=
    fun hr hd => hr (mem_cons_of_mem _ ((dropWhile_sublist _).mem hd))
  fun_induction uncomment s with
  | case1 => rfl
  | case2 => simp at h
  | case3 rest _ after hd => exact absurd (hd ▸ mem_cons_self) (hdrop h)
  | case4 rest _ after hd => exact absurd (hd ▸ mem_cons_self) (hdrop h)
  | case5 rest slashes _ ih =>
    have hslashes : copies slashes '\\' = '\\' :: rest.takeWhile (· == '\\') := by
      rw [← copies_takeWhile rest '\\']
      show List.replicate (1 + _) _ = _ :: List.replicate _ _
      rw [Nat.add_comm, replicate_succ]
    rw [ih (hdrop h), hslashes, cons_append, takeWhile_append_dropWhile]
  | case6 c rest _ _ ih => rw [ih (fun hn => h (mem_cons_of_mem _ hn))]

/-! ## Recipe text -/

theorem untab_eq_self (h : '\n' ∉ s) : untab s = s := by
  fun_induction untab s with
  | case1 => rfl
  | case2 => simp at h
  | case3 c rest _ ih => rw [ih (fun hn => h (mem_cons_of_mem _ hn))]

/-- Only a tab is changed by what stands before it. -/
theorem untab_append (hc : c ≠ '\t') (x y : Text) :
    untab (x ++ c :: y) = untab x ++ untab (c :: y) := by
  fun_induction untab x with
  | case1 => rfl
  | case2 rest ih => simp [untab, ih]
  | case3 a rest h ih =>
    rw [cons_append, untab, ih, cons_append]
    rintro rest' rfl he
    cases rest with
    | nil => exact hc (List.cons.inj he).1
    | cons b rest =>
      cases he
      exact h rest rfl rfl

end Line

end Rebuild
