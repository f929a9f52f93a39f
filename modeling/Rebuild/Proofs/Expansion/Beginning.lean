import Rebuild.Proofs.Computation
import Rebuild.Proofs.Expansion.Reading
/-!
# How expansions begin

Text before the first token is gathered before anything else, and the reader only ever adds to what
it has gathered outside of references. So an expansion begins with the text that its source begins
with, as far as no token begins there (`parseText_begins`), whatever references follow.
-/

namespace Rebuild

open List

/-- The text that is gathered of a lexeme. -/
def Reading.text : Reading → Text
  | .ended s | .plain s | .found s => s

theorem Mode.before_prefix_read (tokens : List Text) (x : Lexeme) :
    x.before <+: (Mode.data.read tokens x).text := by
  show x.before <+: (if wants tokens x.token then Reading.found x.before
    else .plain (x.before ++ x.token.text)).text
  split
  · exact prefix_rfl
  · exact prefix_append _ _

namespace Expansion

variable {p s : Text} {st st' : Reader} {ns ns' : List Notice}

/-- An expansion has a text in front. -/
def Begins (p : Text) : Expansion → Prop
  | .literal s _ => p <+: s
  | .sequence (.text s :: _) _ => p <+: s
  | .sequence _ _ => p = []

theorem begins_nil (e : Expansion) : e.Begins [] := by
  rcases e with ⟨s, _⟩ | ⟨_ | ⟨_ | _, _⟩, _⟩
  · exact nil_prefix
  · rfl
  · exact nil_prefix
  · rfl

theorem ofItems_begins (hp : p <+: s) (xs : List Item) (loc : Option Location) :
    (ofItems (.text s :: xs) loc).Begins p := by
  unfold ofItems
  split
  · rw [Item.merge]
    split
    · exact hp.trans (prefix_append _ _)
    · split
      · rename_i hempty
        rw [List.isEmpty_iff.1 hempty, prefix_nil] at hp
        rw [hp]
        exact begins_nil _
      · exact hp
  · exact hp.trans (prefix_append _ _)

/-! ## The reader adds -/

/-- The first thing that was gathered outside of references is text that begins with `p`. -/
def Reader.Begins (p : Text) (st : Reader) : Prop := ∃ s, p <+: s ∧ [.text s] <:+ st.outer

theorem Reader.Begins.of_suffix (h : st.Begins p) (hs : st.outer <:+ st'.outer) : st'.Begins p := by
  obtain ⟨s, hp, hst⟩ := h
  exact ⟨s, hp, hst.trans hs⟩

namespace Reader

theorem outer_add (st : Reader) (i : Item) : st.outer <:+ (st.add i).outer := by
  unfold add
  split
  · exact suffix_cons _ _
  · exact suffix_rfl

theorem outer_addText (st : Reader) (s : Text) : st.outer <:+ (st.addText s).outer := by
  unfold addText
  split
  · exact suffix_rfl
  · exact outer_add st _

theorem outer_leave (st : Reader) (r : Reference) : st.outer <:+ (st.leave r).outer :=
  outer_add { st with frames := st.frames.drop 1 } _

theorem outer_reference (st : Reader) (loc : Location) (c : Char) :
    st.outer <:+ (st.reference loc c).outer := by
  unfold reference
  split
  · exact outer_addText st _
  · split
    · exact suffix_rfl
    · exact outer_add st _

theorem outer_close {f : Frame} (h : Gives (st.close f) ns st' ns') : st.outer <:+ st'.outer := by
  have hleave {r : Reference} {ns1 : List Notice}
    (h : Gives (pure (st.leave r) : ParseM Reader) ns1 st' ns') :
      st.outer <:+ st'.outer := by
    cases h
    exact outer_leave st r
  unfold close at h
  split at h
  · obtain ⟨r, ns1, -, h⟩ := h.of_bind
    exact hleave h
  · exact hleave h
  · obtain ⟨_, ns1, -, h⟩ := h.of_bind
    exact hleave h
  · exact hleave h

theorem outer_mark {f : Frame} (h : Gives (st.mark f s) ns st' ns') : st.outer <:+ st'.outer := by
  have htop {g : Frame} (h : Gives (pure (st.setTop g) : ParseM Reader) ns st' ns') :
      st.outer <:+ st'.outer := by
    cases h
    exact suffix_rfl
  have hend {awaited : Text} {role : Role} (h : Gives (st.endPart f s awaited role) ns st' ns') :
      st.outer <:+ st'.outer := by
    unfold endPart at h
    split at h
    · exact htop h
    · cases h
  unfold mark at h
  split at h
  · exact htop h
  split at h
  · split at h
    · exact htop h
    · exact outer_close h
  split at h
  · cases h
  split at h
  · exact hend h
  · exact hend h
  · exact hend h
  · cases h

end Reader

variable {d : Line} {m : Mode} {stops : List Text} {tail : Text} {fresh : Bool} {r : Read}
  {xs : List Lexeme}

theorem finish_begins {located : Bool} (h : Gives (st.finish d located) ns r ns')
    (hst : st.Begins p) :
    r.exp.Begins p := by
  obtain ⟨s, hp, xs, hxs⟩ := hst
  unfold Reader.finish at h
  split at h
  · rw [← (gives_pure.1 h).1, ← hxs, reverse_append]
    exact ofItems_begins hp _ _
  · split at h <;> cases h

/-- A lexeme is gathered first, and then nothing is taken away. -/
theorem readLexemes_cons_begins {x : Lexeme}
    (h : Gives (readLexemes d m stops tail fresh st (x :: xs)) ns r ns')
    (hst : (st.addText ((st.mode m).read (st.tokens stops) x).text).Begins p)
    (ih : ∀ {st fresh ns}, Gives (readLexemes d m stops tail fresh st xs) ns r ns' → st.Begins p →
      r.exp.Begins p) : r.exp.Begins p := by
  rw [readLexemes] at h
  generalize (st.mode m).read (st.tokens stops) x = reading at h hst
  cases reading with
  | ended s => exact finish_begins h hst
  | plain s => exact ih h hst
  | found s =>
    dsimp only [Reading.text] at h hst
    generalize st.addText s = st at h hst
    split at h
    · split at h
      · exact finish_begins h hst
      · cases h
    · exact ih h (hst.of_suffix (st.outer_reference _ _))
    · exact ih h hst
    · split at h
      · split at h
        · cases h
        · obtain ⟨s, hp, xs, hxs⟩ := hst
          rw [← (gives_pure.1 h).1, ← hxs, reverse_append]
          exact ofItems_begins hp _ _
      · obtain ⟨st', ns1, hmark, h⟩ := h.of_bind
        exact ih h (hst.of_suffix (Reader.outer_mark hmark))

theorem readLexemes_begins (h : Gives (readLexemes d m stops tail fresh st xs) ns r ns')
    (hst : st.Begins p) : r.exp.Begins p := by
  induction xs generalizing st fresh ns with
  | nil =>
    rw [readLexemes] at h
    split at h
    · exact finish_begins h hst
    · exact finish_begins h (hst.of_suffix (st.outer_addText _))
  | cons x xs ih => exact readLexemes_cons_begins h (hst.of_suffix (st.outer_addText _)) ih

/-! ## The first text -/

/-- Characters that were read before a text come first. -/
theorem scan_before (before : Text) (offset : Nat) (s : Text) :
    (∃ x xs, (Lexeme.scan before offset s).1 = x :: xs ∧ before.reverse <+: x.before) ∨
      (Lexeme.scan before offset s).1 = [] ∧
      before.reverse <+: (Lexeme.scan before offset s).2 := by
  induction s generalizing before offset with
  | nil =>
    rw [Lexeme.scan]
    exact .inr ⟨rfl, prefix_rfl⟩
  | cons c s ih =>
    rw [Lexeme.scan]
    split
    · have hbefore : before.reverse <+: (c :: before).reverse := by simp
      rcases ih (c :: before) (offset + 1) with ⟨x, xs, hxs, hp⟩ | ⟨hxs, hp⟩
      · exact .inl ⟨x, xs, hxs, hbefore.trans hp⟩
      · exact .inr ⟨hxs, hbefore.trans hp⟩
    · exact .inl ⟨_, _, rfl, prefix_rfl⟩

theorem Reader.begins_addText (hp : p <+: s) (hne : p ≠ []) (hst : st.frames = [])
    (ho : st.outer = []) :
    (st.addText s).Begins p := by
  have hs : s.isEmpty = false := by
    cases s with
    | nil => exact absurd (prefix_nil.1 hp) hne
    | cons c s => rfl
  refine ⟨s, hp, ?_⟩
  unfold addText add
  rw [hs, hst, ho]
  exact suffix_rfl

/-- Characters that were read before a text are in front of what is read. -/
theorem resume_begins {before : Text} {offset : Nat} (hne : before.reverse ≠ [])
    (h : Gives (resume d .data stops fresh ⟨[], []⟩ before offset s) ns r ns') :
    r.exp.Begins before.reverse := by
  unfold resume at h
  rcases scan_before before offset s with ⟨x, xs, hxs, hp⟩ | ⟨hxs, hp⟩
  · rw [hxs] at h
    refine readLexemes_cons_begins h ?_ readLexemes_begins
    exact Reader.begins_addText (hp.trans (Mode.before_prefix_read _ x)) hne rfl rfl
  · rw [hxs, readLexemes] at h
    split at h
    · rename_i hempty
      have htail := List.isEmpty_iff.1 (Bool.and_eq_true_iff.1 hempty).2
      rw [htail] at hp
      exact absurd (prefix_nil.1 hp) hne
    · exact finish_begins h (Reader.begins_addText hp hne rfl rfl)

/-- **An expansion begins as its source does**, as far as no token begins there. -/
theorem parseText_begins {t path : Text} {e : Expansion} (hp : ∀ c ∈ p, c ∉ Token.starts)
    (h : Gives (parseText (p ++ t) path) ns e ns') : e.Begins p := by
  obtain ⟨r, hparse, rfl⟩ := h.of_pure
  rcases eq_or_ne p [] with rfl | hne
  · exact begins_nil _
  have hrest : (Line.ofText (p ++ t) path).rest 0 = p ++ t := rfl
  rw [parse_eq_resume rfl, hrest, resume_inert hp] at hparse
  simpa using resume_begins (by simpa using hne) hparse

theorem parseText_inert (hp : ∀ c ∈ p, c ∉ Token.starts) (path : Text) :
    ∃ loc, parseText p path = pure (.literal p loc) := by
  have hstart : (⟨[], []⟩ : Reader).Plain := ⟨rfl, rfl⟩
  have hrest : (Line.ofText p path).rest 0 = p ++ [] := (append_nil p).symm
  refine ⟨some (Line.ofText p path).loc, ?_⟩
  unfold parseText
  rw [parse_eq_resume rfl, hrest, resume_inert hp, resume_nil hstart, pure_bind]
  simp [Reader.written, Item.textOf, Mode.flat]

end Expansion

end Rebuild
