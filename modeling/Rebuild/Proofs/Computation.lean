import Rebuild.Error
import Mathlib.Order.Basic
/-!
# Computations that change a state and may fail

What is done before a failure stays, so a computation always ends in a state, with a value or
with an error. `Gives` and `Fails` name the two ends, and every program is taken apart at its
binds by `gives_bind` and `fails_bind`. Two properties are closed under all ways of putting
computations together: keeping a relation between the states before and after (`Keeps`), and
failing only with errors that no make survives (`Grave`).
-/

namespace Rebuild

variable {σ α β : Type} {s s₁ s' t : σ} {a : α} {e e' : Error} {b : β} {r : Except Error α}
  {u : PUnit} {I : σ → Prop} {l : List α} {bs : List β}

/-- Computations on a state of type `σ`. -/
abbrev Computation (σ α : Type) := ExceptT Error (StateM σ) α

/-- The computation ends with a value, in a state. -/
def Gives (x : Computation σ α) (s : σ) (a : α) (s' : σ) : Prop := x.run s = (.ok a, s')

/-- The computation ends with an error, in a state. -/
def Fails (x : Computation σ α) (s : σ) (e : Error) (s' : σ) : Prop := x.run s = (.error e, s')

/-- Every computation ends in one of the two ways. -/
theorem gives_or_fails (x : Computation σ α) (s : σ) :
    (∃ a s', Gives x s a s') ∨ ∃ e s', Fails x s e s' := by
  rcases h : x.run s with ⟨r, s'⟩
  cases r with
  | error e => exact .inr ⟨e, s', h⟩
  | ok a => exact .inl ⟨a, s', h⟩

variable {x : Computation σ α} {f : α → Computation σ β} {h : Error → Computation σ α} {g : α → β}
  {R : σ → σ → Prop}

/-- The end of a computation is determined. -/
theorem Gives.unique {s2 : σ} {a1 a2 : α} (h1 : Gives x s a1 s₁) (h2 : Gives x s a2 s2) :
    a1 = a2 ∧ s₁ = s2 := by
  unfold Gives at h1 h2
  rw [h1] at h2
  cases h2
  exact ⟨rfl, rfl⟩

/-- A value with what holds of it, given by evaluation. -/
theorem exists_gives {p : α → Bool} (h : (x.run s).1.toOption.any p = true) :
    ∃ a s', Gives x s a s' ∧ p a = true := by
  obtain ⟨a, s', hx⟩ | ⟨e, s', hx⟩ := gives_or_fails x s
  · refine ⟨a, s', hx, ?_⟩
    rwa [hx] at h
  · rw [hx] at h
    cases h

/-! ## The two ends of each way of putting computations together -/

@[simp] theorem gives_pure {b : α} : Gives (pure a : Computation σ α) s b s' ↔ a = b ∧ s = s' := by
  constructor
  · intro h
    cases h
    exact ⟨rfl, rfl⟩
  · rintro ⟨rfl, rfl⟩
    rfl

@[simp] theorem fails_pure : ¬ Fails (pure a : Computation σ α) s e s' := by
  intro h
  cases h

theorem run_bind (x : Computation σ α) (f : α → Computation σ β) (s : σ) :
    (x >>= f).run s = match x.run s with
      | (.ok a, s₁) => (f a).run s₁
      | (.error e, s₁) => (.error e, s₁) := by
  simp only [ExceptT.bind, ExceptT.run, ExceptT.mk, bind, StateT.bind, ExceptT.bindCont]
  rcases x s with ⟨r, s₁⟩
  cases r <;> rfl

theorem Gives.run_bind (h : Gives x s a s₁) (f : α → Computation σ β) :
    (x >>= f).run s = (f a).run s₁ := by
  rw [Rebuild.run_bind, h]

@[simp] theorem gives_bind :
    Gives (x >>= f) s b s' ↔ ∃ a s₁, Gives x s a s₁ ∧ Gives (f a) s₁ b s' := by
  unfold Gives
  rw [run_bind]
  rcases x.run s with ⟨r, s₁⟩
  cases r with
  | error e => exact ⟨nofun, nofun⟩
  | ok a =>
    constructor
    · intro hf
      exact ⟨a, s₁, rfl, hf⟩
    · rintro ⟨a', s1', he, hf⟩
      cases he
      exact hf

theorem Gives.of_bind (h : Gives (x >>= f) s b s') : ∃ a s₁, Gives x s a s₁ ∧ Gives (f a) s₁ b s' :=
  gives_bind.1 h

theorem fails_bind :
    Fails (x >>= f) s e s' ↔
      Fails x s e s' ∨ ∃ a s₁, Gives x s a s₁ ∧ Fails (f a) s₁ e s' := by
  unfold Fails Gives
  rw [run_bind]
  rcases x.run s with ⟨r, s₁⟩
  cases r with
  | error e' =>
    constructor
    · intro he
      cases he
      exact .inl rfl
    · rintro (he | ⟨_, _, he, -⟩)
      · cases he
        rfl
      · cases he
  | ok a =>
    constructor
    · intro hf
      exact .inr ⟨a, s₁, rfl, hf⟩
    · rintro (he | ⟨a', s1', he, hf⟩)
      · cases he
      · cases he
        exact hf

@[simp] theorem gives_throw : ¬ Gives (throw e : Computation σ α) s a s' := by
  intro h
  cases h

@[simp] theorem fails_throw : Fails (throw e : Computation σ α) s e' s' ↔ e = e' ∧ s = s' := by
  constructor
  · intro h
    cases h
    exact ⟨rfl, rfl⟩
  · rintro ⟨rfl, rfl⟩
    rfl

@[simp] theorem gives_ofExcept :
    Gives (ofExcept r : Computation σ α) s a s' ↔ r = .ok a ∧ s = s' := by
  cases r with
  | error e => simp [ofExcept]
  | ok b => simp [ofExcept]

@[simp] theorem fails_ofExcept :
    Fails (ofExcept r : Computation σ α) s e s' ↔ r = .error e ∧ s = s' := by
  cases r with
  | error e => simp [ofExcept]
  | ok b => simp [ofExcept]

theorem gives_liftM : Gives (liftM r : Computation σ α) s a s' ↔ r = .ok a ∧ s = s' := by
  cases r with
  | error e => exact ⟨nofun, nofun⟩
  | ok b =>
    constructor
    · intro h
      cases h
      exact ⟨rfl, rfl⟩
    · rintro ⟨⟨⟩, rfl⟩
      rfl

@[simp] theorem gives_get {a : σ} : Gives (get : Computation σ σ) s a s' ↔ s = a ∧ s = s' := by
  constructor
  · intro h
    cases h
    exact ⟨rfl, rfl⟩
  · rintro ⟨rfl, rfl⟩
    rfl

@[simp] theorem fails_get : ¬ Fails (get : Computation σ σ) s e s' := by
  intro h
  cases h

@[simp] theorem gives_set : Gives (set t : Computation σ PUnit) s u s' ↔ t = s' := by
  constructor
  · intro h
    cases h
    rfl
  · rintro rfl
    rfl

@[simp] theorem fails_set : ¬ Fails (set t : Computation σ PUnit) s e s' := by
  intro h
  cases h

@[simp] theorem gives_modify {f : σ → σ} :
    Gives (modify f : Computation σ PUnit) s u s' ↔ f s = s' := by
  constructor
  · intro h
    cases h
    rfl
  · rintro rfl
    rfl

@[simp] theorem fails_modify {f : σ → σ} : ¬ Fails (modify f : Computation σ PUnit) s e s' := by
  intro h
  cases h

/-- A value that is returned in the end. -/
theorem Gives.of_pure (h : Gives (x >>= fun a => pure (g a)) s b s') :
    ∃ a, Gives x s a s' ∧ g a = b := by
  obtain ⟨a, s₁, hx, h⟩ := h.of_bind
  obtain ⟨hb, rfl⟩ := gives_pure.1 h
  exact ⟨a, hx, hb⟩

theorem Fails.of_pure (h : Fails (x >>= fun a => pure (g a)) s e s') : Fails x s e s' := by
  rcases fails_bind.1 h with h | ⟨_, _, -, h⟩
  · exact h
  · cases h

/-- Reading the state, and then going on from it. -/
theorem Gives.of_read {p : α → Prop} (hx : ∀ {a s'}, Gives x s a s' → p a ∧ s = s')
    (h : Gives (x >>= f) s b s') : ∃ a, p a ∧ Gives (f a) s b s' := by
  obtain ⟨a, s₁, h1, h⟩ := h.of_bind
  obtain ⟨ha, rfl⟩ := hx h1
  exact ⟨a, ha, h⟩

theorem Gives.of_get {f : σ → Computation σ α} (h : Gives (get >>= f) s a s') :
    Gives (f s) s a s' := by
  obtain ⟨_, rfl, h⟩ := h.of_read gives_get.1
  exact h

theorem Gives.of_ofExcept (h : Gives (ofExcept r >>= f) s b s') :
    ∃ a, r = .ok a ∧ Gives (f a) s b s' :=
  h.of_read gives_ofExcept.1

theorem run_tryCatch (x : Computation σ α) (h : Error → Computation σ α) (s : σ) :
    (tryCatch x h : Computation σ α).run s = match x.run s with
      | (.ok a, s₁) => (.ok a, s₁)
      | (.error e, s₁) => (h e).run s₁ := by
  show (ExceptT.tryCatch x h).run s = _
  simp only [ExceptT.tryCatch, ExceptT.run, ExceptT.mk, bind, StateT.bind]
  rcases x s with ⟨r, s₁⟩
  cases r <;> rfl

theorem gives_tryCatch :
    Gives (tryCatch x h) s a s' ↔
      Gives x s a s' ∨ ∃ e s₁, Fails x s e s₁ ∧ Gives (h e) s₁ a s' := by
  unfold Gives Fails
  rw [run_tryCatch]
  rcases x.run s with ⟨r, s₁⟩
  cases r with
  | ok b =>
    constructor
    · exact .inl
    · rintro (he | ⟨_, _, he, -⟩)
      · exact he
      · cases he
  | error e =>
    constructor
    · intro hh
      exact .inr ⟨e, s₁, rfl, hh⟩
    · rintro (he | ⟨e', s1', he, hh⟩)
      · cases he
      · cases he
        exact hh

theorem fails_tryCatch :
    Fails (tryCatch x h) s e' s' ↔ ∃ e s₁, Fails x s e s₁ ∧ Fails (h e) s₁ e' s' := by
  unfold Fails
  rw [run_tryCatch]
  rcases x.run s with ⟨r, s₁⟩
  cases r with
  | ok b => exact ⟨nofun, nofun⟩
  | error e =>
    constructor
    · intro hh
      exact ⟨e, s₁, rfl, hh⟩
    · rintro ⟨e', s1', he, hh⟩
      cases he
      exact hh

/-- If each element gives a value that is a function of it, as long as something holds of the
state, so does the list. -/
theorem gives_mapM_of (hf : ∀ a s b s', I s → Gives (f a) s b s' → b = g a ∧ I s')
    (hs : I s) (h : Gives (l.mapM f) s bs s') : bs = l.map g ∧ I s' := by
  induction l generalizing s bs with
  | nil =>
    cases h
    exact ⟨rfl, hs⟩
  | cons a l ih =>
    rw [List.mapM_cons] at h
    obtain ⟨b, s₁, h1, h⟩ := h.of_bind
    obtain ⟨bs', h2, rfl⟩ := h.of_pure
    obtain ⟨rfl, hs1⟩ := hf a s b s₁ hs h1
    obtain ⟨rfl, hs2⟩ := ih hs1 h2
    exact ⟨rfl, hs2⟩

/-- If what each element gives has a property, as long as something holds of the state, so has what
the list gives. -/
theorem gives_mapM_forall {P : β → Prop} (hf : ∀ a s b s', I s → Gives (f a) s b s' → P b ∧ I s')
    (hs : I s) (h : Gives (l.mapM f) s bs s') : (∀ b ∈ bs, P b) ∧ I s' := by
  induction l generalizing s bs with
  | nil =>
    cases h
    exact ⟨by simp, hs⟩
  | cons a l ih =>
    rw [List.mapM_cons] at h
    obtain ⟨b, s₁, hb, h⟩ := h.of_bind
    obtain ⟨bs', hrest, rfl⟩ := h.of_pure
    obtain ⟨hP, hs1⟩ := hf a s b s₁ hs hb
    obtain ⟨hall, hs2⟩ := ih hs1 hrest
    exact ⟨List.forall_mem_cons.2 ⟨hP, hall⟩, hs2⟩

/-! ## Keeping a relation -/

/-- The state before and the state after are related, however the computation ends. -/
def Keeps (R : σ → σ → Prop) (x : Computation σ α) : Prop := ∀ s, R s (x.run s).2

theorem Keeps.of_gives (hx : Keeps R x) (h : Gives x s a s') : R s s' := by
  have := hx s
  rwa [show x.run s = _ from h] at this

theorem Keeps.of_fails (hx : Keeps R x) (h : Fails x s e s') : R s s' := by
  have := hx s
  rwa [show x.run s = _ from h] at this

theorem keeps_iff :
    Keeps R x ↔ (∀ s a s', Gives x s a s' → R s s') ∧ ∀ s e s', Fails x s e s' → R s s' := by
  constructor
  · intro hx
    exact ⟨fun _ _ _ h => hx.of_gives h, fun _ _ _ h => hx.of_fails h⟩
  · rintro ⟨hg, hf⟩ s
    rcases h : x.run s with ⟨r, s'⟩
    cases r with
    | error e => exact hf s e s' h
    | ok a => exact hg s a s' h

section Keeps

variable {R : σ → σ → Prop} [IsPreorder σ R]

theorem keeps_pure (a : α) : Keeps R (pure a : Computation σ α) := fun s => refl_of R s

theorem keeps_throw (e : Error) : Keeps R (throw e : Computation σ α) := fun s => refl_of R s

theorem keeps_get : Keeps R (get : Computation σ σ) := fun s => refl_of R s

theorem keeps_ofExcept (r : Except Error α) : Keeps R (ofExcept r : Computation σ α) := by
  cases r with
  | error e => exact keeps_throw e
  | ok a => exact keeps_pure a

omit [IsPreorder σ R] in
theorem keeps_modify {f : σ → σ} (h : ∀ s, R s (f s)) :
    Keeps R (modify f : Computation σ PUnit) := h

omit [IsPreorder σ R] in
theorem keeps_bind_get {f : σ → Computation σ α} (h : R s ((f s).run s).2) :
    R s ((get >>= f).run s).2 := h

/-- A bind relates a state to the one after it if both of its parts do so, for the states that
they meet. -/
theorem keeps_bind_gives (hx : R s (x.run s).2)
    (hf : ∀ a s₁, Gives x s a s₁ → R s₁ ((f a).run s₁).2) : R s ((x >>= f).run s).2 := by
  rw [run_bind]
  rcases hr : x.run s with ⟨r, s₁⟩
  rw [hr] at hx
  cases r with
  | error e => exact hx
  | ok a => exact trans_of R hx (hf a s₁ hr)

theorem keeps_bind_at (hx : R s (x.run s).2) (hf : ∀ a, Keeps R (f a)) : R s ((x >>= f).run s).2 :=
  keeps_bind_gives hx fun a s₁ _ => hf a s₁

theorem keeps_bind (hx : Keeps R x) (hf : ∀ a, Keeps R (f a)) :
    Keeps R (x >>= f) := fun s => keeps_bind_at (hx s) hf

theorem keeps_return (hx : Keeps R x) : Keeps R (x >>= fun a => pure (g a)) :=
  keeps_bind hx fun a => keeps_pure (g a)

/-- A failure after a part that keeps something is one of the rest. -/
theorem Keeps.fails_bind (hx : Keeps R x) (h : Fails (x >>= f) s e s')
    (hf : ∀ a s₁, Gives x s a s₁ → Fails (f a) s₁ e s' → R s₁ s') : R s s' := by
  rcases Rebuild.fails_bind.1 h with h | ⟨a, s₁, h1, h2⟩
  · exact hx.of_fails h
  · exact trans_of R (hx.of_gives h1) (hf a s₁ h1 h2)

theorem keeps_tryCatch {f : Error → Computation σ α} (hx : Keeps R x) (hf : ∀ e, Keeps R (f e)) :
    Keeps R (tryCatch x f) := by
  rw [keeps_iff]
  constructor
  · intro s a s' h
    rcases gives_tryCatch.1 h with h1 | ⟨e, s₁, h1, h2⟩
    · exact hx.of_gives h1
    · exact trans_of R (hx.of_fails h1) ((hf e).of_gives h2)
  · intro s e' s' h
    obtain ⟨e, s₁, h1, h2⟩ := fails_tryCatch.1 h
    exact trans_of R (hx.of_fails h1) ((hf e).of_fails h2)

theorem keeps_map {f : α → β} (hx : Keeps R x) : Keeps R (f <$> x) := by
  rw [← bind_pure_comp]
  exact keeps_return hx

theorem keeps_filterM {f : α → Computation σ Bool} (hf : ∀ a, Keeps R (f a)) :
    Keeps R (l.filterM f) := by
  have haux : ∀ acc, Keeps R (l.filterAuxM f acc) := by
    induction l with
    | nil => exact fun acc => keeps_pure _
    | cons a l ih => exact fun acc => keeps_bind (hf a) fun _ => ih _
  exact keeps_return (haux [])

end Keeps

/-! ## Failing gravely -/

/-- The computation fails only with errors that are no complaints about a makefile. -/
def Grave (x : Computation σ α) : Prop := ∀ s e s', Fails x s e s' → e.isComplaint = false

theorem grave_pure (a : α) : Grave (pure a : Computation σ α) := fun _ _ _ h => absurd h fails_pure

theorem grave_throw (he : e.isComplaint = false) : Grave (throw e : Computation σ α) := by
  intro s e' s' h
  rw [← (fails_throw.1 h).1]
  exact he

theorem grave_get : Grave (get : Computation σ σ) := fun _ _ _ h => absurd h fails_get

theorem grave_set (t : σ) : Grave (set t : Computation σ PUnit) := fun _ _ _ h => absurd h fails_set

theorem grave_modify (f : σ → σ) : Grave (modify f : Computation σ PUnit) :=
  fun _ _ _ h => absurd h fails_modify

theorem grave_ofExcept (hr : ∀ e, r = .error e → e.isComplaint = false) :
    Grave (ofExcept r : Computation σ α) := by
  intro s e s' h
  exact hr e (fails_ofExcept.1 h).1

/-- Complaints that are caught leave only other errors. -/
theorem grave_tryCatch {f : Error → Computation σ α} (hf : ∀ e, Grave (f e)) :
    Grave (tryCatch x f) := by
  intro s e s' h
  obtain ⟨e', s₁, -, h⟩ := fails_tryCatch.1 h
  exact hf e' _ _ _ h

/-! ## Properties of programs -/

/-- A property that a program has if all of its parts have it, and that no grave failure breaks. -/
class Composable (P : ∀ α : Type, Computation σ α → Prop) : Prop where
  holds_pure {α : Type} (a : α) : P α (pure a)
  holds_get : P σ get
  holds_throw {α : Type} {e : Error} : e.isComplaint = false → P α (throw e)
  holds_bind_gives {α β : Type} {x : Computation σ α} {f : α → Computation σ β} : P α x →
    (∀ a, (∃ s s', Gives x s a s') → P β (f a)) → P β (x >>= f)

export Composable (holds_pure holds_get holds_throw holds_bind_gives)

instance (R : σ → σ → Prop) [IsPreorder σ R] : Composable fun _ => Keeps R where
  holds_pure := keeps_pure
  holds_get := keeps_get
  holds_throw _ := keeps_throw _
  holds_bind_gives hx hf s := keeps_bind_gives (hx s) fun a s₁ h => hf a ⟨s, s₁, h⟩ s₁

instance : Composable fun _ => Grave (σ := σ) where
  holds_pure := grave_pure
  holds_get := grave_get
  holds_throw := grave_throw
  holds_bind_gives hx hf s e s' h := by
    rcases fails_bind.1 h with h₁ | ⟨a, s₁, h₁, h₂⟩
    · exact hx _ _ _ h₁
    · exact hf a ⟨s, s₁, h₁⟩ _ _ _ h₂

section Composable

variable {P : ∀ α : Type, Computation σ α → Prop} [Composable P]

theorem holds_bind (hx : P α x) (hf : ∀ a, P β (f a)) :
    P β (x >>= f) := holds_bind_gives hx fun a _ => hf a

theorem holds_return (hx : P α x) : P β (x >>= fun a => pure (g a)) :=
  holds_bind hx fun a => holds_pure (g a)

/-- Something may be done first. -/
theorem holds_when {c : Prop} [Decidable c] {x : Computation σ PUnit} {f : PUnit → Computation σ β}
    (hx : P _ x) (hf : ∀ u, P _ (f u)) : P _ (if c then x >>= f else f ⟨⟩) := by
  split
  · exact holds_bind hx hf
  · exact hf _

theorem holds_ofExcept (hr : ∀ e, r = .error e → e.isComplaint = false) : P α (ofExcept r) := by
  cases r with
  | error e => exact holds_throw (hr e rfl)
  | ok a => exact holds_pure a

theorem holds_forM {f : α → Computation σ PUnit} (hf : ∀ a, P _ (f a)) : P _ (l.forM f) := by
  induction l with
  | nil => exact holds_pure _
  | cons a l ih => exact holds_bind (hf a) fun _ => ih

theorem holds_mapM (hf : ∀ a, P _ (f a)) : P _ (l.mapM f) := by
  induction l with
  | nil => exact holds_pure _
  | cons a l ih =>
    rw [List.mapM_cons]
    exact holds_bind (hf a) fun b => holds_return ih

theorem holds_foldlM {f : β → α → Computation σ β} (hf : ∀ b a, P _ (f b a)) (b : β) :
    P _ (l.foldlM f b) := by
  induction l generalizing b with
  | nil => exact holds_pure _
  | cons a l ih =>
    rw [List.foldlM_cons]
    exact holds_bind (hf b a) fun b' => ih b'

end Composable

theorem grave_bind (hx : Grave x) (hf : ∀ a, Grave (f a)) :
    Grave (x >>= f) := holds_bind (P := fun _ => Grave) hx hf

section Keeps

variable {R : σ → σ → Prop} [IsPreorder σ R]

theorem keeps_when {c : Prop} [Decidable c] {x : Computation σ PUnit} {f : PUnit → Computation σ β}
    (hx : Keeps R x) (hf : ∀ u, Keeps R (f u)) : Keeps R (if c then x >>= f else f ⟨⟩) :=
  holds_when (P := fun _ => Keeps R) hx hf

theorem Gives.of_when {c : Prop} [Decidable c] {x : Computation σ PUnit}
    {f : PUnit → Computation σ β}
    (h : Gives (if c then x >>= f else f ⟨⟩) s b s') (hx : Keeps R x) :
    ∃ s₁, R s s₁ ∧ Gives (f ⟨⟩) s₁ b s' := by
  split at h
  · obtain ⟨_, s₁, h1, h⟩ := h.of_bind
    exact ⟨s₁, hx.of_gives h1, h⟩
  · exact ⟨s, refl_of R s, h⟩

theorem keeps_forM {f : α → Computation σ PUnit} (hf : ∀ a, Keeps R (f a)) :
    Keeps R (l.forM f) := holds_forM (P := fun _ => Keeps R) hf

theorem keeps_mapM (hf : ∀ a, Keeps R (f a)) :
    Keeps R (l.mapM f) := holds_mapM (P := fun _ => Keeps R) hf

theorem keeps_foldlM {f : β → α → Computation σ β} (hf : ∀ b a, Keeps R (f b a)) (b : β) :
    Keeps R (l.foldlM f b) := holds_foldlM (P := fun _ => Keeps R) hf b

end Keeps

end Rebuild
