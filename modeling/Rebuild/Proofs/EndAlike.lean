import Rebuild.Proofs.Computation
/-!
# Computations that end alike

Two computations end alike if, whatever states they start in, both give a value, and the values are
related, or both fail, the first one with an error of a kind (`EndAlike`). What is put together from
parts that end alike ends alike (`EndAlike.bind`), so two programs of one shape are compared part by
part.
-/

namespace Rebuild

variable {σ α β γ δ : Type} {E : Error → Prop} {R : α → β → Prop} {S : γ → δ → Prop}
  {r : Except Error α} {r' : Except Error β} {T : α → γ → Prop}

/-- Two results are both values, which are related, or both errors, the first of which is of a
kind. -/
inductive SameEnd (E : Error → Prop) (R : α → β → Prop) : Except Error α → Except Error β → Prop
  | ok {a : α} {b : β} (h : R a b) : SameEnd E R (.ok a) (.ok b)
  | error {e e' : Error} (h : E e) : SameEnd E R (.error e) (.error e')

/-- Results put together from parts of this kind are of this kind. -/
theorem SameEnd.bind {f : α → Except Error γ} {g : β → Except Error δ} (hr : SameEnd E R r r')
    (hf : ∀ a b, R a b → SameEnd E S (f a) (g b)) : SameEnd E S (r >>= f) (r' >>= g) := by
  cases hr with
  | ok h => exact hf _ _ h
  | error h => exact .error h

/-- Two steps that are of this kind are one. -/
theorem SameEnd.trans {r'' : Except Error γ} {S : β → γ → Prop} (h : SameEnd E R r r')
    (h' : SameEnd E S r' r'') (hT : ∀ a b c, R a b → S b c → T a c) : SameEnd E T r r'' := by
  cases h with
  | ok h =>
    cases h' with
    | ok h' => exact .ok (hT _ _ _ h h')
  | error h =>
    cases h' with
    | error _ => exact .error h

/-- The computations end in the same way, whatever states they start in. -/
def EndAlike (E : Error → Prop) (R : α → β → Prop) (x : Computation σ α) (y : Computation σ β) :
    Prop :=
  ∀ s t, SameEnd E R (x.run s).1 (y.run t).1

namespace EndAlike

variable {x : Computation σ α} {y : Computation σ β} {a : α} {b : β}

theorem pure (h : R a b) : EndAlike E R (pure a : Computation σ α) (pure b) := fun _ _ => .ok h

theorem throw {e e' : Error} (h : E e) :
    EndAlike E R (throw e : Computation σ α) (throw e') := fun _ _ => .error h

/-- What may fail without touching the state. -/
theorem lift (h : SameEnd E R r r') : EndAlike E R (liftM r : Computation σ α) (liftM r') := by
  intro s t
  cases h with
  | ok h => exact .ok h
  | error h => exact .error h

/-- **What is put together from parts that end alike ends alike.** -/
theorem bind {f : α → Computation σ γ} {g : β → Computation σ δ} (hx : EndAlike E R x y)
    (hf : ∀ a b, R a b → EndAlike E S (f a) (g b)) : EndAlike E S (x >>= f) (y >>= g) := by
  intro s t
  have h := hx s t
  rw [run_bind, run_bind]
  generalize x.run s = p at h ⊢
  generalize y.run t = q at h ⊢
  obtain ⟨r, s1⟩ := p
  obtain ⟨r', t1⟩ := q
  cases h with
  | ok h => exact hf _ _ h s1 t1
  | error h => exact .error h

section

variable (h : EndAlike E R x y)
include h

theorem mono {E' : Error → Prop} {R' : α → β → Prop} (hE : ∀ e, E e → E' e)
    (hR : ∀ a b, R a b → R' a b) : EndAlike E' R' x y := by
  intro s t
  have h := h s t
  generalize (x.run s).1 = r at h ⊢
  generalize (y.run t).1 = r' at h ⊢
  cases h with
  | ok h => exact .ok (hR _ _ h)
  | error h => exact .error (hE _ h)

/-- What holds of all values that the first one gives may be added to the relation. -/
theorem and_left {P : α → Prop} (hP : ∀ s a s1, Gives x s a s1 → P a) :
    EndAlike E (fun a b => R a b ∧ P a) x y := by
  intro s t
  have h := h s t
  have hP := hP s
  unfold Gives at hP
  generalize x.run s = p at h hP ⊢
  generalize (y.run t).1 = r' at h ⊢
  obtain ⟨r, s1⟩ := p
  cases h with
  | ok h => exact .ok ⟨h, hP _ s1 rfl⟩
  | error h => exact .error h

/-- If the first one gives a value, so does the other. -/
theorem gives {s s1 : σ} (hx : Gives x s a s1) (t : σ) : ∃ b t1, Gives y t b t1 ∧ R a b := by
  have h := h s t
  rw [show x.run s = _ from hx] at h
  rcases hy : y.run t with ⟨r', t1⟩
  rw [hy] at h
  cases h with
  | ok h => exact ⟨_, t1, hy, h⟩

/-- If the second one gives a value, so does the first. -/
theorem gives_left {t t1 : σ} (hy : Gives y t b t1) (s : σ) : ∃ a s1, Gives x s a s1 ∧ R a b := by
  have h := h s t
  rw [show y.run t = _ from hy] at h
  rcases hx : x.run s with ⟨r, s1⟩
  rw [hx] at h
  cases h with
  | ok h => exact ⟨_, s1, hx, h⟩

theorem trans {z : Computation σ γ} {S : β → γ → Prop}
    (h' : EndAlike E S y z) (hT : ∀ a b c, R a b → S b c → T a c) : EndAlike E T x z :=
  fun s t => (h s s).trans (h' s t) hT

/-- If the first one fails, then with an error of the kind. -/
theorem fails {s s1 : σ} {e : Error} (hx : Fails x s e s1) (t : σ) : E e := by
  have h := h s t
  rw [show x.run s = _ from hx] at h
  generalize (y.run t).1 = r' at h
  cases h with
  | error h => exact h

end

end EndAlike

end Rebuild
