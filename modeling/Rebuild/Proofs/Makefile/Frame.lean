import Rebuild.Recipe
import Rebuild.Proofs.Variable
/-!
# What evaluation leaves alone

Evaluation looks at the makefile and the world and reads variables; the only thing it changes in
a makefile are the tables of variables, where a value counts as read after its first use. So it
keeps every relation between sessions that new worlds and values that were read do not break
(`EvaluationFrame`), as long as `eval` does; those that no new tables break (`VariableFrame`) are
among them. One is that a makefile all of which was read does not change otherwise (`Frozen`),
since then `eval` is refused.
-/

namespace Rebuild

/-- A relation between sessions that changes of the world keep, and reading variables. -/
class EvaluationFrame (R : Session → Session → Prop) : Prop extends IsPreorder Session R where
  world : ∀ s w, R s { s with world := w }
  values : ∀ s x, s.makefile.scopes.SameValues x →
    R s { s with makefile := { s.makefile with scopes := x } }

/-- A relation between sessions that changes of the world and of the variables keep. -/
class VariableFrame (R : Session → Session → Prop) : Prop extends IsPreorder Session R where
  world : ∀ s w, R s { s with world := w }
  scopes : ∀ s x, R s { s with makefile := { s.makefile with scopes := x } }

instance VariableFrame.evaluation (R : Session → Session → Prop) [VariableFrame R] :
    EvaluationFrame R where
  world := VariableFrame.world
  values s x _ := VariableFrame.scopes s x

variable {α β : Type} {R : Session → Session → Prop} (sc : Scope) (name : Text)

/-! ## The files of a world -/

namespace World

/-- The files are the same, and are seen from the same directory. -/
def SameFiles (w w' : World) : Prop := w'.files = w.files ∧ w'.cwd = w.cwd

instance : IsPreorder World SameFiles where
  refl _ := ⟨rfl, rfl⟩
  trans _ _ _ h₁ h₂ := ⟨h₂.1.trans h₁.1, h₂.2.trans h₁.2⟩

theorem sameFiles_noteLines (w : World) (f : Text → Event) (text : Text) :
    w.SameFiles (w.noteLines f text) := by
  unfold noteLines
  induction text.splitOn '\n' generalizing w with
  | nil => exact refl_of SameFiles w
  | cons line rest ih => exact ih _

theorem sameFiles_log (w : World) (level : Level) (subject : Subject) (message : Text) :
    w.SameFiles (w.log level subject message) := by
  unfold log printErr
  split
  · split
    · exact refl_of SameFiles w
    · exact sameFiles_noteLines ..
  · split
    · exact refl_of SameFiles w
    · split
      · exact sameFiles_noteLines ..
      · exact sameFiles_noteLines ..

end World

/-! ## The small operations on a makefile -/

namespace MakeM

section Look

variable [IsPreorder Session R]

theorem keeps_makefile : Keeps R makefile := keeps_return keeps_get

theorem keeps_world : Keeps R world := keeps_return keeps_get

theorem keeps_targetAt : Keeps R (targetAt name) := keeps_return keeps_makefile

end Look

variable {x : ScopeM α} {s : Session}

section Small

variable [EvaluationFrame R]

theorem keeps_onWorld (f : World → World) : Keeps R (onWorld f) :=
  keeps_modify fun s => EvaluationFrame.world s (f s.world)

theorem keeps_act (x : WorldM α) : Keeps R (act x) := by
  intro s
  refine keeps_bind_get ?_
  exact keeps_bind_at (EvaluationFrame.world s _) fun _ => keeps_ofExcept _

theorem keeps_log (level : Level) (message : Text) : Keeps R (log level message) := keeps_onWorld _

theorem keeps_remark (r : Remark) : Keeps R (remark r) := by
  cases r with
  | reading n => exact keeps_onWorld _
  | kept name value => exact keeps_log _ _

/-- What is done with the tables of a makefile changes them, and is remarked on. -/
theorem onScopes_at
    (hx : R s
      { s with makefile := { s.makefile with scopes := (x.run (s.makefile.scopes, [])).2.1 } }) :
    R s ((onScopes x).run s).2 := by
  refine keeps_bind_gives (keeps_makefile s) fun mk s1 hmk => ?_
  replace hmk := hmk.of_get
  cases hmk
  rcases hrun : x.run (s.makefile.scopes, []) with ⟨r, scopes, remarks⟩
  rw [hrun] at hx
  refine keeps_bind_at hx fun _ => ?_
  exact keeps_bind (keeps_forM keeps_remark) fun _ => keeps_ofExcept r

theorem keeps_onScopes_alike (hx : Keeps ScopeM.Alike x) : Keeps R (onScopes x) :=
  fun s => onScopes_at (EvaluationFrame.values s _ (hx (s.makefile.scopes, [])))

omit [EvaluationFrame R] in
theorem keeps_onScopes [VariableFrame R] (x : ScopeM α) : Keeps R (onScopes x) :=
  fun s => onScopes_at (VariableFrame.scopes s _)

theorem keeps_reading (p : ParseM α) : Keeps R (reading p) := by
  unfold reading
  rcases p.outcome with ⟨r, notices⟩
  exact keeps_bind (keeps_forM fun n => keeps_remark _) fun _ => keeps_ofExcept r

end Small

/-- The tables of variables stay as they are. -/
def SameTables (s s' : Session) : Prop := s'.makefile.scopes = s.makefile.scopes

instance : IsPreorder Session SameTables where
  refl _ := rfl
  trans _ _ _ h₁ h₂ := h₂.trans h₁

theorem sameTables_remark (r : Remark) : Keeps SameTables (remark r) := by
  cases r with
  | reading n => exact keeps_modify fun _ => rfl
  | kept name value => exact keeps_modify fun _ => rfl

theorem onScopes_gives {a : α} {s' : Session} (h : Gives (onScopes x) s a s') :
    ∃ rs, Gives x (s.makefile.scopes, []) a (s'.makefile.scopes, rs) := by
  obtain ⟨mk, s1, hmk, h⟩ := h.of_bind
  replace hmk := hmk.of_get
  cases hmk
  rcases hx : x.run (s.makefile.scopes, []) with ⟨r, sc, rs⟩
  rw [hx] at h
  obtain ⟨_, s2, hupdate, h⟩ := h.of_bind
  obtain ⟨_, s3, hremarks, h⟩ := h.of_bind
  obtain ⟨rfl, rfl⟩ := gives_ofExcept.1 h
  have hscopes : s3.makefile.scopes = sc := by
    rw [(keeps_forM sameTables_remark).of_gives hremarks, ← gives_modify.1 hupdate]
  exact ⟨rs, by rw [hscopes]; exact hx⟩

end MakeM

namespace Scope

variable [EvaluationFrame R]

theorem keeps_lookup : Keeps R (sc.lookup name) := by
  unfold lookup
  split
  · exact keeps_pure _
  · exact MakeM.keeps_onScopes_alike (ScopeM.keeps_lookup _ _)

theorem keeps_raw : Keeps R (sc.raw? name) := by
  unfold raw?
  split
  · exact keeps_pure _
  · exact keeps_return MakeM.keeps_makefile

theorem keeps_define (value : Text) : Keeps R (sc.define name value) := by
  refine keeps_bind (keeps_lookup sc name) fun old => ?_
  refine keeps_bind (MakeM.keeps_onScopes_alike (ScopeM.keeps_mayReplace _ _ _ _)) fun yes => ?_
  split <;> exact keeps_pure _

end Scope

/-! ## Expansions without `eval` -/

mutual

/-- Nothing in the expansion is a call of `eval`. -/
def Expansion.evalFree : Expansion → Bool
  | .literal _ _ => true
  | .sequence xs _ => Item.evalFree xs

/-- Nothing in the items is a call of `eval`. -/
def Item.evalFree : List Item → Bool
  | [] => true
  | .text _ :: rest => Item.evalFree rest
  | .ref r :: rest => r.evalFree && Item.evalFree rest

/-- The reference is no call of `eval`, and nothing in it is. -/
def Reference.evalFree : Reference → Bool
  | .variable _ n => n.evalFree
  | .substitution _ n p r => n.evalFree && p.evalFree && r.evalFree
  | .call _ f args => f != .eval && Expansion.evalFreeArgs args

/-- Nothing in the arguments is a call of `eval`. -/
def Expansion.evalFreeArgs : List Expansion → Bool
  | [] => true
  | e :: rest => e.evalFree && Expansion.evalFreeArgs rest

end

/-! ## Evaluation -/

/-- The computation may give a value in a state in `I`. -/
def Yields (I : Session → Prop) (x : MakeM α) (a : α) : Prop :=
  ∃ s s' : Session, I s ∧ Gives x s a s'

/-- A relation between computations that holds of each that only looks at variables and files and
itself, and that goes through binds, for the values that come up in states in `I`. -/
class Congruence (P : ∀ α : Type, MakeM α → MakeM α → Prop) (I : outParam (Session → Prop)) :
    Prop where
  congr_same : ∀ {α : Type} {x : MakeM α},
    (∀ (R : Session → Session → Prop) [EvaluationFrame R], Keeps R x) → P α x x
  congr_bind : ∀ {α β : Type} {x y : MakeM α} {f g : α → MakeM β}, P α x y →
    (∀ a, Yields I x a → P β (f a) (g a)) → P β (x >>= f) (y >>= g)

export Congruence (congr_same congr_bind)

/-- Evaluate what a computation gives as statements, unless all makefiles are read. -/
def Evaluate.evalOf (b : Below) (sc : Scope) (loc : Option Location) (x : MakeM Text) :
    MakeM Text := do
  if (← MakeM.makefile).finished then throw (.refused .evalAfterParsing loc)
  ofText b sc loc .eval (← x)

/-- One level down, evaluation keeps a relation, and so does `eval`. -/
structure Below.KeepsFrame (R : Session → Session → Prop) (b : Below) : Prop where
  expand : ∀ sc setting e, Keeps R (b.expand sc setting e)
  eval : ∀ (x : MakeM Text) sc loc, Keeps R x → Keeps R (Evaluate.evalOf b sc loc x)

namespace Evaluate

open MakeM

section

variable [EvaluationFrame R]

theorem keeps_guardSelf (setting : List Text) (name : Text) (loc : Option Location) :
    Keeps R (guardSelf setting name loc) := by
  unfold guardSelf
  split
  · exact keeps_throw _
  · exact keeps_pure _

theorem keeps_bindingOf (loc : Option Location) : Keeps R (bindingOf sc name loc) := by
  refine keeps_bind (sc.keeps_lookup name) fun found => ?_
  split
  · exact keeps_return (keeps_log _ _)
  · exact keeps_pure _

theorem keeps_shell (line : Text) (loc : Option Location) : Keeps R (shell line loc) := by
  refine keeps_bind keeps_makefile fun mk => keeps_bind (keeps_act _) fun launch => ?_
  refine keeps_bind keeps_world fun w => ?_
  dsimp only
  split
  · exact keeps_throw _
  · refine keeps_bind (keeps_log _ _) fun _ => keeps_bind keeps_world fun w => ?_
    rcases w.spawn launch.argv launch.executable mk.env mk.workdir true with ⟨w', r⟩
    refine keeps_bind (keeps_onWorld _) fun _ => ?_
    split
    · exact keeps_pure _
    · exact keeps_return (keeps_onWorld _)
    · exact keeps_throw _

theorem keeps_ofFiles (f : Builtin) (s : Text) : Keeps R (ofFiles f s) := by
  refine keeps_bind keeps_makefile fun mk => keeps_bind keeps_world fun w => ?_
  split
  · refine keeps_return (keeps_mapM fun p => ?_)
    split
    · exact keeps_pure _
    · exact keeps_throw _
  · exact keeps_pure _
  · exact keeps_pure _

theorem keeps_ofText (b : Below) (sc : Scope) (loc : Option Location) {f : Builtin}
    (hf : f ≠ .eval) (s : Text) : Keeps R (ofText b sc loc f s) := by
  unfold ofText
  split
  · exact keeps_return (sc.keeps_raw s)
  · exact keeps_return (sc.keeps_lookup s)
  · exact keeps_return (sc.keeps_lookup s)
  · cases hf rfl
  · exact keeps_shell s loc
  · exact keeps_throw _
  · exact keeps_return (keeps_log _ _)
  · exact keeps_return (keeps_onWorld _)
  · exact keeps_ofFiles f s

end

section Congruence

variable {I : Session → Prop} {sc inner : Scope} {setting : List Text} {name : Text} {b d : Below}
  {loc : Option Location}

theorem outer_of_define {value : Text} (h : Yields I (sc.define name value) inner) :
    inner.outer = sc.outer := by
  obtain ⟨s, s', -, h⟩ := h
  obtain ⟨old, s1, -, h⟩ := h.of_bind
  obtain ⟨yes, s2, -, h⟩ := h.of_bind
  split at h <;> · obtain ⟨rfl, -⟩ := gives_pure.1 h; rfl

theorem not_mem_of_guardSelf {u : Unit} (h : Yields I (guardSelf setting name loc) u) :
    name ∉ setting := by
  obtain ⟨s, s', -, h⟩ := h
  unfold guardSelf at h
  split at h
  · cases h
  · simpa using ‹¬ setting.contains name = true›

theorem lookup_of_bindingOf {v : Option Binding} (h : Yields I (bindingOf sc name loc) v) :
    Yields I (sc.lookup name) v := by
  obtain ⟨s, s', hs, h⟩ := h
  obtain ⟨found, s1, hfound, h⟩ := h.of_bind
  have hv : found = v := by
    split at h
    · obtain ⟨_, s2, -, h⟩ := h.of_bind
      exact (gives_pure.1 h).1
    · exact (gives_pure.1 h).1
  exact ⟨s, s1, hs, hv ▸ hfound⟩

/-- Only `eval` goes one level down for what it does with a text. -/
theorem ofText_eq {f : Builtin} (hf : f ≠ .eval) (sc : Scope) (loc : Option Location) (s : Text) :
    ofText b sc loc f s = ofText d sc loc f s := by
  cases f <;> first | rfl | cases hf rfl

theorem outer_of_parameters {result : Scope} {args : List Expansion} {i : Nat}
    (h : Yields I (parameters b sc setting inner i args) result) : result.outer = inner.outer := by
  obtain ⟨s, s', -, h⟩ := h
  induction args generalizing inner i s with
  | nil =>
    cases h
    rfl
  | cons a rest ih =>
    obtain ⟨t, s1, -, h⟩ := h.of_bind
    obtain ⟨inner1, s2, hdefine, h⟩ := h.of_bind
    rw [ih s2 h]
    exact outer_of_define (I := fun _ => True) ⟨s1, s2, trivial, hdefine⟩

/-- Both parts are free of `eval`, unless that does not matter. -/
theorem both_of_and {E : Prop} {x y : Bool} (h : E ∨ (x && y) = true) :
    (E ∨ x = true) ∧ (E ∨ y = true) := by
  rwa [← or_and_left, ← Bool.and_eq_true_iff]

variable {P : ∀ α : Type, MakeM α → MakeM α → Prop} [hP : Congruence P I]
  {chain : List ScopeName} {E : Prop}

include hP

theorem congr_pure (a : α) : P α (pure a) (pure a) := congr_same fun _ _ => keeps_pure a

theorem congr_throw (e : Error) : P α (throw e) (throw e) := congr_same fun _ _ => keeps_throw e

theorem congr_ofExcept (r : Except Error α) : P α (ofExcept r) (ofExcept r) :=
  congr_same fun _ _ => keeps_ofExcept r

theorem congr_mapM {f g : α → MakeM β} (hf : ∀ a, P β (f a) (g a)) (l : List α) :
    P _ (l.mapM f) (l.mapM g) := by
  induction l with
  | nil => exact congr_pure []
  | cons a l ih =>
    rw [List.mapM_cons, List.mapM_cons]
    exact congr_bind (hf a) fun b _ => congr_bind ih fun bs _ => congr_pure _

-- what is asked of the values of variables in a chain of tables, and of `eval`, unless it is not
-- called
variable (hvalue : ∀ {sc sc' : Scope} {name : Text} {v : Binding}, sc.outer = chain →
  sc'.outer = chain →
    name ∉ setting → Yields I (sc.lookup name) (some v) →
    P _ (valueOf b sc' (setting ++ [name]) v.value) (valueOf d sc' (setting ++ [name]) v.value))
  (heval : E → ∀ {x y : MakeM Text} sc loc, P _ x y → P _ (evalOf b sc loc x) (evalOf d sc loc y))

include hvalue heval

set_option linter.unusedSectionVars false

mutual

/-- **Evaluation goes alike with what is alike one level down.** -/
theorem congr_expansion {sc : Scope} (hsc : sc.outer = chain) :
    ∀ e : Expansion, E ∨ e.evalFree = true →
    P _ (expansion b sc setting e) (expansion d sc setting e)
  | .literal s _, _ => congr_pure s
  | .sequence xs _, he => congr_items hsc xs he

theorem congr_items {sc : Scope} (hsc : sc.outer = chain) :
    ∀ xs : List Item, E ∨ Item.evalFree xs = true →
    P _ (items b sc setting xs) (items d sc setting xs)
  | [], _ => congr_pure []
  | .text _ :: rest, he => congr_bind (congr_items hsc rest he) fun _ _ => congr_pure _
  | .ref r :: rest, he => by
    obtain ⟨hr, hrest⟩ := both_of_and he
    exact congr_bind (congr_reference hsc r hr) fun _ _ =>
      congr_bind (congr_items hsc rest hrest) fun _ _ => congr_pure _

theorem congr_reference {sc : Scope} (hsc : sc.outer = chain) :
    ∀ r : Reference, E ∨ r.evalFree = true →
    P _ (reference b sc setting r) (reference d sc setting r)
  | .variable loc n, he => by
    refine congr_bind (congr_expansion hsc n he) fun name _ => ?_
    refine congr_bind (congr_same fun _ _ => keeps_guardSelf setting name loc) fun _ hguard => ?_
    refine congr_bind (congr_same fun _ _ => keeps_bindingOf sc name loc) fun v hv => ?_
    cases v with
    | none => exact congr_pure _
    | some v => exact hvalue hsc hsc (not_mem_of_guardSelf hguard) (lookup_of_bindingOf hv)
  | .substitution loc n p r, he => by
    obtain ⟨hnp, hr⟩ := both_of_and he
    obtain ⟨hn, hp⟩ := both_of_and hnp
    refine congr_bind (congr_expansion hsc n hn) fun name _ => ?_
    refine congr_bind (congr_same fun _ _ => keeps_guardSelf setting name loc) fun _ hguard => ?_
    refine congr_bind (congr_expansion hsc p hp) fun old _ => ?_
    refine congr_bind (congr_expansion hsc r hr) fun new _ => ?_
    refine congr_bind (congr_same fun _ _ => keeps_bindingOf sc name loc) fun v hv => ?_
    cases v with
    | none => exact congr_pure _
    | some v =>
      refine congr_bind (congr_ofExcept _) fun _ _ => congr_bind ?_ fun _ _ =>
        congr_bind (congr_ofExcept _) fun _ _ => congr_pure _
      exact hvalue hsc hsc (not_mem_of_guardSelf hguard) (lookup_of_bindingOf hv)
  | .call loc f args, he => by
    obtain ⟨hf, hargs⟩ := both_of_and he
    unfold reference
    split
    · exact congr_textual hsc _ [] args hargs
    · exact congr_special hsc loc (hf.imp_right fun h => by simpa using h) args hargs

theorem congr_textual {sc : Scope} (hsc : sc.outer = chain)
    (g : List Text → Except Error (Text → Except Error Text)) (early : List Text) :
    ∀ args : List Expansion, E ∨ Expansion.evalFreeArgs args = true →
      P _ (textual b sc setting g early args) (textual d sc setting g early args)
  | [], _ => congr_throw _
  | [last], he =>
    congr_bind (congr_ofExcept _) fun _ _ =>
      congr_bind (congr_expansion hsc last (both_of_and he).1) fun _ _ => congr_ofExcept _
  | a :: a' :: rest, he =>
    congr_bind (congr_expansion hsc a (both_of_and he).1) fun s _ =>
      congr_textual hsc g (early ++ [s]) (a' :: rest) (both_of_and he).2

theorem congr_special {sc : Scope} (hsc : sc.outer = chain) (loc : Option Location) {f : Builtin}
    (hf : E ∨ f ≠ .eval) : ∀ args : List Expansion, E ∨ Expansion.evalFreeArgs args = true →
      P _ (special b sc setting loc f args) (special d sc setting loc f args)
  | [], _ => congr_throw _
  | a :: rest, he => by
    obtain ⟨ha, hrest⟩ := both_of_and he
    replace ha := congr_expansion hsc a ha
    unfold special
    split
    · refine congr_bind ha fun s _ => ?_
      split
      · exact congr_otherwise hsc rest hrest
      · exact congr_chosen hsc rest hrest
    · refine congr_bind ha fun s _ => ?_
      split
      · exact congr_firstText hsc rest hrest
      · exact congr_pure _
    · refine congr_bind ha fun s _ => ?_
      split
      · exact congr_pure _
      · exact congr_lastText hsc s rest hrest
    · exact congr_bind ha fun name _ => congr_foreach hsc name rest hrest
    · refine congr_bind ha fun name _ => ?_
      split
      · exact congr_throw _
      rename_i hname
      refine congr_bind (congr_same fun _ _ => sc.keeps_define _ _) fun inner hinner => ?_
      refine congr_bind (congr_parameters hsc inner 1 rest hrest) fun inner' hinner' => ?_
      refine congr_bind (congr_same fun _ _ => sc.keeps_lookup name) fun v hv => ?_
      cases v with
      | none => exact congr_pure _
      | some v =>
        have houter := (outer_of_parameters hinner').trans ((outer_of_define hinner).trans hsc)
        have hin := hvalue hsc houter (by simpa using hname) hv
        dsimp only
        split
        · exact congr_bind (congr_same fun _ _ => keeps_log _ _) fun _ _ => hin
        · exact hin
    · by_cases hne : f = .eval
      · subst hne
        exact heval (hf.resolve_right (not_not.2 rfl)) sc loc ha
      refine congr_bind (congr_same fun _ _ => keeps_makefile) fun mk _ => ?_
      split
      · exact congr_throw _
      · refine congr_bind ha fun s _ => ?_
        rw [show ofText b sc loc f s = ofText d sc loc f s from ofText_eq hne sc loc s]
        exact congr_same fun _ _ => keeps_ofText d sc loc hne s

theorem congr_chosen {sc : Scope} (hsc : sc.outer = chain) :
    ∀ args : List Expansion, E ∨ Expansion.evalFreeArgs args = true →
      P _ (chosen b sc setting args) (chosen d sc setting args)
  | [], _ => congr_throw _
  | a :: _, he => congr_expansion hsc a (both_of_and he).1

theorem congr_otherwise {sc : Scope} (hsc : sc.outer = chain) :
    ∀ args : List Expansion, E ∨ Expansion.evalFreeArgs args = true →
      P _ (otherwise b sc setting args) (otherwise d sc setting args)
  | [], _ => congr_pure _
  | [_], _ => congr_pure _
  | _ :: a :: _, he => congr_expansion hsc a (both_of_and (both_of_and he).2).1

theorem congr_firstText {sc : Scope} (hsc : sc.outer = chain) :
    ∀ args : List Expansion, E ∨ Expansion.evalFreeArgs args = true →
      P _ (firstText b sc setting args) (firstText d sc setting args)
  | [], _ => congr_pure _
  | a :: rest, he => by
    refine congr_bind (congr_expansion hsc a (both_of_and he).1) fun s _ => ?_
    split
    · exact congr_firstText hsc rest (both_of_and he).2
    · exact congr_pure _

theorem congr_lastText {sc : Scope} (hsc : sc.outer = chain) (last : Text) :
    ∀ args : List Expansion, E ∨ Expansion.evalFreeArgs args = true →
      P _ (lastText b sc setting last args) (lastText d sc setting last args)
  | [], _ => congr_pure _
  | a :: rest, he => by
    refine congr_bind (congr_expansion hsc a (both_of_and he).1) fun s _ => ?_
    split
    · exact congr_pure _
    · exact congr_lastText hsc s rest (both_of_and he).2

theorem congr_foreach {sc : Scope} (hsc : sc.outer = chain) (name : Text) :
    ∀ args : List Expansion, E ∨ Expansion.evalFreeArgs args = true →
      P _ (foreach b sc setting name args) (foreach d sc setting name args)
  | [], _ => congr_throw _
  | [_], _ => congr_throw _
  | list :: body :: _, he => by
    obtain ⟨hlist, hrest⟩ := both_of_and he
    refine congr_bind (congr_expansion hsc list hlist) fun s _ => ?_
    have hw : ∀ w, ({ sc with locals := (name, w) :: sc.locals } : Scope).outer = chain :=
      fun _ => hsc
    have hm := congr_mapM (fun w => congr_expansion (hw w) body (both_of_and hrest).1) s.words
    dsimp only
    split
    · exact congr_bind (congr_same fun _ _ => keeps_map (sc.keeps_lookup name)) fun _ _ =>
        congr_bind hm fun _ _ => congr_pure _
    · exact congr_bind hm fun _ _ => congr_pure _

theorem congr_parameters {sc : Scope} (hsc : sc.outer = chain) (inner : Scope) (i : Nat) :
    ∀ args : List Expansion, E ∨ Expansion.evalFreeArgs args = true →
      P _ (parameters b sc setting inner i args) (parameters d sc setting inner i args)
  | [], _ => congr_pure _
  | a :: rest, he => by
    refine congr_bind (congr_expansion hsc a (both_of_and he).1) fun s _ => ?_
    refine congr_bind (congr_same fun _ _ => inner.keeps_define _ s) fun inner' _ => ?_
    exact congr_parameters hsc inner' (i + 1) rest (both_of_and he).2

end

end Congruence

instance [EvaluationFrame R] : Congruence (fun _ x _ => Keeps R x) fun _ => True where
  congr_same hx := hx R
  congr_bind hx hf := fun s => keeps_bind_gives (hx s) fun a s₁ h => hf a ⟨s, s₁, trivial, h⟩ s₁

theorem keeps_expansion [EvaluationFrame R] {b : Below} (hb : b.KeepsFrame R) (sc : Scope)
    (setting : List Text) (e : Expansion) : Keeps R (expansion b sc setting e) := by
  refine congr_expansion (P := fun _ x _ => Keeps R x) (d := b) (fun _ _ _ _ => ?_)
    (fun _ _ _ sc loc hx => hb.eval _ sc loc hx) (rfl : sc.outer = _) e (.inl trivial)
  unfold valueOf
  split
  · exact keeps_pure _
  · exact hb.expand _ _ _

end Evaluate

/-! ## Variables that do not change, and a makefile that was read -/

/-- No variable of the makefile changes its value. -/
def SameVariables (s s' : Session) : Prop := s.makefile.scopes.SameValues s'.makefile.scopes

instance : EvaluationFrame SameVariables where
  refl _ := Scopes.sameValues_refl _
  trans _ _ _ := Scopes.SameValues.trans
  world _ _ := Scopes.sameValues_refl _
  values _ _ h := h

/-- Of a makefile all of which was read only the tables of variables may change, and no value in
them. -/
def Frozen (s s' : Session) : Prop :=
  s.makefile.finished = true → s'.makefile = { s.makefile with scopes := s'.makefile.scopes } ∧
    s.makefile.scopes.SameValues s'.makefile.scopes

instance : EvaluationFrame Frozen where
  refl _ _ := ⟨rfl, Scopes.sameValues_refl _⟩
  trans s₁ s₂ s₃ h₁ h₂ hf := by
    obtain ⟨e₁, v₁⟩ := h₁ hf
    obtain ⟨e₂, v₂⟩ := h₂ (by rw [e₁]; exact hf)
    exact ⟨by rw [e₂, e₁], v₁.trans v₂⟩
  world _ _ _ := ⟨rfl, Scopes.sameValues_refl _⟩
  values _ _ hx _ := ⟨rfl, hx⟩

namespace Below

/-- After all was read `eval` is refused, and before that nothing is asked. -/
theorem keeps_eval_frozen (b : Below) (x : MakeM Text) (sc : Scope) (loc : Option Location) :
    Keeps Frozen (Evaluate.evalOf b sc loc x) := by
  intro s
  by_cases hf : s.makefile.finished = true
  · have hm : Gives MakeM.makefile s s.makefile s := rfl
    have ht : Fails (Evaluate.evalOf b sc loc x) s (.refused .evalAfterParsing loc) s := by
      refine fails_bind.2 (.inr ⟨_, _, hm, ?_⟩)
      simp only [hf, if_true]
      exact fails_bind.2 (.inl (fails_throw.2 ⟨rfl, rfl⟩))
    rw [ht]
    exact refl_of Frozen s
  · exact fun hf' => absurd hf' hf

theorem keepsFrame_frozen (n : Nat) : (levels n).KeepsFrame Frozen := by
  induction n with
  | zero => exact ⟨fun _ _ _ => keeps_throw _, fun x sc loc _ => keeps_eval_frozen _ x sc loc⟩
  | succ n ih =>
    exact ⟨fun sc setting e => Evaluate.keeps_expansion ih sc setting e,
      fun x sc loc _ => keeps_eval_frozen _ x sc loc⟩

end Below

namespace MakeM

theorem keeps_below [EvaluationFrame R] {f : Below → MakeM α} (hf : ∀ n, Keeps R (f (.levels n))) :
    Keeps R (below >>= f) := by
  unfold below
  rw [bind_assoc]
  refine keeps_bind keeps_makefile fun mk => ?_
  rw [pure_bind]
  exact hf _

theorem keeps_expand [EvaluationFrame R] (hb : ∀ n, (Below.levels n).KeepsFrame R) (sc : Scope)
    (setting : List Text) (e : Expansion) : Keeps R (expand sc setting e) :=
  keeps_below fun n => Evaluate.keeps_expansion (hb n) sc setting e

end MakeM

end Rebuild
