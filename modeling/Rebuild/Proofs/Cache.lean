import Mathlib.Data.List.Nodup
import Rebuild.Proofs.Makefile.Frame
/-!
# The cache of makefiles

A request to a cache is answered with the remembered value if that is accepted, else with what is
created now. It leaves the cache sound: no key is active twice, there are no more active keys than
places, and the keys that have a value are active; and a key that lost its place was asked for no
more often than any active one (`Sound.get`). A creation that gives no object leaves an active key
without a value (`missing_object_stays_active`); where each gives one, the active keys are those
with a value.

What is remembered of a makefile was read from its file at the time that is noted. So where the time
tells the content, reading through the cache is reading the file (`bounded_and_transparent`).
-/

namespace Rebuild

open List

namespace Cache

variable {α : Type} {c c' : Cache α} {key k : Text} {o : Option α}

/-! ## Values and counts -/

theorem item?_update {f : CacheItem α → CacheItem α} (hf : ∀ i, (f i).key = i.key) (c : Cache α)
    (key k : Text) :
    (c.update key f).item? k = if k = key then (c.item? k).map f else c.item? k := by
  have hkey (i : CacheItem α) : (if i.key == key then f i else i).key = i.key := by
    split
    · exact hf i
    · rfl
  simp only [item?, update, find?_map, Function.comp_def, hkey]
  cases hi : c.items.find? (·.key == k) with
  | none => simp
  | some i =>
    have hk : i.key = k := by simpa using find?_some hi
    by_cases h : k = key <;> simp [hk, h]

theorem item?_request (c : Cache α) (key k : Text) :
    (c.request key).item? k =
      if k = key then some (((c.item? k).map fun i => { i with count := i.count + 1 }).getD
        ⟨key, 1, none⟩)
      else c.item? k := by
  unfold request
  split
  · rename_i i hi
    rw [item?_update (by exact fun _ => rfl)]
    by_cases h : k = key <;> simp [h, hi]
  · rename_i hi
    by_cases h : k = key
    · rw [h, hi]
      unfold item? at hi ⊢
      simp [find?_append, hi]
    · simp [item?, find?_append, h, Ne.symm h]

theorem value?_request (c : Cache α) (key k : Text) : (c.request key).value? k = c.value? k := by
  rw [value?, item?_request]
  split
  · cases hi : c.item? k <;> simp [value?, hi]
  · rfl

theorem places_request (c : Cache α) (key : Text) :
    (c.request key).active = c.active ∧ (c.request key).capacity = c.capacity := by
  unfold request
  split <;> exact ⟨rfl, rfl⟩

/-- The cache with another value of a key, or none. -/
def setValue (c : Cache α) (key : Text) (o : Option α) : Cache α :=
  c.update key fun i => { i with value := o }

theorem countOf_setValue (c : Cache α) (key k : Text) (o : Option α) :
    (c.setValue key o).countOf k = c.countOf k := by
  rw [countOf, setValue, item?_update (by exact fun _ => rfl)]
  split
  · cases hi : c.item? k <;> simp [countOf, hi]
  · rfl

theorem value?_setValue (c : Cache α) (key k : Text) (o : Option α) :
    (c.setValue key o).value? k = if k = key then (c.item? k).bind fun _ => o else c.value? k := by
  rw [value?, setValue, item?_update (by exact fun _ => rfl)]
  split
  · cases hi : c.item? k <;> simp
  · rfl

/-! ## Sound caches -/

/-- No key is active twice, there is a place for each, and the keys that have a value are active. -/
structure Sound (c : Cache α) : Prop where
  bound : c.active.length ≤ c.capacity
  nodup : c.active.Nodup
  active : ∀ k, (c.value? k).isSome = true → k ∈ c.active

/-- Each active key has a value. -/
def Full (c : Cache α) : Prop := ∀ k ∈ c.active, (c.value? k).isSome = true

/-- The least used active key comes first. -/
theorem byUse_cons {old : Text} {rest : List Text} (h : c.byUse = old :: rest) :
    (old :: rest).Perm c.active ∧ ∀ k ∈ c.active, c.countOf old ≤ c.countOf k := by
  have hperm : (old :: rest).Perm c.active := h ▸ mergeSort_perm _ _
  have hsorted : (old :: rest).Pairwise fun a b => decide (c.countOf a ≤ c.countOf b) = true := by
    rw [← h]
    refine pairwise_mergeSort (fun a b d hab hbd => ?_) (fun a b => ?_) _
    · rw [decide_eq_true_eq] at hab hbd ⊢
      exact Nat.le_trans hab hbd
    · simpa using Nat.le_total _ _
  refine ⟨hperm, fun k hk => ?_⟩
  rcases mem_cons.1 (hperm.mem_iff.2 hk) with rfl | hk
  · exact Nat.le_refl _
  · exact of_decide_eq_true (rel_of_pairwise_cons hsorted hk)

/-- What a request for a key leaves: a sound cache in which only what is returned may be new. Where
an object is missing, the key has a place without a value; else each active key has a value if each
had one. A key that lost its place was used no more often than any active one. -/
structure Asked (c c' : Cache α) (key : Text) (r : Except Error (Option α)) : Prop where
  sound : c'.Sound
  capacity : c'.capacity = c.capacity
  values : ∀ k v, c'.value? k = some v → c.value? k = some v ∨ k = key ∧ r = .ok (some v)
  full : c.Full → r ≠ .ok none → c'.Full
  missing : r = .ok none → key ∈ c'.active ∧ c'.value? key = none
  evicted : ∀ k ∈ c.active, k ∉ c'.active → ∀ k' ∈ c.active, c'.countOf k ≤ c'.countOf k'

/-- A request that creates nothing is counted only. -/
theorem Sound.asked (h : c.Sound) (key : Text) {r : Except Error (Option α)} (hr : r ≠ .ok none) :
    c.Asked (c.request key) key r := by
  obtain ⟨hactive, hcapacity⟩ := places_request c key
  refine ⟨⟨?_, ?_, fun k hk => ?_⟩, hcapacity, fun k v hv => ?_, fun hfull _ k hk => ?_,
    fun hnone => absurd hnone hr, fun k hk hno => ?_⟩
  · rw [hactive, hcapacity]
    exact h.bound
  · exact hactive ▸ h.nodup
  · rw [hactive]
    exact h.active k (value?_request c key k ▸ hk)
  · exact .inl (value?_request c key k ▸ hv)
  · rw [value?_request]
    exact hfull k (hactive ▸ hk)
  · exact absurd (hactive ▸ hk) hno

/-- A key got a place and an object, or none, and least used keys have lost theirs. -/
theorem Sound.asked_of (h : c.Sound) (gone : List Text) (hcapacity : c'.capacity = c.capacity)
    (hbound : c'.active.length ≤ c.capacity) (hnodup : c'.active.Nodup)
    (hactive : ∀ k, k ∈ c'.active ↔ k = key ∨ k ∈ c.active ∧ k ∉ gone)
    (hvalue : ∀ k, c'.value? k = if k = key then o else if k ∈ gone then none else c.value? k)
    (hleast : ∀ k ∈ gone, ∀ k' ∈ c.active, c'.countOf k ≤ c'.countOf k') :
    c.Asked c' key (.ok o) := by
  refine ⟨⟨hcapacity ▸ hbound, hnodup, fun k hk => ?_⟩, hcapacity, fun k v hv => ?_,
    fun hfull hr k hk => ?_, fun hnone => ?_, fun k hk hno => hleast k ?_⟩
  · rw [hvalue] at hk
    rw [hactive]
    split_ifs at hk with hkey hgone
    · exact .inl hkey
    · cases hk
    · exact .inr ⟨h.active k hk, hgone⟩
  · rw [hvalue] at hv
    split_ifs at hv with hk
    · exact .inr ⟨hk, congrArg _ hv⟩
    · exact .inl hv
  · have hobject : o.isSome = true := by
      cases o with
      | none => exact absurd rfl hr
      | some v => rfl
    rw [hvalue]
    rcases (hactive k).1 hk with rfl | ⟨hk, hstays⟩
    · simpa using hobject
    · split_ifs
      · exact hobject
      · exact hfull k hk
  · obtain rfl := Except.ok.inj hnone
    exact ⟨(hactive key).2 (.inl rfl), by rw [hvalue, if_pos rfl]⟩
  · by_contra hstays
    exact hno ((hactive k).2 (.inr ⟨hk, hstays⟩))

/-- **What was created gets a place**, also if there is no object. -/
theorem Sound.store (h : c.Sound) (hplace : 1 ≤ c.capacity) (key : Text) (o : Option α) :
    ∃ c', (c.request key).store key o = (c', .ok ()) ∧ c.Asked c' key (.ok o) := by
  obtain ⟨hactive, hcapacity⟩ := places_request c key
  -- The cache `d` has the value, and is sound but for the place of its key.
  obtain ⟨d, hd⟩ : ∃ d, d = (c.request key).setValue key o := ⟨_, rfl⟩
  have hvalue (k : Text) : d.value? k = if k = key then o else c.value? k := by
    rw [hd, value?_setValue, value?_request, item?_request]
    split <;> rfl
  replace hactive : d.active = c.active := hd ▸ hactive
  replace hcapacity : d.capacity = c.capacity := hd ▸ hcapacity
  -- With a place for the key the value is stored.
  suffices hplace : ∃ c', d.activate key = .ok c' ∧ c.Asked c' key (.ok o) by
    obtain ⟨c', hc', hasked⟩ := hplace
    refine ⟨c', ?_, hasked⟩
    rw [Cache.store, ← setValue, ← hd, hc']
  have hplaced {rest : List Text} (hrest : rest.Nodup) (hkey : key ∉ rest) :
      (rest ++ [key]).Nodup := by
    rw [nodup_append_comm, singleton_append, nodup_cons]
    exact ⟨hkey, hrest⟩
  unfold activate
  rw [hactive, hcapacity]
  by_cases hmem : key ∈ c.active
  · rw [if_pos (by simpa using hmem)]
    refine ⟨d, rfl, h.asked_of [] hcapacity (hactive ▸ h.bound) (hactive ▸ h.nodup) (fun k => ?_)
      (by simpa using hvalue) nofun⟩
    rw [hactive]
    by_cases hk : k = key <;> simp [hk, hmem]
  rw [if_neg (by simpa using hmem)]
  by_cases hfull : c.active.length = c.capacity
  · rw [if_pos hfull]
    cases huse : d.byUse with
    | nil =>
      have hlength := (mergeSort_perm d.active _).length_eq.symm.trans (congrArg length huse)
      rw [hactive, hfull] at hlength
      exact absurd (hlength ▸ hplace) (by decide)
    | cons old rest =>
      obtain ⟨hperm, hleast⟩ := byUse_cons huse
      rw [hactive] at hperm hleast
      obtain ⟨hold, hrest⟩ := nodup_cons.1 (hperm.nodup_iff.2 h.nodup)
      have hkey : key ≠ old ∧ key ∉ rest := by simpa using mt hperm.mem_iff.1 hmem
      refine ⟨_, rfl, h.asked_of [old] hcapacity ?_ (hplaced hrest hkey.2) (fun k => ?_)
        (fun k => ?_)
        fun k hk k' hk' => ?_⟩
      · rw [length_append]
        exact Nat.le_of_eq (hperm.length_eq.trans hfull)
      · rw [← hperm.mem_iff]
        by_cases hk : k = old <;> simp [hk, hold, hkey.1.symm, or_comm]
      · change (d.setValue old none).value? k = _
        rw [value?_setValue, hvalue]
        by_cases hk : k = old
        · cases d.item? k <;> simp [hk, hkey.1.symm]
        · simp [hk]
      · change (d.setValue old none).countOf k ≤ (d.setValue old none).countOf k'
        rw [countOf_setValue, countOf_setValue, mem_singleton.1 hk]
        exact hleast k' hk'
  · rw [if_neg hfull]
    refine ⟨_, rfl, h.asked_of [] rfl ?_ (hplaced h.nodup hmem) (by simp [or_comm])
      (fun k => (hvalue k).trans (by simp)) nofun⟩
    rw [length_append]
    exact Nat.lt_of_le_of_ne h.bound hfull

/-! ## Requests -/

variable {σ : Type} {accept : α → StateM σ Bool} {s s' : σ}

/-- What a request returns: a remembered value that is accepted now, or what is created now. -/
inductive Answer (c : Cache α) (key : Text) (accept : α → StateM σ Bool)
    (create : StateM σ (Except Error (Option α))) (s : σ) : Except Error (Option α) → σ → Prop
  | accepted {v : α} {s' : σ} (known : c.value? key = some v)
      (yes : (accept v).run s = (true, s')) : Answer c key accept create s (.ok (some v)) s'
  | created {r : Except Error (Option α)} {s₁ s' : σ}
      (before : c.value? key = none ∧ s₁ = s ∨
        ∃ v, c.value? key = some v ∧ (accept v).run s = (false, s₁))
      (now : create.run s₁ = (r, s')) : Answer c key accept create s r s'

theorem run_bind_eq {β γ : Type} {x : StateM σ β} {f : β → StateM σ γ} {b : β}
    (h : x.run s = (b, s')) : (x >>= f).run s = (f b).run s' := by
  show (f (x.run s).1).run (x.run s).2 = _
  rw [h]

/-- **A step**: every request is answered, and leaves the cache sound. -/
theorem Sound.get (h : c.Sound) (hplace : 1 ≤ c.capacity) (key : Text)
    (accept : α → StateM σ Bool) (create : StateM σ (Except Error (Option α))) (s : σ) :
    ∃ c' r s', (c.get key accept create).run s = ((c', r), s') ∧
      c.Answer key accept create s r s' ∧ c.Asked c' key r := by
  unfold Cache.get
  dsimp only
  rw [value?_request]
  obtain ⟨o, s₁, ho, hcase⟩ : ∃ o s₁, (get.accepted accept (c.value? key)).run s = (o, s₁) ∧
      ((∃ v, o = some v ∧ c.value? key = some v ∧ (accept v).run s = (true, s₁)) ∨
        o = none ∧ (c.value? key = none ∧ s₁ = s ∨
          ∃ v, c.value? key = some v ∧ (accept v).run s = (false, s₁))) := by
    cases c.value? key with
    | none => exact ⟨none, s, rfl, .inr ⟨rfl, .inl ⟨rfl, rfl⟩⟩⟩
    | some v =>
      rcases hv : (accept v).run s with ⟨_ | _, s₁⟩
      · exact ⟨none, s₁, run_bind_eq hv, .inr ⟨rfl, .inr ⟨v, rfl, hv⟩⟩⟩
      · exact ⟨some v, s₁, run_bind_eq hv, .inl ⟨v, rfl, rfl, hv⟩⟩
  rw [run_bind_eq ho]
  rcases hcase with ⟨v, rfl, hknown, hyes⟩ | ⟨rfl, hbefore⟩
  · exact ⟨_, _, _, rfl, .accepted hknown hyes, h.asked key nofun⟩
  rcases hr : create.run s₁ with ⟨r, s'⟩
  dsimp only
  rw [run_bind_eq hr]
  cases r with
  | error e => exact ⟨_, _, _, rfl, .created hbefore hr, h.asked key nofun⟩
  | ok o =>
    obtain ⟨c', hstore, hasked⟩ := h.store hplace key o
    refine ⟨c', .ok o, s', ?_, .created hbefore hr, hasked⟩
    dsimp only
    rw [hstore]
    rfl

/-- The caches with `n` places that requests lead to which return what is `given`. -/
inductive Reached (n : Nat) (given : Except Error (Option α) → Prop) : Cache α → Prop
  | empty : Reached n given (.empty n)
  | get {c : Cache α} {σ : Type} (h : Reached n given c) (key : Text) (accept : α → StateM σ Bool)
      (create : StateM σ (Except Error (Option α))) (s : σ)
      (answer : given ((c.get key accept create).run s).1.2) :
      Reached n given ((c.get key accept create).run s).1.1

/-- **A run**: the cache stays sound, and each active key has a value if no object is missing. -/
theorem Reached.sound {n : Nat} {given : Except Error (Option α) → Prop} (hn : 1 ≤ n)
    (h : c.Reached n given) : c.Sound ∧ c.capacity = n ∧ (¬ given (.ok none) → c.Full) := by
  induction h with
  | empty =>
    have hempty : ∀ k, (Cache.empty n : Cache α).value? k = none := fun k => rfl
    refine ⟨⟨Nat.zero_le _, nodup_nil, fun k hk => ?_⟩, rfl, fun _ k hk => nomatch hk⟩
    rw [hempty] at hk
    cases hk
  | get _ key accept create s answer ih =>
    obtain ⟨hsound, hcapacity, hfull⟩ := ih
    obtain ⟨c', r, s', hrun, -, hasked⟩ := hsound.get (hcapacity.symm ▸ hn) key accept create s
    rw [hrun] at answer ⊢
    refine ⟨hasked.sound, hasked.capacity.trans hcapacity, fun hgiven => ?_⟩
    refine hasked.full (hfull hgiven) ?_
    rintro rfl
    exact hgiven answer

/-- Where every creation that does not fail gives an object, an object is returned. -/
theorem Sound.fetch (h : c.Sound) (hplace : 1 ≤ c.capacity) (key : Text)
    (accept : α → StateM σ Bool) (create : StateM σ (Except Error α)) (s : σ) :
    ∃ c' r s', (c.fetch key accept create).run s = ((c', r), s') ∧ c.Asked c' key (r.map some) ∧
      ((∃ v, c.value? key = some v ∧ (accept v).run s = (true, s') ∧ r = .ok v) ∨
        ∃ s₁, (c.value? key = none ∧ s₁ = s ∨
          ∃ v, c.value? key = some v ∧ (accept v).run s = (false, s₁)) ∧
          create.run s₁ = (r, s')) := by
  obtain ⟨c', r, s', hrun, hanswer, hasked⟩ :=
    h.get hplace key accept (do return (← create).map some) s
  have hfetch : ∀ r' : Except Error α, r = r'.map some →
      (c.fetch key accept create).run s = ((c', r'), s') := by
    rintro r' rfl
    rw [Cache.fetch, run_bind_eq hrun]
    cases r' <;> rfl
  cases hanswer with
  | @accepted v _ known yes =>
    exact ⟨c', .ok v, s', hfetch _ rfl, hasked, .inl ⟨v, known, yes, rfl⟩⟩
  | @created _ s₁ _ before now =>
    obtain ⟨rfl, rfl⟩ := Prod.mk.inj now
    exact ⟨c', (create.run s₁).1, _, hfetch _ rfl, hasked, .inr ⟨s₁, before, rfl⟩⟩

end Cache

/-! ## Makefiles -/

namespace Execute

variable {w w' : World} {path : Text} {content : Text → Time → FileResult Text}

/-- The statements of a makefile that was read from an absolute path. -/
def statementsOf (path : Text) : FileResult Text → Except Error (List Statement)
  | .ok s => (Statement.parse s path).outcome.1
  | .error e => .error (.file e path)

/-- A file holds now what its time says it does. -/
def Timed (content : Text → Time → FileResult Text) (w : World) (path : Text) : Prop :=
  ∀ t, w.files.mtime? w.cwd path = some t → w.files.read w.cwd path = content path t

/-- The worlds in which makefiles were read; all but the cache may change in between. -/
inductive HasRead (content : Text → Time → FileResult Text) : World → Prop
  | start {w : World} (fresh : w.parsed = .empty 50) : HasRead content w
  | read {w : World} (earlier : HasRead content w) {path : Text}
      (timed : Timed content w (Path.real w.cwd path)) :
      HasRead content ((readFile path).run w).2
  | change {w w' : World} (earlier : HasRead content w) (same : w'.parsed = w.parsed) :
      HasRead content w'

theorem mtime?_of_read {fs : Files} {cwd path text : Text} (h : fs.read cwd path = .ok text) :
    fs.mtime? cwd path ≠ none := by
  unfold Files.read at h
  unfold Files.mtime?
  cases hstat : fs.stat cwd path with
  | ok n => exact Option.some_ne_none _
  | error e =>
    rw [hstat] at h
    cases h

/-- A makefile comes from the cache, if the time of its file is the one noted there, or from its
file. -/
theorem readFile_cases (hsound : w.parsed.Sound) (hplace : 1 ≤ w.parsed.capacity) {q : Text}
    (hq : Path.real w.cwd path = q) :
    ∃ (c' : Cache ReadFile) (r : Except Error ReadFile) (w' : World),
      (readFile path).run w = (r.map (·.statements), { w' with parsed := c' }) ∧
      w.parsed.Asked c' q (r.map some) ∧
      ((∃ f, w.parsed.value? q = some f ∧ w.files.mtime? w.cwd q = some f.mtime ∧ r = .ok f) ∨
        r.map (·.statements) = statementsOf q (w.files.read w.cwd q) ∧
          ∀ f, r = .ok f → w.files.mtime? w.cwd q = some f.mtime) := by
  generalize hread : (readFile path).run w = x
  change readFile path w = x at hread
  unfold readFile at hread
  rw [hq] at hread
  extract_lets q' accept create at hread
  obtain ⟨c', r, w', hrun, hasked, hanswer⟩ := hsound.fetch hplace q accept create w
  rw [hrun] at hread
  refine ⟨c', r, w', hread.symm, hasked, ?_⟩
  rcases hanswer with ⟨f, known, yes, rfl⟩ | ⟨w₁, before, now⟩
  · refine .inl ⟨f, known, ?_, rfl⟩
    change accept f w = _ at yes
    simp only [accept] at yes
    split at yes
    · rename_i t ht
      split at yes
      · rename_i heq
        rw [ht, eq_of_beq heq]
      · cases yes
    · cases yes
  · have hw₁ : w.SameFiles w₁ := by
      rcases before with ⟨-, rfl⟩ | ⟨f, -, no⟩
      · exact refl_of World.SameFiles _
      · change accept f w = _ at no
        simp only [accept] at no
        split at no
        · split at no
          · cases no
          · obtain ⟨-, rfl⟩ := Prod.mk.inj no
            exact w.sameFiles_log ..
        · obtain ⟨-, rfl⟩ := Prod.mk.inj no
          exact refl_of World.SameFiles w
    change create w₁ = _ at now
    simp only [create, hw₁.1, hw₁.2] at now
    refine .inr ?_
    split at now
    · rename_i text t hfile htime
      obtain ⟨rfl, -⟩ := Prod.mk.inj now
      rw [hfile, htime, statementsOf]
      cases (Statement.parse text q).outcome.1 with
      | error e => exact ⟨rfl, nofun⟩
      | ok stmts => exact ⟨rfl, fun f hf => by cases hf; rfl⟩
    · rename_i e hfile
      obtain ⟨rfl, -⟩ := Prod.mk.inj now
      rw [hfile]
      exact ⟨rfl, nofun⟩
    · rename_i text hfile hnone
      exact absurd hnone (mtime?_of_read hfile)

/-- What is remembered of a makefile is what its file held at the time that is noted. -/
theorem HasRead.remembers (hw : HasRead content w) : w.parsed.Sound ∧ 1 ≤ w.parsed.capacity ∧
    ∀ q f, w.parsed.value? q = some f → statementsOf q (content q f.mtime) = .ok f.statements := by
  induction hw with
  | start fresh =>
    rw [fresh]
    have hempty : Cache.Reached 50 (fun _ => True) (.empty 50 : Cache ReadFile) := .empty
    exact ⟨(hempty.sound (by decide)).1, by decide, nofun⟩
  | change _ same ih => rwa [same]
  | @read w _ path timed ih =>
    obtain ⟨hsound, hplace, hremembers⟩ := ih
    obtain ⟨c', r, w', hrun, hasked, hcase⟩ := readFile_cases hsound hplace rfl
    rw [hrun]
    refine ⟨hasked.sound, hasked.capacity ▸ hplace, fun q f hf => ?_⟩
    rcases hasked.values q f hf with hold | ⟨rfl, hr⟩
    · exact hremembers q f hold
    · obtain rfl : r = .ok f := by
        cases r with
        | error e => cases hr
        | ok f' =>
          cases hr
          rfl
      rcases hcase with ⟨_, hold, -, ⟨⟩⟩ | ⟨hnow, htime⟩
      · exact hremembers _ f hold
      · rw [← timed _ (htime f rfl)]
        exact hnow.symm

end Execute

/-- **The cache of makefiles is bounded and transparent.** Whatever verification and creation did
and do, every request returns what is accepted or created in it; after it there are no more active
keys than places, none twice, the keys that have a value are active, and a key that lost its place
was used no more often than any active one (`Asked`). If no creation gave a missing object, exactly
the keys that have a value are active. Where the time of a makefile tells its content, reading it
gives the statements of the file as it is now. -/
theorem Cache.bounded_and_transparent :
    (∀ (α σ : Type) (n : Nat) (given : Except Error (Option α) → Prop) (c : Cache α) (key : Text)
        (accept : α → StateM σ Bool) (create : StateM σ (Except Error (Option α))) (s : σ),
      1 ≤ n → c.Reached n given →
        (∃ c' r s', (c.get key accept create).run s = ((c', r), s') ∧ c'.capacity = n ∧
          c.Asked c' key r ∧ c.Answer key accept create s r s') ∧
        (¬ given (.ok none) → ∀ k, k ∈ c.active ↔ (c.value? k).isSome = true)) ∧
    ∀ content w path, Execute.HasRead content w → Execute.Timed content w (Path.real w.cwd path) →
      ((Execute.readFile path).run w).1 =
        Execute.statementsOf (Path.real w.cwd path)
          (w.files.read w.cwd (Path.real w.cwd path)) := by
  refine ⟨fun α σ n given c key accept create s hn hc => ?_, fun content w path hw htimed => ?_⟩
  · obtain ⟨hsound, hcapacity, hfull⟩ := hc.sound hn
    obtain ⟨c', r, s', hrun, hanswer, hasked⟩ :=
      hsound.get (hcapacity.symm ▸ hn) key accept create s
    exact ⟨⟨c', r, s', hrun, hasked.capacity.trans hcapacity, hasked, hanswer⟩,
      fun hgiven k => ⟨hfull hgiven k, hsound.active k⟩⟩
  · obtain ⟨hsound, hplace, hremembers⟩ := hw.remembers
    obtain ⟨c', r, w', hrun, -, hcase⟩ := Execute.readFile_cases hsound hplace rfl
    rw [hrun]
    rcases hcase with ⟨f, hold, hnow, rfl⟩ | ⟨hnow, -⟩
    · rw [htimed _ hnow, hremembers _ f hold]
      rfl
    · exact hnow

/-- A cache with one place after a request that creates this object, or none. -/
def Sample.asked (o : Option Text) : Cache Text :=
  (((.empty 1 : Cache Text).get "j" (fun _ => pure true) (pure (.ok o)) : StateM Unit _).run ()).1.1

/-- A world in which no makefile was read yet. -/
def Sample.unread : World :=
  .fresh ⟨[(["m"], .file (.ofInt 1) "a: b\n" false)], .ofInt 1, .ofInt 1000⟩ "/" [] []

theorem Cache.bounded_and_transparent_sample :
    (∃ c' r, ((Sample.asked (some "7")).get "k" (fun _ => pure true) (pure (.ok none)) :
        StateM Unit _).run () = ((c', r), ()) ∧ c'.Sound) ∧
    ((Execute.readFile "m").run Sample.unread).1 = Execute.statementsOf "/m" (.ok "a: b\n") := by
  refine ⟨?_, bounded_and_transparent.2 (fun _ _ => .ok "a: b\n") _ "m" (.start rfl)
    (fun _ _ => rfl)⟩
  have hreached : (Sample.asked (some "7")).Reached 1 fun _ => True :=
    .get .empty "j" (fun _ => pure true) (pure (.ok (some ("7" : Text)))) () trivial
  obtain ⟨⟨c', r, s', hrun, -, hasked, -⟩, -⟩ := bounded_and_transparent.1 Text Unit 1
    (fun _ => True) _ "k" (fun _ => pure true) (pure (.ok none)) () (by decide) hreached
  exact ⟨c', r, hrun, hasked.sound⟩

/-- **A key can be active without an object**: if the creation gives none. The check that each key
is active exactly if it has an object also fails for one that does not count, as an empty text. -/
theorem Cache.missing_object_stays_active :
    ("j".toList ∈ (Sample.asked none).active ∧ (Sample.asked none).value? "j" = none) ∧
    (Sample.asked (some "")).value? "j" = some [] ∧
      (Sample.asked (some "")).consistent (!·.isEmpty) = false := by
  decide

end Rebuild
