import Mathlib.Data.List.Forall2
import Mathlib.Data.List.Infix
import Rebuild.Glob
import Rebuild.Proofs.Text
/-!
# Which paths a pattern finds

A pattern path is searched from its last component: the directories that the front finds, and in
each of them the names that match. What is found is said of lists of components (`Found`): each
component fits that of the pattern, all before the last are directories, and the path exists. The
search finds exactly these, each once, ordered by the first component in which they differ
(`expand_finds`). Paths are looked up as they are joined, which is so as long as no join is longer
than 255 characters (`Short`).
-/

namespace Rebuild

open List

/-! ## The order of texts -/

namespace Text

theorem le_total (a b : Text) : (le a b || le b a) = true := by
  induction a generalizing b with
  | nil => rfl
  | cons c a ih =>
    cases b with
    | nil => rfl
    | cons d b =>
      by_cases h : c = d
      · subst h
        simpa [le] using ih b
      · have hne : c.toNat ≠ d.toNat := fun e => h (Char.toNat_inj.1 e)
        simp only [le, beq_iff_eq, h, Ne.symm h, if_false, Bool.or_eq_true, decide_eq_true_eq]
        omega

theorem le_trans {a b c : Text} (hab : le a b = true) (hbc : le b c = true) : le a c = true := by
  induction a generalizing b c with
  | nil => rfl
  | cons x a ih =>
    cases b with
    | nil => cases hab
    | cons y b =>
      cases c with
      | nil => cases hbc
      | cons z c =>
        simp only [le, beq_iff_eq] at hab hbc ⊢
        by_cases hxy : x = y
        · subst hxy
          by_cases hxz : x = z
          · rw [if_pos hxz] at hbc ⊢
            exact ih (by simpa using hab) hbc
          · rwa [if_neg hxz] at hbc ⊢
        · by_cases hyz : y = z
          · subst hyz
            rwa [if_neg hxy] at hab ⊢
          · rw [if_neg hxy] at hab
            rw [if_neg hyz] at hbc
            have hlt : x.toNat < z.toNat :=
              Nat.lt_trans (of_decide_eq_true hab) (of_decide_eq_true hbc)
            rw [if_neg (by rintro rfl; exact Nat.lt_irrefl _ hlt)]
            exact decide_eq_true hlt

/-- One text stands strictly before another. -/
def Lt (a b : Text) : Prop := le a b = true ∧ a ≠ b

/-- Texts without repetitions are sorted strictly. -/
theorem pairwise_sort {ws : List Text} (h : ws.Nodup) : (sort ws).Pairwise Lt := by
  have hsorted : (sort ws).Pairwise fun a b => le a b = true :=
    pairwise_mergeSort (fun a b c => le_trans (a := a) (b := b) (c := c)) le_total ws
  exact hsorted.and ((mergeSort_perm ws le).nodup_iff.2 h)

end Text

namespace Glob

/-! ## Paths and their components -/

/-- A component of a path. -/
def IsComponent (s : Text) : Prop := s ≠ [] ∧ '/' ∉ s

instance : DecidablePred IsComponent := fun s => inferInstanceAs (Decidable (s ≠ [] ∧ '/' ∉ s))

/-- The path with these components. -/
def path (names : List Text) : Text := Text.join ['/'] names

variable {names front pats ds : List Text} {n leaf base cwd a : Text} {fs : Files}
  {place q : List Text}

theorem path_concat (h : names ≠ []) (n : Text) : path (names ++ [n]) = path names ++ '/' :: n := by
  induction names with
  | nil => cases h rfl
  | cons m names ih =>
    cases names with
    | nil => simp [path, Text.join]
    | cons k names =>
      have htail : Text.join ['/'] (k :: names ++ [n]) = Text.join ['/'] (k :: names) ++ '/' :: n :=
        ih (cons_ne_nil k names)
      have hne : k :: names ++ [n] ≠ [] := cons_ne_nil k (names ++ [n])
      rw [path, path, cons_append, Text.join_cons _ _ hne, htail,
        Text.join_cons _ _ (cons_ne_nil k names), append_assoc _ _ ('/' :: n)]

theorem hasMagic_path (names : List Text) : hasMagic (path names) = names.any hasMagic := by
  induction names with
  | nil => rfl
  | cons m names ih =>
    cases names with
    | nil => simp [path, Text.join]
    | cons k names =>
      have hslash : hasMagic ['/'] = false := rfl
      rw [path, Text.join_cons _ _ (by simp), any_cons, ← ih]
      unfold hasMagic at hslash ⊢
      rw [any_append, any_append, hslash, Bool.or_false]
      rfl

section Components

variable (hc : ∀ n ∈ names, IsComponent n) (hne : names ≠ [])
include hc hne

theorem splitOn_path : (path names).splitOn '/' = names := by
  rw [path, Text.splitOn_join hne]
  calc names.flatMap (Text.splitOn · '/') = names.flatMap fun n => [n] :=
        flatMap_congr fun n hn => Text.splitOn_of_not_mem (hc n hn).2
    _ = names := by simp

theorem path_ne_nil : path names ≠ [] := by
  intro h
  have hsplit := splitOn_path hc hne
  rw [h] at hsplit
  have hmem : ([] : Text) ∈ names := hsplit ▸ mem_singleton_self _
  exact (hc _ hmem).1 rfl

theorem isAbsolute_path : Path.isAbsolute (path names) = false := by
  obtain ⟨m, names, rfl⟩ := exists_cons_of_ne_nil hne
  have hm := hc m mem_cons_self
  obtain ⟨c, m, rfl⟩ := exists_cons_of_ne_nil hm.1
  have hslash : c ≠ '/' := fun e => hm.2 (e ▸ mem_cons_self)
  cases names <;> simpa [Path.isAbsolute, path, Text.join] using hslash

theorem getLast?_path : (path names).getLast? ≠ some '/' := by
  obtain ⟨front, m, rfl⟩ := (eq_nil_or_concat' names).resolve_left hne
  have hm := hc m mem_concat_self
  have hlast : (path (front ++ [m])).getLast? = m.getLast? := by
    cases front with
    | nil => rfl
    | cons k front =>
      obtain ⟨c, m, rfl⟩ := exists_cons_of_ne_nil hm.1
      rw [path_concat (cons_ne_nil k front), getLast?_append_of_ne_nil _ (cons_ne_nil _ _),
        getLast?_cons_cons]
  rw [hlast]
  exact fun h => hm.2 (mem_of_getLast? h)

end Components

theorem path_injective (hc : ∀ n ∈ names, IsComponent n) (hd : ∀ n ∈ ds, IsComponent n)
    (hne : names ≠ []) (hne' : ds ≠ []) (h : path names = path ds) : names = ds := by
  rw [← splitOn_path hc hne, h, splitOn_path hd hne']

/-- The last component is split off a path. -/
theorem split_concat (hc : ∀ n ∈ names, IsComponent n) (hne : names ≠ []) (hn : IsComponent n) :
    Path.split (path (names ++ [n])) = (path names, n) := by
  rw [path_concat hne]
  have hlast : ((path names ++ '/' :: n).reverse.takeWhile (· != '/')).reverse = n := by
    rw [reverse_append, reverse_cons, append_assoc, takeWhile_append_of_pos]
    · simp
    · intro c hcn
      simpa using fun e : c = '/' => hn.2 (e ▸ mem_reverse.1 hcn)
  have hhead : (path names ++ '/' :: n).take ((path names ++ '/' :: n).length - n.length) =
      path names ++ ['/'] := by
    have hsplit : path names ++ '/' :: n = (path names ++ ['/']) ++ n := by simp
    rw [hsplit, length_append, Nat.add_sub_cancel, take_left]
  obtain ⟨b, c, hb⟩ := (eq_nil_or_concat' (path names)).resolve_left (path_ne_nil hc hne)
  have hslash : c ≠ '/' := by
    rintro rfl
    exact getLast?_path hc hne (by rw [hb]; simp)
  unfold Path.split
  dsimp only
  rw [hlast, hhead, if_neg (by simp [hb, hslash]), Text.dropRight, reverse_append, hb]
  simp [hslash]

theorem split_single (hn : IsComponent n) : Path.split n = ([], n) := by
  have htake : n.reverse.takeWhile (· != '/') = n.reverse := by
    rw [takeWhile_eq_self_iff]
    intro c hc
    simpa using fun e : c = '/' => hn.2 (e ▸ mem_reverse.1 hc)
  unfold Path.split
  simp [htake]

/-! ## Joined paths -/

theorem join_of_component (ha : a ≠ []) (hlast : a.getLast? ≠ some '/') (hn : IsComponent n) :
    Path.join a n = a ++ '/' :: n := by
  have habs : Path.isAbsolute n = false :=
    show Path.isAbsolute (path [n]) = false from isAbsolute_path (by simpa using hn) (by simp)
  have hend : a.endsWith ['/'] = false := by
    rw [Text.endsWith, Bool.eq_false_iff]
    intro h
    obtain ⟨b, rfl⟩ := isSuffixOf_iff_suffix.1 h
    simp at hlast
  simp [Path.join, habs, hend, ha]

theorem join_path_concat (hc : ∀ n ∈ names, IsComponent n) (hne : names ≠ []) (n : Text)
    (base : Text) :
    Path.join base (path (names ++ [n])) = Path.join base (path names) ++ '/' :: n := by
  have habs := isAbsolute_path hc hne
  have habs' : Path.isAbsolute (path names ++ '/' :: n) = false := by
    obtain ⟨c, t, e⟩ := exists_cons_of_ne_nil (path_ne_nil hc hne)
    rw [e] at habs ⊢
    exact habs
  rw [path_concat hne, Path.join, Path.join, habs, habs']
  simp only [Bool.false_eq_true, if_false]
  split <;> simp

theorem getLast?_append_path (hc : ∀ n ∈ names, IsComponent n) (hne : names ≠ []) (base : Text) :
    Path.join base (path names) ≠ [] ∧ (Path.join base (path names)).getLast? ≠ some '/' := by
  have hlast := getLast?_path hc hne
  have hnil := path_ne_nil hc hne
  rw [Path.join, isAbsolute_path hc hne]
  simp only [Bool.false_eq_true, if_false]
  split
  · exact ⟨by simp [hnil], by rwa [getLast?_append_of_ne_nil _ hnil]⟩
  · refine ⟨by simp, ?_⟩
    rw [getLast?_append_of_ne_nil _ (by simp)]
    obtain ⟨c, t, e⟩ := exists_cons_of_ne_nil hnil
    rwa [e, getLast?_cons_cons, ← e]

/-- A name below a path below a directory. -/
theorem join_join (hc : ∀ n ∈ names, IsComponent n) (hne : names ≠ []) (hn : IsComponent n)
    (base : Text) :
    Path.join (Path.join base (path names)) n = Path.join base (path (names ++ [n])) := by
  obtain ⟨hnil, hlast⟩ := getLast?_append_path hc hne base
  rw [join_of_component hnil hlast hn, join_path_concat hc hne]

theorem length_le_join (a b : Text) : b.length ≤ (Path.join a b).length := by
  unfold Path.join
  split_ifs <;> simp
  omega

theorem joinShort_eq {b : Text} (h : (Path.join a b).length ≤ 255) :
    Path.joinShort a b = Path.join a b :=
  if_neg (Nat.not_lt.2 h)

/-! ## Looking paths up -/

/-- A tree has each place once, and its names are components that are no dots. -/
structure IsTree (fs : Files) : Prop where
  nodup : (fs.nodes.map Prod.fst).Nodup
  names : ∀ p ∈ fs.nodes, ∀ n ∈ p.1, IsComponent n ∧ n ≠ ['.'] ∧ n ≠ ['.', '.']

theorem has_iff {p : Text} :
    fs.has cwd p = true ↔ ∃ q, fs.find cwd p = .ok q ∧ (fs.node? q).isSome = true := by
  unfold Files.has Files.mtime? Files.stat
  cases fs.find cwd p with
  | error e => simp [bind, Except.bind]
  | ok q =>
    cases hq : fs.node? q <;> simp [bind, Except.bind, hq, pure, Except.pure, throw, throwThe,
      MonadExceptOf.throw]

theorem isDir_iff {p : Text} :
    fs.isDir cwd p = true ↔ ∃ q t, fs.find cwd p = .ok q ∧ fs.node? q = some (.dir t) := by
  unfold Files.isDir Files.stat
  cases fs.find cwd p with
  | error e => simp [bind, Except.bind]
  | ok q =>
    cases hq : fs.node? q with
    | none => simp [bind, Except.bind, hq, throw, throwThe, MonadExceptOf.throw]
    | some node => cases node <;> simp [bind, Except.bind, hq, pure, Except.pure, Node.isDir]

/-- Only a directory is entered. -/
theorem dir_of_enter (h : fs.enter place n = .ok q) : ∃ t, fs.node? place = some (.dir t) := by
  unfold Files.enter at h
  split at h
  · exact ⟨_, ‹_›⟩
  · cases h
  · cases h

theorem find_of_ne_nil {p : Text} (h : p ≠ []) (cwd : Text) :
    fs.find cwd p = (p.splitOn '/').foldlM fs.enter (Files.startOf cwd p) := by
  rw [Files.find, if_neg (by simpa using h)]

/-- Where a lookup starts is told by the first character. -/
theorem startOf_append (h : a ≠ []) (cwd b : Text) :
    Files.startOf cwd (a ++ b) = Files.startOf cwd a := by
  obtain ⟨c, a, rfl⟩ := exists_cons_of_ne_nil h
  rfl

/-- A path below a directory is looked up from there, component by component. -/
theorem find_join (hbase : fs.find cwd base = .ok place) (hc : ∀ n ∈ names, IsComponent n)
    (hne : names ≠ []) :
    fs.find cwd (Path.join base (path names)) = names.foldlM fs.enter place := by
  have hnil : base ≠ [] := by
    rintro rfl
    cases hbase
  rw [find_of_ne_nil hnil] at hbase
  rw [Path.join, isAbsolute_path hc hne]
  simp only [Bool.false_eq_true, if_false]
  by_cases hend : base.endsWith ['/'] = true
  · -- the empty component after the last slash is dropped, which stays in the directory
    obtain ⟨b, rfl⟩ := isSuffixOf_iff_suffix.1 hend
    rw [if_pos (by simp [hend]), find_of_ne_nil (by simp), startOf_append hnil, append_assoc,
      singleton_append, Text.splitOn_append, splitOn_path hc hne, foldlM_append]
    rw [Text.splitOn_append, foldlM_append] at hbase
    cases hb : (Text.splitOn b '/').foldlM fs.enter (Files.startOf cwd (b ++ ['/'])) with
    | error e =>
      rw [hb] at hbase
      cases hbase
    | ok q =>
      rw [hb] at hbase
      replace hbase : (Text.splitOn [] '/').foldlM fs.enter q = .ok place := hbase
      have henter : fs.enter q [] = .ok place := by simpa [Text.splitOn, Text.splitBy] using hbase
      obtain ⟨t', hq⟩ := dir_of_enter henter
      simp only [Files.enter, hq] at henter
      cases henter
      rfl
  · rw [if_neg (by simp [hend, hnil]), find_of_ne_nil (by simp), startOf_append hnil,
      Text.splitOn_append, splitOn_path hc hne, foldlM_append, hbase]
    rfl

/-- The names of a tree, and the dots. -/
def entries (fs : Files) : List Text :=
  ['.'] :: ['.', '.'] :: fs.nodes.filterMap (·.1.getLast?)

theorem mem_nodes_of_node? {node : Node} (h : fs.node? (place ++ [n]) = some node) :
    (place ++ [n], node) ∈ fs.nodes := by
  rw [Files.node?, if_neg (by simp)] at h
  obtain ⟨l₁, l₂, hnodes, -⟩ := lookup_eq_some_iff.1 h
  rw [hnodes]
  simp

/-- What is entered is an entry. -/
theorem mem_entries_of_enter (h : fs.enter place n = .ok q) (hn : n ≠ []) :
    n ∈ ([['.'], ['.', '.']] : List Text) ∨ ∃ node, (place ++ [n], node) ∈ fs.nodes := by
  obtain ⟨t, hdir⟩ := dir_of_enter h
  simp only [Files.enter, hdir] at h
  split at h
  · rename_i hdot
    exact .inl (by simpa [hn] using Or.inl hdot)
  · split at h
    · rename_i hdots
      exact .inl (by simpa using Or.inr (eq_of_beq hdots))
    · split at h
      · rename_i hsome
        obtain ⟨node, hnode⟩ := Option.isSome_iff_exists.1 hsome
        exact .inr ⟨node, mem_nodes_of_node? hnode⟩
      · cases h

/-! ## The names in a directory -/

/-- A name fits a component of a pattern. -/
def Fits (pat n : Text) : Prop :=
  if hasMagic pat = true then matchName pat n = true ∧ (isHidden n = true → isHidden pat = true)
  else n = pat

instance (pat n : Text) : Decidable (Fits pat n) :=
  inferInstanceAs (Decidable (if hasMagic pat = true then
    matchName pat n = true ∧ (isHidden n = true → isHidden pat = true) else n = pat))

/-- A name of the tree that a component of a pattern can stand for. -/
def Stands (fs : Files) (pat n : Text) : Prop :=
  Fits pat n ∧ (hasMagic pat = true → n ∈ entries fs)

/-- The last components of the places in a directory. -/
def namesIn (fs : Files) (place : List Text) : List Text :=
  fs.nodes.filterMap fun x => if x.1.dropLast == place then x.1.getLast? else none

theorem mem_namesIn : n ∈ namesIn fs place ↔ ∃ node, (place ++ [n], node) ∈ fs.nodes := by
  rw [namesIn, mem_filterMap]
  constructor
  · rintro ⟨⟨q, node⟩, hmem, h⟩
    dsimp only at h
    split at h
    · rename_i hplace
      refine ⟨node, ?_⟩
      rwa [← eq_of_beq hplace, dropLast_append_getLast? n h]
    · cases h
  · rintro ⟨node, hmem⟩
    exact ⟨_, hmem, by simp⟩

theorem nodup_namesIn (ht : IsTree fs) (place : List Text) : (namesIn fs place).Nodup := by
  have hplaces : namesIn fs place = (fs.nodes.map Prod.fst).filterMap fun q =>
      if q.dropLast == place then q.getLast? else none := by
    rw [filterMap_map]
    rfl
  rw [hplaces]
  refine ht.nodup.filterMap fun q q' n hq hq' => ?_
  have hplace : ∀ q : List Text, n ∈ (if q.dropLast == place then q.getLast? else none) →
      q = place ++ [n] := by
    intro q hq
    split at hq
    · rename_i hdrop
      rw [← eq_of_beq hdrop, dropLast_append_getLast? n hq]
    · cases hq
  rw [hplace q hq, hplace q' hq']

/-- What is looked through in a directory: its names and the dots. -/
def listing (fs : Files) (place : List Text) : List Text :=
  Text.sort (namesIn fs place) ++ [['.'], ['.', '.']]

theorem mem_listing : n ∈ listing fs place ↔
    n ∈ ([['.'], ['.', '.']] : List Text) ∨ ∃ node, (place ++ [n], node) ∈ fs.nodes := by
  rw [listing, mem_append, or_comm, Text.sort, mem_mergeSort, mem_namesIn]

theorem isComponent_of_mem_listing (ht : IsTree fs) (hn : n ∈ listing fs place) :
    IsComponent n := by
  rcases mem_listing.1 hn with hdot | ⟨node, hmem⟩
  · rcases mem_cons.1 hdot with rfl | hdots
    · exact ⟨by decide, by decide⟩
    · obtain rfl := mem_singleton.1 hdots
      exact ⟨by decide, by decide⟩
  · exact (ht.names _ hmem n (by simp)).1

theorem nodup_listing (ht : IsTree fs) (place : List Text) : (listing fs place).Nodup := by
  refine nodup_append'.2 ⟨(mergeSort_perm _ _).nodup_iff.2 (nodup_namesIn ht place), by decide, ?_⟩
  intro n hn hdot
  rw [Text.sort, mem_mergeSort, mem_namesIn] at hn
  obtain ⟨node, hmem⟩ := hn
  have hname := ht.names _ hmem n (by simp)
  simp [hname.2] at hdot

theorem mem_entries_of_mem_listing (hn : n ∈ listing fs place) : n ∈ entries fs := by
  rcases mem_listing.1 hn with hdot | ⟨node, hmem⟩
  · exact mem_append_left (fs.nodes.filterMap (·.1.getLast?)) hdot
  · exact mem_cons_of_mem _ (mem_cons_of_mem _ (mem_filterMap.2 ⟨_, hmem, by simp⟩))

theorem isComponent_of_stands (ht : IsTree fs) (hleaf : IsComponent leaf) (h : Stands fs leaf n) :
    IsComponent n := by
  by_cases hmagic : hasMagic leaf = true
  · have hmem := h.2 hmagic
    rw [entries, mem_cons, mem_cons] at hmem
    rcases hmem with rfl | rfl | hmem
    · exact ⟨by decide, by decide⟩
    · exact ⟨by decide, by decide⟩
    · obtain ⟨x, hx, hlast⟩ := mem_filterMap.1 hmem
      exact (ht.names x hx n (mem_of_getLast? hlast)).1
  · have hfit := h.1
    rw [Fits, if_neg hmagic] at hfit
    exact hfit ▸ hleaf

/-- With a wildcard the names in a directory are looked through. -/
theorem leaves_magic {p : Text} {t : Time} (hmagic : hasMagic leaf = true)
    (hfind : fs.find cwd p = .ok place) (hdir : fs.node? place = some (.dir t)) :
    leaves fs cwd p leaf = .ok (Text.sort ((listing fs place).filter fun n =>
      (isHidden leaf || !isHidden n) && matchName leaf n &&
        fs.has cwd (Path.joinShort p n))) := by
  have hlist : fs.list cwd p = .ok (Text.sort (namesIn fs place)) := by
    unfold Files.list
    rw [hfind]
    simp [bind, Except.bind, hdir, pure, Except.pure, namesIn]
  have hall : (listing fs place).filter (fun n => (isHidden leaf || !isHidden n) &&
      matchName leaf n && fs.has cwd (Path.joinShort p n)) =
      ((if isHidden leaf then listing fs place else (listing fs place).filter (!isHidden ·)).filter
        (matchName leaf)).filter fun n => fs.has cwd (Path.joinShort p n) := by
    rw [filter_filter]
    split
    · rename_i hhidden
      simp [hhidden, Bool.and_comm]
    · rename_i hhidden
      rw [filter_filter]
      refine filter_congr fun n _ => ?_
      simp only [hhidden, Bool.false_or]
      cases isHidden n <;> cases matchName leaf n <;> simp
  rw [leaves, if_neg (by simp [hmagic]), hlist, hall]
  rfl

/-- A name in a directory is entered from there. -/
theorem find_name {p : Text} (hfind : fs.find cwd p = .ok place) (hn : IsComponent n) :
    fs.find cwd (Path.join p n) = fs.enter place n := by
  have hwalk : fs.find cwd (Path.join p (path [n])) = [n].foldlM fs.enter place :=
    find_join hfind (by simpa using hn) (cons_ne_nil n [])
  rw [path, Text.join] at hwalk
  simpa using hwalk

/-- A name that is there in a directory is looked through. -/
theorem mem_listing_of_has {p : Text} (hfind : fs.find cwd p = .ok place) (hn : IsComponent n)
    (hhas : fs.has cwd (Path.join p n) = true) : n ∈ listing fs place := by
  obtain ⟨q, hq, -⟩ := has_iff.1 hhas
  rw [find_name hfind hn] at hq
  exact mem_listing.2 (mem_entries_of_enter hq hn.1)

/-- **The names in a directory that fit a component** are found, each once and in order. -/
theorem leaves_finds {p : Text} (ht : IsTree fs) (hdir : fs.isDir cwd p = true)
    (hleaf : IsComponent leaf) (hshort : ∀ n, Stands fs leaf n → (Path.join p n).length ≤ 255) :
    ∃ ns, leaves fs cwd p leaf = .ok ns ∧ ns.Pairwise Text.Lt ∧
      ∀ n, n ∈ ns ↔ Fits leaf n ∧ IsComponent n ∧ fs.has cwd (Path.join p n) = true := by
  obtain ⟨place, t, hfind, hnode⟩ := isDir_iff.1 hdir
  by_cases hmagic : hasMagic leaf = true
  · refine ⟨_, leaves_magic hmagic hfind hnode,
      Text.pairwise_sort ((nodup_listing ht place).filter _), fun n => ?_⟩
    have hfits : Fits leaf n ↔ (isHidden leaf || !isHidden n) = true ∧ matchName leaf n = true := by
      simp only [Fits, hmagic, if_true, Bool.or_eq_true, Bool.not_eq_true']
      cases isHidden n <;> simp [and_comm]
    rw [Text.sort, mem_mergeSort, mem_filter, Bool.and_eq_true, Bool.and_eq_true, ← hfits]
    constructor
    · rintro ⟨hmem, hfit, hhas⟩
      rw [joinShort_eq (hshort n ⟨hfit, fun _ => mem_entries_of_mem_listing hmem⟩)] at hhas
      exact ⟨hfit, isComponent_of_mem_listing ht hmem, hhas⟩
    · rintro ⟨hfit, hn, hhas⟩
      have hmem := mem_listing_of_has hfind hn hhas
      rw [joinShort_eq (hshort n ⟨hfit, fun _ => mem_entries_of_mem_listing hmem⟩)]
      exact ⟨hmem, hfit, hhas⟩
  · have hfits : ∀ {n}, Fits leaf n ↔ n = leaf := by simp [Fits, hmagic]
    have hjoin := joinShort_eq (hshort leaf ⟨hfits.2 rfl, fun h => absurd h hmagic⟩)
    rw [leaves, if_pos (by simpa using hmagic), if_neg (by simpa using hleaf.1), hjoin]
    refine ⟨_, rfl, by split <;> simp, fun n => ?_⟩
    rw [hfits]
    by_cases hhas : fs.has cwd (Path.join p leaf) = true
    · rw [if_pos hhas, mem_singleton]
      exact ⟨by rintro rfl; exact ⟨rfl, hleaf, hhas⟩, (·.1)⟩
    · rw [if_neg hhas]
      refine ⟨nofun, ?_⟩
      rintro ⟨rfl, -, h⟩
      exact absurd h hhas

/-! ## The paths below a directory -/

/-- What a pattern path stands for below a directory, as a list of components: as many as the
pattern has, each fits, all paths before the last are directories, and the path exists. -/
structure Found (fs : Files) (cwd base : Text) (pats names : List Text) : Prop where
  fits : Forall₂ Fits pats names
  components : ∀ n ∈ names, IsComponent n
  dirs : ∀ ds, ds <+: names → ds ≠ [] → ds ≠ names →
    fs.isDir cwd (Path.join base (path ds)) = true
  there : fs.has cwd (Path.join base (path names)) = true

/-- Two paths differ first in a component that is smaller in the one. -/
def Before (a b : List Text) : Prop :=
  ∃ front x y u v, a = front ++ x :: u ∧ b = front ++ y :: v ∧ Text.Lt x y

/-- No path that a front of the pattern can stand for is longer than 255 characters when it is
joined to the directory. -/
def Short (fs : Files) (base : Text) (pats : List Text) : Prop :=
  ∀ front names, front <+: pats → Forall₂ (Stands fs) front names →
    (Path.join base (path names)).length ≤ 255

/-- A search finds exactly the paths with a property, each once and in order. -/
def Finds (r : FileResult (List Text)) (P : List Text → Prop) : Prop :=
  ∃ found : List (List Text), r = .ok (found.map path) ∧ found.Pairwise Before ∧
    ∀ names, names ∈ found ↔ P names

theorem Before.irrefl (a : List Text) : ¬ Before a a := by
  rintro ⟨front, x, y, u, v, ha, hb, hlt⟩
  have he := append_cancel_left (ha.symm.trans hb)
  exact hlt.2 (cons.inj he).1

theorem Before.append {a b : List Text} (h : Before a b) (u v : List Text) :
    Before (a ++ u) (b ++ v) := by
  obtain ⟨front, x, y, u', v', rfl, rfl, hlt⟩ := h
  exact ⟨front, x, y, u' ++ u, v' ++ v, by simp, by simp, hlt⟩

theorem Before.concat {x y : Text} (h : Text.Lt x y) (front : List Text) :
    Before (front ++ [x]) (front ++ [y]) :=
  ⟨front, x, y, [], [], rfl, rfl, h⟩

section Walk

variable (hfind : fs.find cwd base = .ok place) (hc : ∀ n ∈ names, IsComponent n)
include hfind hc

/-- What stands before the end of a path that exists is a directory. -/
theorem isDir_of_walk (hwalk : names.foldlM fs.enter place = .ok q) (hds : ds <+: names)
    (hne : ds ≠ []) (hproper : ds ≠ names) : fs.isDir cwd (Path.join base (path ds)) = true := by
  obtain ⟨rest, rfl⟩ := hds
  obtain ⟨n, rest, rfl⟩ := exists_cons_of_ne_nil fun hnil : rest = [] => hproper (by simp [hnil])
  rw [foldlM_append] at hwalk
  have hfront : fs.find cwd (Path.join base (path ds)) = ds.foldlM fs.enter place :=
    find_join hfind (fun n hn => hc n (mem_append_left _ hn)) hne
  cases hmid : ds.foldlM fs.enter place with
  | error e =>
    rw [hmid] at hwalk
    cases hwalk
  | ok r =>
    rw [hmid] at hwalk
    replace hwalk : (n :: rest).foldlM fs.enter r = .ok q := hwalk
    rw [foldlM_cons] at hwalk
    cases henter : fs.enter r n with
    | error e =>
      rw [henter] at hwalk
      cases hwalk
    | ok r' =>
      obtain ⟨t, hdir⟩ := dir_of_enter henter
      exact isDir_iff.2 ⟨r, t, hfront.trans hmid, hdir⟩

end Walk

theorem mem_entries_of_walk (hc : ∀ n ∈ names, n ≠ [])
    (hwalk : names.foldlM fs.enter place = .ok q) :
    ∀ n ∈ names, n ∈ entries fs := by
  induction names generalizing place with
  | nil => nofun
  | cons m names ih =>
    rw [foldlM_cons] at hwalk
    cases henter : fs.enter place m with
    | error e =>
      rw [henter] at hwalk
      cases hwalk
    | ok r =>
      rw [henter] at hwalk
      rintro n (_ | ⟨_, hn⟩)
      · exact mem_entries_of_mem_listing
          (mem_listing.2 (mem_entries_of_enter henter (hc m mem_cons_self)))
      · exact ih (fun n hn => hc n (mem_cons_of_mem _ hn)) hwalk n hn

theorem stands_of_fits (h : Forall₂ Fits pats names) (hmem : ∀ n ∈ names, n ∈ entries fs) :
    Forall₂ (Stands fs) pats names := by
  induction h with
  | nil => exact .nil
  | cons hfit _ ih =>
    exact .cons ⟨hfit, fun _ => hmem _ mem_cons_self⟩ (ih fun n hn => hmem n (mem_cons_of_mem _ hn))

theorem fits_of_stands (h : Forall₂ (Stands fs) pats names) : Forall₂ Fits pats names :=
  h.imp fun _ _ => And.left

/-- What is found is made of names of the tree. -/
theorem Found.stands (h : Found fs cwd base pats names) (hbase : fs.find cwd base = .ok place)
    (hne : names ≠ []) : Forall₂ (Stands fs) pats names := by
  obtain ⟨q, hq, -⟩ := has_iff.1 h.there
  rw [find_join hbase h.components hne] at hq
  exact stands_of_fits h.fits (mem_entries_of_walk (fun n hn => (h.components n hn).1) hq)

/-- Without wildcards a pattern stands for itself. -/
theorem eq_of_fits (h : Forall₂ Fits pats names) (hplain : pats.any hasMagic = false) :
    names = pats := by
  induction h with
  | nil => rfl
  | @cons p n ps ns hfit _ ih =>
    rw [any_cons, Bool.or_eq_false_iff] at hplain
    rw [ih hplain.2, show n = p by simpa [Fits, hplain.1] using hfit]

theorem stands_self (hplain : pats.any hasMagic = false) : Forall₂ (Stands fs) pats pats := by
  induction pats with
  | nil => exact .nil
  | cons p ps ih =>
    rw [any_cons, Bool.or_eq_false_iff] at hplain
    exact .cons ⟨by simp [Fits, hplain.1], by simp [hplain.1]⟩ (ih hplain.2)

/-- A path is found below a directory exactly if its last name is found in the directory that the
rest of it names. -/
theorem found_concat (hbase : fs.find cwd base = .ok place) (hne : ds ≠ []) :
    Found fs cwd base (front ++ [leaf]) (ds ++ [n]) ↔
      (Forall₂ Fits front ds ∧ (∀ m ∈ ds, IsComponent m) ∧
        fs.isDir cwd (Path.join base (path ds)) = true) ∧
      Fits leaf n ∧ IsComponent n ∧
        fs.has cwd (Path.join (Path.join base (path ds)) n) = true := by
  constructor
  · intro h
    have hds : ∀ m ∈ ds, IsComponent m := fun m hm => h.components m (mem_append_left _ hm)
    have hn : IsComponent n := h.components n mem_concat_self
    have hlen : front.length = ds.length := by simpa using h.fits.length_eq
    have hfront := forall₂_take_append _ ds [n] h.fits
    have hleaf := forall₂_drop_append _ ds [n] h.fits
    rw [take_left' hlen] at hfront
    rw [drop_left' hlen] at hleaf
    refine ⟨⟨hfront, hds, h.dirs ds (prefix_append ..) hne (by simp)⟩, by simpa using hleaf, hn, ?_⟩
    rw [join_join hds hne hn]
    exact h.there
  · rintro ⟨⟨hfront, hds, hdir⟩, hleaf, hn, hhas⟩
    have hall : ∀ m ∈ ds ++ [n], IsComponent m := by simpa [or_imp, forall_and] using ⟨hds, hn⟩
    rw [join_join hds hne hn] at hhas
    obtain ⟨q, hq, -⟩ := has_iff.1 hhas
    rw [find_join hbase hall (by simp)] at hq
    exact ⟨rel_append hfront (.cons hleaf .nil), hall,
      fun ds' hpre hne' hproper => isDir_of_walk hbase hall hq hpre hne' hproper, hhas⟩

/-- Searching one directory after the other finds what is found in any of them. -/
theorem finds_flatten {dirs : List (List Text)} {f : Text → FileResult (List Text)}
    {P : List Text → List Text → Prop} (hpair : dirs.Pairwise Before)
    (hf : ∀ ds ∈ dirs, Finds (f (path ds)) (P ds))
    (hP : ∀ ds names, P ds names → ∃ n, names = ds ++ [n]) :
    Finds (do return (← (dirs.map path).mapM f).flatten) fun names => ∃ ds ∈ dirs, P ds names := by
  choose! g hok hsorted hmem using hf
  have hmap : (dirs.map path).mapM f = .ok (dirs.map fun ds => (g ds).map path) := by
    clear hpair hsorted hmem hP
    induction dirs with
    | nil => rfl
    | cons ds dirs ih =>
      rw [map_cons, mapM_cons, hok ds mem_cons_self,
        ih fun ds hds => hok ds (mem_cons_of_mem _ hds)]
      rfl
  refine ⟨dirs.flatMap g, ?_, pairwise_flatMap.2 ⟨hsorted, ?_⟩, fun names => ?_⟩
  · rw [hmap, map_flatMap, flatMap_def]
    rfl
  · refine hpair.imp_of_mem fun {a b} ha hb hlt x hx y hy => ?_
    obtain ⟨m, rfl⟩ := hP a x ((hmem a ha x).1 hx)
    obtain ⟨n, rfl⟩ := hP b y ((hmem b hb y).1 hy)
    exact hlt.append [m] [n]
  · rw [mem_flatMap]
    exact exists_congr fun ds => and_congr_right fun hds => hmem ds hds names

theorem Found.dropLast (h : Found fs cwd base (front ++ [leaf]) (ds ++ [n]))
    (hbase : fs.find cwd base = .ok place) (hne : ds ≠ []) : Found fs cwd base front ds := by
  obtain ⟨⟨hfits, hds, hdir⟩, -⟩ := (found_concat hbase hne).1 h
  refine ⟨hfits, hds, fun ds' hpre hne' hproper => ?_, ?_⟩
  · refine h.dirs ds' (hpre.trans (prefix_append ..)) hne' fun e => ?_
    have hlen := hpre.length_le
    rw [e, length_append, length_singleton] at hlen
    omega
  · obtain ⟨q, t, hq, hnode⟩ := isDir_iff.1 hdir
    exact has_iff.2 ⟨q, hq, by rw [hnode]; rfl⟩

/-- The last component of a pattern is searched in a directory that its front stands for. -/
theorem search_finds (ht : IsTree fs) (hbase : fs.find cwd base = .ok place)
    (hleaf : IsComponent leaf) (hne : ds ≠ []) (hshort : Short fs base (front ++ [leaf]))
    (hstands : Forall₂ (Stands fs) front ds) (hds : ∀ n ∈ ds, IsComponent n) :
    Finds (search fs cwd base leaf (path ds)) fun names =>
      ∃ n, names = ds ++ [n] ∧ Found fs cwd base (front ++ [leaf]) (ds ++ [n]) := by
  unfold search
  dsimp only
  rw [joinShort_eq (hshort front ds (prefix_append ..) hstands)]
  by_cases hdir : fs.isDir cwd (Path.join base (path ds)) = true
  · have hlong : ∀ n, Stands fs leaf n → (Path.join base (path (ds ++ [n]))).length ≤ 255 :=
      fun n hn => hshort _ _ prefix_rfl (rel_append hstands (.cons hn .nil))
    obtain ⟨q, t, hq, -⟩ := isDir_iff.1 hdir
    obtain ⟨ns, hns, hsorted, hmem⟩ := leaves_finds ht hdir hleaf fun n hn => by
      rw [join_join hds hne (isComponent_of_stands ht hleaf hn)]
      exact hlong n hn
    rw [if_pos hdir, hns]
    refine ⟨ns.map (ds ++ [·]), ?_, hsorted.map _ fun x y hlt => .concat hlt ds, fun names => ?_⟩
    · -- a path that is found is not longer than when it is joined to the directory
      have hjoin : ∀ n ∈ ns, Path.joinShort (path ds) n = path (ds ++ [n]) := by
        intro n hn
        obtain ⟨hfit, hc, hhas⟩ := (hmem n).1 hn
        have hpath : Path.join (path ds) n = path (ds ++ [n]) := by
          rw [join_of_component (path_ne_nil hds hne) (getLast?_path hds hne) hc, path_concat hne]
        have hstand : Stands fs leaf n :=
          ⟨hfit, fun _ => mem_entries_of_mem_listing (mem_listing_of_has hq hc hhas)⟩
        rw [← hpath]
        exact joinShort_eq (hpath ▸ (length_le_join base _).trans (hlong n hstand))
      rw [map_map]
      exact congrArg Except.ok (map_congr_left hjoin)
    · simp only [mem_map, hmem, found_concat hbase hne]
      constructor
      · rintro ⟨n, hn, rfl⟩
        exact ⟨n, rfl, ⟨fits_of_stands hstands, hds, hdir⟩, hn⟩
      · rintro ⟨n, rfl, -, hn⟩
        exact ⟨n, hn, rfl⟩
  · rw [if_neg hdir]
    refine ⟨[], rfl, .nil, fun names => ⟨nofun, ?_⟩⟩
    rintro ⟨n, -, h⟩
    exact absurd ((found_concat hbase hne).1 h).1.2.2 hdir

/-- The directories that are searched for the last component: those that the front of the pattern
finds, or the front itself if it has no wildcard. -/
theorem dirs_of_front {fuel : Nat} (hbase : fs.find cwd base = .ok place)
    (hc : ∀ p ∈ front, IsComponent p) (hne : front ≠ [])
    (ih : Finds (expandTo fuel fs cwd base (path front)) (Found fs cwd base front)) :
    ∃ dirs : List (List Text), (if hasMagic (path front) then expandTo fuel fs cwd base (path front)
        else pure [path front]) = .ok (dirs.map path) ∧ dirs.Pairwise Before ∧
      (∀ ds ∈ dirs, ds ≠ [] ∧ Forall₂ (Stands fs) front ds ∧ ∀ n ∈ ds, IsComponent n) ∧
      ∀ ds, Found fs cwd base front ds → ds ∈ dirs := by
  by_cases hmagic : hasMagic (path front) = true
  · obtain ⟨dirs, hdirs, hpair, hmem⟩ := ih
    rw [if_pos hmagic]
    refine ⟨dirs, hdirs, hpair, fun ds hds => ?_, fun ds => (hmem ds).2⟩
    have hfound := (hmem ds).1 hds
    have hnil : ds ≠ [] := by
      rintro rfl
      exact hne (length_eq_zero_iff.1 hfound.fits.length_eq)
    exact ⟨hnil, hfound.stands hbase hnil, hfound.components⟩
  · rw [if_neg hmagic]
    have hplain : front.any hasMagic = false := by
      rw [← hasMagic_path]
      simpa using hmagic
    refine ⟨[front], rfl, pairwise_singleton _ _, fun ds hds => ?_, fun ds h => ?_⟩
    · obtain rfl := mem_singleton.1 hds
      exact ⟨hne, stands_self hplain, hc⟩
    · exact mem_singleton.2 (eq_of_fits h.fits hplain)

/-- A single component is found exactly if it is found in the directory. -/
theorem found_single :
    Found fs cwd base [leaf] names ↔ ∃ n, names = [n] ∧ Fits leaf n ∧ IsComponent n ∧
      fs.has cwd (Path.join base n) = true := by
  constructor
  · intro h
    obtain ⟨n, rfl⟩ := length_eq_one_iff.1 h.fits.length_eq.symm
    exact ⟨n, rfl, by simpa using h.fits, h.components n mem_cons_self, h.there⟩
  · rintro ⟨n, rfl, hfit, hn, hhas⟩
    refine ⟨.cons hfit .nil, by simpa using hn, fun ds hpre hne hproper => ?_, hhas⟩
    have hlen : 0 < ds.length := length_pos_iff.2 hne
    exact absurd (hpre.eq_of_length (Nat.le_antisymm hpre.length_le hlen)) hproper

/-- **The search finds exactly the paths that the pattern stands for**, each once and in order. -/
theorem expandTo_finds {fuel : Nat} (ht : IsTree fs) (hbase : fs.isDir cwd base = true)
    (hc : ∀ p ∈ pats, IsComponent p) (hne : pats ≠ []) (hshort : Short fs base pats)
    (hfuel : pats.length ≤ fuel) :
    Finds (expandTo fuel fs cwd base (path pats)) (Found fs cwd base pats) := by
  obtain ⟨place, t, hfind, -⟩ := isDir_iff.1 hbase
  induction pats using List.reverseRecOn generalizing fuel with
  | nil => cases hne rfl
  | append_singleton front leaf ih =>
    have hleaf : IsComponent leaf := hc leaf mem_concat_self
    have hcfront : ∀ p ∈ front, IsComponent p := fun p hp => hc p (mem_append_left _ hp)
    rw [length_append, length_singleton] at hfuel
    obtain ⟨fuel, rfl⟩ : ∃ k, fuel = k + 1 := ⟨fuel - 1, by omega⟩
    by_cases hfront : front = []
    · subst hfront
      obtain ⟨ns, hns, hsorted, hmem⟩ := leaves_finds ht hbase hleaf fun n hn =>
        hshort [leaf] [n] prefix_rfl (.cons hn .nil)
      refine ⟨ns.map ([·]), ?_, hsorted.map _ fun x y hlt => .concat hlt [], fun names => ?_⟩
      · rw [expandTo, show path ([] ++ [leaf]) = leaf from rfl, split_single hleaf]
        simp only [isEmpty_nil, if_true, hns, map_map]
        congr 1
        exact (map_id' ns).symm
      · rw [nil_append, found_single, mem_map]
        simp only [hmem]
        exact exists_congr fun n => by rw [and_comm, eq_comm]
    · have hfinds : Finds (expandTo fuel fs cwd base (path front)) (Found fs cwd base front) :=
        ih hcfront hfront (fun _ _ hpre => hshort _ _ (hpre.trans (prefix_append ..))) (by omega)
      obtain ⟨dirs, hdirs, hpair, hstand, hall⟩ := dirs_of_front hfind hcfront hfront hfinds
      obtain ⟨found, hfound, hsorted, hmem⟩ := finds_flatten hpair
        (fun ds hds => search_finds ht hfind hleaf (hstand ds hds).1 hshort (hstand ds hds).2.1
          (hstand ds hds).2.2) fun ds names hP => hP.imp fun n => And.left
      refine ⟨found, ?_, hsorted, fun names => (hmem names).trans ?_⟩
      · rw [expandTo, split_concat hcfront hfront hleaf]
        dsimp only
        rw [if_neg (by simpa using path_ne_nil hcfront hfront)]
        split_ifs at hdirs ⊢ <;> (rw [hdirs]; exact hfound)
      · constructor
        · rintro ⟨ds, -, n, rfl, h⟩
          exact h
        · intro h
          have hlen := h.fits.length_eq
          obtain ⟨ds, n, rfl⟩ :=
            (eq_nil_or_concat' names).resolve_left (by rintro rfl; simp at hlen)
          have hne : ds ≠ [] := by
            rintro rfl
            simp [hfront] at hlen
          exact ⟨ds, hall ds (h.dropLast hfind hne), n, rfl, h⟩

theorem length_path_cons (m : Text) (hne : names ≠ []) :
    (path (m :: names)).length = m.length + 1 + (path names).length := by
  rw [path, Text.join_cons _ _ hne, length_append, length_append]
  rfl

theorem length_le_length_path (names : List Text) : names.length ≤ (path names).length + 1 := by
  induction names with
  | nil => simp
  | cons m names ih =>
    cases names with
    | nil => simp
    | cons k names =>
      rw [length_path_cons m (cons_ne_nil k names), length_cons]
      omega

/-- No path is too long if names have at most `k` characters and the pattern is short enough. -/
theorem short_of_length {k : Nat} (hentries : ∀ n ∈ entries fs, n.length ≤ k)
    (hpats : ∀ p ∈ pats, p.length ≤ k) (h : base.length + 1 + pats.length * (k + 1) ≤ 255) :
    Short fs base pats := by
  have hname : ∀ {p n}, p ∈ pats → Stands fs p n → n.length ≤ k := by
    intro p n hp hn
    by_cases hmagic : hasMagic p = true
    · exact hentries n (hn.2 hmagic)
    · have hfit := hn.1
      rw [Fits, if_neg hmagic] at hfit
      exact hfit ▸ hpats p hp
  have hpath : ∀ {front names}, (∀ p ∈ front, p ∈ pats) → Forall₂ (Stands fs) front names →
      (path names).length ≤ front.length * (k + 1) := by
    intro front names hmem hstands
    induction hstands with
    | nil => simp [path, Text.join]
    | @cons p n ps ns hn hns ih =>
      have hlast := hname (hmem p mem_cons_self) hn
      have htail := ih fun p hp => hmem p (mem_cons_of_mem _ hp)
      rw [length_cons, Nat.succ_mul]
      by_cases hnil : ns = []
      · rw [hnil, show path [n] = n from rfl]
        omega
      · rw [length_path_cons n hnil]
        omega
  intro front names hpre hstands
  have hlen := hpath (fun p hp => hpre.subset hp) hstands
  have hmul : front.length * (k + 1) ≤ pats.length * (k + 1) :=
    Nat.mul_le_mul_right _ hpre.length_le
  have hjoin : (Path.join base (path names)).length ≤ base.length + 1 + (path names).length := by
    unfold Path.join
    split_ifs
    · omega
    · rw [length_append]
      omega
    · rw [length_append, length_cons]
      omega
  omega

/-- A tree with a hidden directory and two others, of which one holds a file `b`. -/
def Sample.tree : Files where
  nodes := [(["w"], .dir (.ofInt 1)), (["w", "d"], .dir (.ofInt 1)), (["w", "c"], .dir (.ofInt 1)),
    (["w", ".h"], .dir (.ofInt 1)), (["w", ".h", "b"], .file (.ofInt 1) [] false),
    (["w", "d", "b"], .file (.ofInt 1) [] false)]
  rootTime := .ofInt 1
  clock := .ofInt 1

end Glob

end Rebuild
