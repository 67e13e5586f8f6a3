/-
  The files of a directory, in their order.

  The files are listed in whatever order the tree holds them, then sorted by the names that lead to
  them, and only those with one of the extensions are kept.  A tree without two entries at one place
  has only one such list.

  * `Workspace.IsTree` — every name can be one, and what an entry lies in is a directory.
  * `IsTree.follow_joined` — the path of what lies below a directory leads there.
  * `mem_supportedBelow`, `pairwise_supportedBelow` — which files are kept, and their order.
  * `prefix_of_between` — what stands between two paths of a directory, in that order, is a path of the
    directory.
-/
import Mathlib.Data.List.Nodup
import Mathlib.Data.List.Perm.Basic
import MagicNumbers.Job
import MagicNumbers.Proofs.Paths

open scoped List

namespace MagicNumbers

/-! ## Order by components -/

/-- **What stands between two paths of a directory is a path of that directory.** -/
theorem prefix_of_between {dir p q r : List Name} (hp : dir <+: p) (hr : dir <+: r) (hpq : p < q)
    (hqr : q < r) : dir <+: q := by
  induction dir generalizing p q r with
  | nil => exact List.nil_prefix
  | cons name dir ih =>
    obtain ⟨p, rfl⟩ := hp
    obtain ⟨r, rfl⟩ := hr
    cases q with
    | nil => exact (List.not_lt_nil _ hpq).elim
    | cons name' q =>
      rw [List.cons_append, List.cons_lt_cons_iff] at hpq hqr
      -- a path that starts with another name is before both or behind both
      rcases hpq with hpq | ⟨rfl, hpq⟩
      · rcases hqr with hqr | ⟨rfl, -⟩
        · exact (List.lt_asymm hpq hqr).elim
        · exact (List.lt_irrefl _ hpq).elim
      · rcases hqr with hqr | ⟨-, hqr⟩
        · exact (List.lt_irrefl _ hqr).elim
        · have hq := ih (List.prefix_append ..) (List.prefix_append ..) hpq hqr
          exact List.cons_prefix_cons.2 ⟨rfl, hq⟩

/-- Locations in order. -/
theorem pairwise_mergeSort_le (places : List Location) :
    (places.mergeSort fun a b => decide (a ≤ b)).Pairwise (· ≤ ·) := by
  have h : (places.mergeSort fun a b => decide (a ≤ b)).Pairwise
      fun a b => decide (a ≤ b) = true := by
    apply List.pairwise_mergeSort
    · intro a b c hab hbc
      rw [decide_eq_true_iff] at hab hbc ⊢
      exact List.le_trans hab hbc
    · intro a b
      rw [Bool.or_eq_true, decide_eq_true_iff, decide_eq_true_iff]
      exact List.le_total a b
  exact h.imp fun hab => of_decide_eq_true hab

/-- Different locations ascend once they are in order. -/
theorem pairwise_mergeSort_lt {places : List Location} (h : places.Nodup) :
    (places.mergeSort fun a b => decide (a ≤ b)).Pairwise (· < ·) := by
  have hnodup := (List.mergeSort_perm places fun a b => decide (a ≤ b)).nodup_iff.2 h
  refine ((pairwise_mergeSort_le places).and hnodup).imp ?_
  rintro a b ⟨hle, hne⟩
  by_contra hlt
  exact hne (List.le_antisymm hle (List.not_lt.1 hlt))

/-- The order that locations come in does not show once they are in order. -/
theorem mergeSort_eq_of_perm {places places' : List Location} (h : places ~ places') :
    (places.mergeSort fun a b => decide (a ≤ b)) = places'.mergeSort fun a b => decide (a ≤ b) := by
  apply List.Perm.eq_of_pairwise (fun a b _ _ => List.le_antisymm) (pairwise_mergeSort_le places)
    (pairwise_mergeSort_le places')
  exact (List.mergeSort_perm _ _).trans (h.trans (List.mergeSort_perm _ _).symm)

namespace Workspace

/-! ## Trees -/

/-- Where no key stands twice, an entry is found under its key. -/
theorem lookup_eq_some_iff_mem {α β : Type} [BEq α] [LawfulBEq α] {entries : List (α × β)}
    (hnodup : (entries.map Prod.fst).Nodup) {a : α} {b : β} :
    entries.lookup a = some b ↔ (a, b) ∈ entries := by
  induction entries with
  | nil => exact ⟨nofun, nofun⟩
  | cons entry entries ih =>
    obtain ⟨a', b'⟩ := entry
    rw [List.map_cons, List.nodup_cons] at hnodup
    rw [List.lookup_cons, List.mem_cons, Prod.mk.injEq]
    by_cases ha : a = a'
    · subst ha
      have hnot : (a, b) ∉ entries := by
        intro hmem
        have hkey : a ∈ entries.map Prod.fst := List.mem_map_of_mem hmem
        exact hnodup.1 hkey
      rw [beq_self_eq_true, Option.some_inj, eq_comm]
      exact ⟨fun hb => .inl ⟨rfl, hb⟩, fun hor => hor.elim And.right fun hmem => (hnot hmem).elim⟩
    · rw [beq_eq_false_iff_ne.2 ha, ih hnodup.2]
      exact ⟨.inr, fun hor => hor.elim (fun heq => (ha heq.1).elim) id⟩

/-- A tree: one entry at a place, names that entries can have, and all but the root in a directory. -/
structure IsTree (w : Workspace) : Prop where
  nodup : (w.entries.map Prod.fst).Nodup
  isName : ∀ entry ∈ w.entries, ∀ name ∈ entry.1, IsName name
  parents : ∀ entry ∈ w.entries, ∀ n < entry.1.length,
    w.node? (entry.1.take n) = some .directory

instance (w : Workspace) : Decidable w.IsTree :=
  decidable_of_iff
    ((w.entries.map Prod.fst).Nodup ∧ (∀ entry ∈ w.entries, ∀ name ∈ entry.1, IsName name) ∧
      ∀ entry ∈ w.entries, ∀ n < entry.1.length, w.node? (entry.1.take n) = some .directory)
    ⟨fun ⟨h₁, h₂, h₃⟩ => ⟨h₁, h₂, h₃⟩, fun ⟨h₁, h₂, h₃⟩ => ⟨h₁, h₂, h₃⟩⟩

namespace IsTree

variable {w : Workspace} {place below : Location} {node : Node}

theorem node?_eq_some_iff (h : w.IsTree) (hplace : place ≠ []) :
    w.node? place = some node ↔ (place, node) ∈ w.entries := by
  have hlookup : w.node? place = w.entries.lookup place :=
    if_neg fun hempty => hplace (List.isEmpty_iff.1 hempty)
  rw [hlookup, lookup_eq_some_iff_mem h.nodup]

/-- What lies below a place can be named, and lies in directories. -/
theorem of_node? (h : w.IsTree) (hbelow : below ≠ []) (hnode : w.node? (place ++ below) = some node) :
    (∀ name ∈ below, IsName name) ∧
    ∀ dir rest, below = dir ++ rest → rest ≠ [] → w.node? (place ++ dir) = some .directory := by
  have hne : place ++ below ≠ [] := List.append_ne_nil_of_right_ne_nil place hbelow
  have hentry := (h.node?_eq_some_iff hne).1 hnode
  constructor
  · intro name hname
    exact h.isName _ hentry name (List.mem_append_right place hname)
  · rintro dir rest rfl hrest
    have hlength : (place ++ dir).length < (place ++ (dir ++ rest)).length := by
      have hpos := List.length_pos_iff.2 hrest
      simp only [List.length_append]
      omega
    have hparent := h.parents _ hentry _ hlength
    rw [← List.append_assoc, List.take_left] at hparent
    exact hparent

/-- **The path of what lies below a directory leads there.** -/
theorem follow_joined (h : w.IsTree) {dir : Path} (hdir : w.follow dir = .ok (place, .directory))
    (hbelow : below ≠ []) (hnode : w.node? (place ++ below) = some node) :
    w.follow (below.foldl Path.join dir) = .ok (place ++ below, node) := by
  induction below generalizing dir place with
  | nil => exact (hbelow rfl).elim
  | cons name below ih =>
    obtain ⟨hnames, hparents⟩ := h.of_node? hbelow hnode
    have hname := hnames name (List.mem_cons_self ..)
    rw [List.append_cons] at hnode ⊢
    cases below with
    | nil =>
      rw [List.append_nil] at hnode ⊢
      exact follow_join hdir hname hnode
    -- what is not the last name leads to a directory, from which the others are followed
    | cons name' below =>
      have hplace := hparents [name] (name' :: below) rfl (List.cons_ne_nil _ _)
      exact ih (follow_join hdir hname hplace) (List.cons_ne_nil _ _) hnode

end IsTree

/-! ## Files below a directory -/

theorem below?_eq_some_iff {dir place rest : Location} :
    below? dir place = some rest ↔ place = dir ++ rest := by
  induction dir generalizing place with
  | nil =>
    rw [below?, Option.some_inj, List.nil_append]
  | cons name dir ih =>
    cases place with
    | nil => exact ⟨nofun, nofun⟩
    | cons name' place =>
      rw [below?, List.cons_append, List.cons.injEq]
      split
      next hname => rw [ih]; exact ⟨fun h => ⟨hname.symm, h⟩, fun h => h.2⟩
      next hname => exact ⟨nofun, fun h => (hname h.1.symm).elim⟩

variable {w : Workspace} {place below : Location}

/-- The names that lead from a directory to the file that an entry is. -/
def fileBelow? (place : Location) (entry : Location × Node) : Option Location :=
  match entry.2, below? place entry.1 with
  | .file _, some (name :: rest) => some (name :: rest)
  | _, _ => none

/-- What an entry adds to the files below a directory. -/
theorem filesBelow_eq (w : Workspace) (place : Location) :
    w.filesBelow place = w.entries.filterMap (fileBelow? place) := by
  rw [filesBelow]
  congr

theorem fileBelow?_eq_some_iff {entry : Location × Node} :
    fileBelow? place entry = some below ↔
      below ≠ [] ∧ ∃ content, entry = (place ++ below, .file content) := by
  obtain ⟨place', node⟩ := entry
  rw [fileBelow?]
  constructor
  · intro h
    split at h
    next content name rest hnode hplace =>
      cases h
      obtain rfl : node = .file content := hnode
      obtain rfl : place' = place ++ name :: rest := below?_eq_some_iff.1 hplace
      exact ⟨List.cons_ne_nil _ _, content, rfl⟩
    next => cases h
  · rintro ⟨hne, content, hentry⟩
    obtain ⟨name, rest, rfl⟩ := List.exists_cons_of_ne_nil hne
    cases hentry
    rw [below?_eq_some_iff.2 rfl]

/-- A tree that holds its entries in another order has the same files. -/
theorem filesBelow_perm {w' : Workspace} (h : w.entries ~ w'.entries) (place : Location) :
    w.filesBelow place ~ w'.filesBelow place :=
  h.filterMap _

/-- No file is listed twice. -/
theorem IsTree.nodup_filesBelow (h : w.IsTree) (place : Location) : (w.filesBelow place).Nodup := by
  rw [filesBelow_eq]
  refine List.Pairwise.filterMap _ ?_ (List.pairwise_map.1 h.nodup)
  rintro entry entry' hne below hbelow below' hbelow' rfl
  obtain ⟨-, content, rfl⟩ := fileBelow?_eq_some_iff.1 hbelow
  obtain ⟨-, content', rfl⟩ := fileBelow?_eq_some_iff.1 hbelow'
  exact hne rfl

theorem IsTree.mem_filesBelow (h : w.IsTree) : below ∈ w.filesBelow place ↔
    below ≠ [] ∧ ∃ content, w.node? (place ++ below) = some (.file content) := by
  rw [filesBelow_eq, List.mem_filterMap]
  constructor
  · rintro ⟨entry, hentry, hbelow⟩
    obtain ⟨hne, content, rfl⟩ := fileBelow?_eq_some_iff.1 hbelow
    refine ⟨hne, content, ?_⟩
    rwa [h.node?_eq_some_iff (List.append_ne_nil_of_right_ne_nil place hne)]
  · rintro ⟨hne, content, hnode⟩
    rw [h.node?_eq_some_iff (List.append_ne_nil_of_right_ne_nil place hne)] at hnode
    exact ⟨_, hnode, fileBelow?_eq_some_iff.2 ⟨hne, content, rfl⟩⟩

theorem IsTree.isName_filesBelow (h : w.IsTree) (hbelow : below ∈ w.filesBelow place) :
    ∀ name ∈ below, IsName name := by
  obtain ⟨hne, content, hnode⟩ := h.mem_filesBelow.1 hbelow
  exact (h.of_node? hne hnode).1

end Workspace

/-! ## Files to scan -/

section

variable {w : Workspace} {input : Path} {place : Location} {extensions : List String}

/-- **Which files of a directory are scanned.** -/
theorem mem_supportedBelow (h : w.IsTree) {p : Path} :
    p ∈ supportedBelow w place input extensions ↔
      ∃ below content, below ≠ [] ∧ w.node? (place ++ below) = some (.file content) ∧
        p = below.foldl Path.join input ∧ isSupported extensions p := by
  rw [supportedBelow, List.mem_filter, List.mem_map]
  constructor
  · rintro ⟨⟨below, hbelow, rfl⟩, hsupported⟩
    rw [List.mem_mergeSort, h.mem_filesBelow] at hbelow
    obtain ⟨hne, content, hnode⟩ := hbelow
    exact ⟨below, content, hne, hnode, rfl, hsupported⟩
  · rintro ⟨below, content, hne, hnode, rfl, hsupported⟩
    refine ⟨⟨below, ?_, rfl⟩, hsupported⟩
    rw [List.mem_mergeSort, h.mem_filesBelow]
    exact ⟨hne, content, hnode⟩

/-- **They are scanned in the order of their components.** -/
theorem pairwise_supportedBelow (h : w.IsTree) (hinput : input ≠ []) :
    (supportedBelow w place input extensions).Pairwise
      fun p q => Path.components p < Path.components q := by
  refine List.Pairwise.filter _ (List.pairwise_map.2 ?_)
  refine (pairwise_mergeSort_lt (h.nodup_filesBelow place)).imp_of_mem ?_
  intro below below' hbelow hbelow' hlt
  rw [List.mem_mergeSort] at hbelow hbelow'
  rw [Path.components_joined hinput (h.isName_filesBelow hbelow),
    Path.components_joined hinput (h.isName_filesBelow hbelow')]
  exact List.append_left_lt hlt

end

end MagicNumbers
