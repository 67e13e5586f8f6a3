/-
  Paths of what lies below a directory.

  Joining a name to the path of a directory adds one component, whether or not a slash ended the path,
  and leads to the entry of that name.  So the path of a file below a directory has the components of
  the directory's path and then the names that lead to the file, and is followed to it.

  * `components_joined` — the components of such a path.
  * `Workspace.follow_join` — where the path of an entry of a directory leads.
-/
import MagicNumbers.Files.Workspace

namespace MagicNumbers

/-- A name that an entry of a directory can have. -/
structure IsName (name : Name) : Prop where
  moves : Path.staysPut name = false
  ne_up : name ≠ Path.up
  slash_not_mem : Byte.slash ∉ name
  zero_not_mem : 0 ∉ name

instance (name : Name) : Decidable (IsName name) :=
  decidable_of_iff
    (Path.staysPut name = false ∧ name ≠ Path.up ∧ Byte.slash ∉ name ∧ 0 ∉ name)
    ⟨fun ⟨h₁, h₂, h₃, h₄⟩ => ⟨h₁, h₂, h₃, h₄⟩, fun ⟨h₁, h₂, h₃, h₄⟩ => ⟨h₁, h₂, h₃, h₄⟩⟩

namespace Path

/-! ## Parts and components -/

/-- The parts of a path that lead anywhere. -/
def components (p : Path) : List Name := p.parts.filter fun part => !staysPut part

theorem parts_ne_nil (p : Path) : parts p ≠ [] := by
  cases p with
  | nil => exact List.cons_ne_nil _ _
  | cons b p =>
    rw [parts]
    split
    · exact List.cons_ne_nil _ _
    · split <;> exact List.cons_ne_nil _ _

/-- A slash parts what is before it from what is after it. -/
theorem parts_append_slash (p q : Path) : parts (p ++ Byte.slash :: q) = parts p ++ parts q := by
  induction p with
  | nil => rfl
  | cons b p ih =>
    rw [List.cons_append, parts, ih, parts]
    by_cases hb : b = Byte.slash
    · rw [if_pos hb, if_pos hb]
      rfl
    · rw [if_neg hb, if_neg hb]
      cases hp : parts p with
      | nil => exact (parts_ne_nil p hp).elim
      | cons part rest => rfl

theorem parts_of_slash_not_mem {name : Path} (h : Byte.slash ∉ name) : parts name = [name] := by
  induction name with
  | nil => rfl
  | cons b name ih =>
    rw [List.mem_cons, not_or] at h
    rw [parts, if_neg (Ne.symm h.1), ih h.2]

theorem components_append_slash (p q : Path) :
    components (p ++ Byte.slash :: q) = components p ++ components q := by
  rw [components, parts_append_slash, List.filter_append]
  rfl

theorem components_of_isName {name : Name} (h : IsName name) : components name = [name] := by
  rw [components, parts_of_slash_not_mem h.slash_not_mem, List.filter_cons, h.moves]
  rfl

/-! ## Joining a name -/

/-- A path that names are joined to goes on in the same way whether a slash ended it or not. -/
theorem exists_stem {dir : Path} (h : dir ≠ []) :
    ∃ stem, (dir = stem ∨ dir = stem ++ [Byte.slash]) ∧
      ∀ name, dir.join name = stem ++ Byte.slash :: name := by
  have hempty : dir.isEmpty = false := List.isEmpty_eq_false_iff.2 h
  by_cases hlast : dir.getLast? = some Byte.slash
  · obtain ⟨stem, rfl⟩ := List.getLast?_eq_some_iff.1 hlast
    refine ⟨stem, .inr rfl, ?_⟩
    intro name
    rw [join, hlast, beq_self_eq_true, Bool.or_true, if_pos rfl, List.append_assoc,
      List.singleton_append]
  · refine ⟨dir, .inl rfl, ?_⟩
    intro name
    rw [join, hempty, beq_eq_false_iff_ne.2 hlast]
    rfl

theorem components_join {dir : Path} {name : Name} (hdir : dir ≠ []) (h : IsName name) :
    components (dir.join name) = components dir ++ [name] := by
  obtain ⟨stem, rfl | rfl, hjoin⟩ := exists_stem hdir
  · rw [hjoin, components_append_slash, components_of_isName h]
  · have hempty : components [] = [] := rfl
    rw [hjoin, components_append_slash, components_append_slash, components_of_isName h, hempty,
      List.append_nil]

theorem join_ne_nil {dir : Path} (hdir : dir ≠ []) (name : Name) : dir.join name ≠ [] := by
  obtain ⟨stem, -, hjoin⟩ := exists_stem hdir
  rw [hjoin]
  exact List.append_ne_nil_of_right_ne_nil stem (List.cons_ne_nil _ _)

theorem isAbsolute_join {dir : Path} (hdir : dir ≠ []) (name : Name) :
    isAbsolute (dir.join name) = isAbsolute dir := by
  obtain ⟨stem, rfl | rfl, hjoin⟩ := exists_stem hdir
  · rw [hjoin, isAbsolute, isAbsolute, List.head?_append,
      Option.or_of_isSome (List.isSome_head?.2 hdir)]
  · rw [hjoin, isAbsolute, isAbsolute, List.head?_append, List.head?_append]
    rfl

theorem zero_not_mem_join {dir : Path} {name : Name} (hdir : 0 ∉ dir) (hname : 0 ∉ name) :
    0 ∉ dir.join name := by
  have hslash : (0 : UInt8) ≠ Byte.slash := by decide
  rw [join]
  split
  · exact List.not_mem_append hdir hname
  · exact List.not_mem_append hdir fun h => (List.mem_cons.1 h).elim hslash hname

/-- **The components of the path of what lies below a directory.** -/
theorem components_joined {dir : Path} {below : List Name} (hdir : dir ≠ [])
    (h : ∀ name ∈ below, IsName name) :
    components (below.foldl join dir) = components dir ++ below := by
  induction below generalizing dir with
  | nil => rw [List.append_nil]; rfl
  | cons name below ih =>
    have hname := h name (List.mem_cons_self ..)
    rw [List.foldl_cons, ih (join_ne_nil hdir name) fun n hn => h n (List.mem_cons_of_mem name hn),
      components_join hdir hname, List.append_assoc, List.singleton_append]

end Path

namespace Workspace

variable {w : Workspace}

/-! ## Following -/

/-- Parts after others are followed from where these lead. -/
theorem followParts_append (place : Location) (node : Node) (parts rest : List Name) :
    w.followParts place node (parts ++ rest) =
      (w.followParts place node parts).bind fun found => w.followParts found.1 found.2 rest := by
  induction parts generalizing place node with
  | nil => rfl
  | cons part parts ih =>
    cases node with
    | file content => rfl
    | directory =>
      simp only [List.cons_append, followParts]
      split
      · exact ih place .directory
      · split
        · exact ih place.dropLast .directory
        · split
          · rfl
          · exact ih (place ++ [part]) _

/-- A path that leads somewhere is not empty, holds no zero, and is followed part by part. -/
theorem follow_eq_ok_iff {p : Path} {found : Location × Node} :
    w.follow p = .ok found ↔
      p ≠ [] ∧ 0 ∉ p ∧ w.followParts (w.origin p) .directory p.parts = .ok found := by
  rw [follow]
  split
  next hempty =>
    rw [List.isEmpty_iff] at hempty
    constructor
    · exact nofun
    · exact fun h => (h.1 hempty).elim
  next hempty =>
    rw [List.isEmpty_iff] at hempty
    split
    next hzero =>
      rw [List.contains_iff_mem] at hzero
      constructor
      · exact nofun
      · exact fun h => (h.2.1 hzero).elim
    next hzero =>
      rw [List.contains_iff_mem] at hzero
      constructor
      · exact fun h => ⟨hempty, hzero, h⟩
      · exact fun h => h.2.2

/-- A slash at the end of a path to a directory leads no further. -/
theorem followParts_stem {stem dir : Path} {start place : Location}
    (hstem : dir = stem ∨ dir = stem ++ [Byte.slash])
    (h : w.followParts start .directory dir.parts = .ok (place, .directory)) :
    w.followParts start .directory stem.parts = .ok (place, .directory) := by
  rcases hstem with rfl | rfl
  · exact h
  · rw [Path.parts_append_slash, followParts_append] at h
    cases hfound : w.followParts start .directory stem.parts with
    | error e =>
      rw [hfound] at h
      cases h
    | ok found =>
      obtain ⟨place', node⟩ := found
      rw [hfound] at h
      -- the empty part after the slash can only be followed in a directory, and stays there
      cases node with
      | file content => cases h
      | directory => exact h

/-- The path of an entry of a directory leads to it. -/
theorem follow_join {dir : Path} {place : Location} {name : Name} {node : Node}
    (h : w.follow dir = .ok (place, .directory)) (hname : IsName name)
    (hnode : w.node? (place ++ [name]) = some node) :
    w.follow (dir.join name) = .ok (place ++ [name], node) := by
  obtain ⟨hdir, hzero, hfollow⟩ := follow_eq_ok_iff.1 h
  obtain ⟨stem, hstem, hjoin⟩ := Path.exists_stem hdir
  refine follow_eq_ok_iff.2 ⟨Path.join_ne_nil hdir name,
    Path.zero_not_mem_join hzero hname.zero_not_mem, ?_⟩
  have horigin : w.origin (dir.join name) = w.origin dir := by
    rw [origin, origin, Path.isAbsolute_join hdir]
  rw [horigin, hjoin, Path.parts_append_slash, Path.parts_of_slash_not_mem hname.slash_not_mem,
    followParts_append, followParts_stem hstem hfollow]
  show w.followParts place .directory [name] = .ok (place ++ [name], node)
  simp only [followParts, hname.moves, Bool.false_eq_true, if_false, if_neg hname.ne_up, hnode]

end Workspace

end MagicNumbers
