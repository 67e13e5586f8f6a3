/-
  A tree in which a file has been opened for writing.

  To open a file for writing puts an empty one in its place, be it new or not.  A run on such a tree
  differs from a run on the tree before only by what it reads or lists at that place.

  * `Workspace.emptied` — the tree with an empty file at a place.
  * `AgreeBut.follow`, `AgreeBut.follow_or` — trees that differ at one place, where neither has a
    directory; a path that leads elsewhere leads there in both, and with a file at the place in the second
    tree no other path comes out differently unless it was a dead end.
  * `Consults` — a run looks at a place: for settings, for its input, or for a file that it lists.
  * `ListsLater` — it lists a file at that place behind another one.
  * `writeReport_emptied` — at a place that a run does not consult, an empty file does not show.
-/
import MagicNumbers.Proofs.DirectoryScan

open scoped List

namespace MagicNumbers

namespace Workspace

variable {w : Workspace} {place : Location} {node : Node}

/-! ## Putting something at a place -/

/-- Without the entries of a place, nothing is found there, and elsewhere what was. -/
theorem lookup_filter_ne (entries : List (Location × Node)) (place q : Location) :
    (entries.filter fun entry => entry.1 != place).lookup q =
      if q = place then none else entries.lookup q := by
  induction entries with
  | nil =>
    rw [List.filter_nil, List.lookup_nil, ite_self]
  | cons entry entries ih =>
    obtain ⟨a, node⟩ := entry
    by_cases ha : a = place
    · rw [List.filter_cons_of_neg (by simp [ha]), ih]
      split
      · rfl
      · next hq => rw [List.lookup_cons, beq_eq_false_iff_ne.2 fun heq => hq (heq.trans ha)]
    · rw [List.filter_cons_of_pos (by simp [ha]), List.lookup_cons, List.lookup_cons, ih]
      by_cases hq : q = a
      · subst hq
        rw [beq_self_eq_true]
        exact (if_neg ha).symm
      · rw [beq_eq_false_iff_ne.2 hq]

/-- What was put at a place lies there, and elsewhere nothing has changed. -/
theorem node?_put (hplace : place ≠ []) (node : Node) (q : Location) :
    (w.put place node).node? q = if q = place then some node else w.node? q := by
  rw [node?, node?, put, List.lookup_append, lookup_filter_ne]
  by_cases hq : q = place
  · rw [if_pos hq, if_pos hq, if_neg (by simp [hq, hplace]), Option.none_or, List.lookup_cons, hq,
      beq_self_eq_true]
  · have hnone : [(place, node)].lookup q = none := by
      rw [List.lookup_cons, beq_eq_false_iff_ne.2 hq, List.lookup_nil]
    rw [if_neg hq, if_neg hq, hnone, Option.or_none]

theorem node?_put_self (hplace : place ≠ []) (node : Node) :
    (w.put place node).node? place = some node := by
  rw [node?_put hplace, if_pos rfl]

/-- What is put at a place takes the place of what has been put there before. -/
theorem put_put (node node' : Node) : (w.put place node).put place node' = w.put place node' := by
  simp [put, List.filter_append, List.filter_filter]

/-- The tree with an empty file at a place. -/
def emptied (w : Workspace) (place : Location) : Workspace := w.put place (.file [])

/-- To make a file is to have an empty one at its place. -/
theorem create_eq {p : Path} (h : w.placeFor p = .ok place) :
    w.create p = .ok (place, w.emptied place) := by
  rw [create, h]
  rfl

/-- A place that a file can be opened at: not the root, and not that of a directory. -/
structure Opens (w : Workspace) (place : Location) : Prop where
  ne_nil : place ≠ []
  not_directory : w.node? place ≠ some .directory

/-- Where a file can be made, it can be opened. -/
theorem opens_of_placeFor {p : Path} (h : w.placeFor p = .ok place) : w.Opens place := by
  rw [placeFor] at h
  split at h
  · cases h
  split at h
  · cases h
  simp only at h
  split at h
  · cases h
  split at h
  · cases h
  · cases h
  split at h
  · cases h
  split at h
  · cases h
  · next hnode =>
    cases h
    exact ⟨List.append_ne_nil_of_right_ne_nil _ (List.cons_ne_nil _ _), hnode⟩

/-- What lies elsewhere lies there once the file is open. -/
theorem Opens.node?_emptied (h : w.Opens place) (q : Location) :
    (w.emptied place).node? q = if q = place then some (.file []) else w.node? q :=
  node?_put h.ne_nil _ q

theorem Opens.node?_emptied_self (h : w.Opens place) :
    (w.emptied place).node? place = some (.file []) :=
  node?_put_self h.ne_nil _

/-! ## Following paths -/

/-- From a directory, a part leads nowhere else, up, or to what lies there. -/
theorem followParts_cons_eq_ok_iff {start : Location} {part : Name} {parts : List Name}
    {found : Location × Node} :
    w.followParts start .directory (part :: parts) = .ok found ↔
      (Path.staysPut part ∧ w.followParts start .directory parts = .ok found) ∨
      (¬ Path.staysPut part ∧ part = Path.up ∧
        w.followParts start.dropLast .directory parts = .ok found) ∨
      (¬ Path.staysPut part ∧ part ≠ Path.up ∧ ∃ node, w.node? (start ++ [part]) = some node ∧
        w.followParts (start ++ [part]) node parts = .ok found) := by
  rw [followParts]
  split
  · next hstays => simp [hstays]
  · next hstays =>
    split
    · next hup =>
      have hstays' : ¬ Path.staysPut Path.up := hup ▸ hstays
      simp [hup, hstays']
    · next hup =>
      cases hnode : w.node? (start ++ [part]) with
      | none => simp [hstays, hup, hnode]
      | some node => simp [hstays, hup, hnode]

/-- From a file, a path leads to the file. -/
theorem followParts_file_eq_ok {start q : Location} {content : Bytes} {parts : List Name}
    (h : w.followParts start (.file content) parts = .ok (q, node)) : q = start := by
  cases parts with
  | nil =>
    cases h
    rfl
  | cons part parts => cases h

/-! ## Trees that differ at one place -/

/-- Two trees that differ at most at one place, which is no directory of the first. -/
structure AgreeBut (place : Location) (w w' : Workspace) : Prop where
  current : w.current = w'.current
  elsewhere : ∀ q, q ≠ place → w.node? q = w'.node? q
  not_directory : w.node? place ≠ some .directory

theorem Opens.agreeBut (h : w.Opens place) : AgreeBut place w (w.emptied place) := by
  refine ⟨rfl, ?_, h.not_directory⟩
  intro q hq
  rw [h.node?_emptied, if_neg hq]

namespace AgreeBut

variable {w' : Workspace} (h : AgreeBut place w w')
include h

/-- Parts that lead elsewhere lead there in both trees: on their way they come through directories
    only. -/
theorem followParts {start q : Location} {origin : Node} {parts : List Name}
    (hfollow : w.followParts start origin parts = .ok (q, node)) (hq : q ≠ place) :
    w'.followParts start origin parts = .ok (q, node) := by
  induction parts generalizing start origin with
  | nil => exact hfollow
  | cons part parts ih =>
    cases origin with
    | file content => cases hfollow
    | directory =>
      rw [followParts_cons_eq_ok_iff] at hfollow ⊢
      rcases hfollow with ⟨hstays, hfollow⟩ | ⟨hstays, hup, hfollow⟩ |
        ⟨hstays, hup, found, hfound, hfollow⟩
      · exact .inl ⟨hstays, ih hfollow⟩
      · exact .inr (.inl ⟨hstays, hup, ih hfollow⟩)
      · have hchild : start ++ [part] ≠ place := by
          -- what lies at the place is no directory, so the parts would lead there
          intro hchild
          rw [hchild] at hfound hfollow
          cases found with
          | directory => exact h.not_directory hfound
          | file content => exact hq (followParts_file_eq_ok hfollow)
        rw [h.elsewhere _ hchild] at hfound
        exact .inr (.inr ⟨hstays, hup, found, hfound, ih hfollow⟩)

/-- A path that leads elsewhere leads there in both trees. -/
theorem follow {p : Path} {q : Location} (hfollow : w.follow p = .ok (q, node)) (hq : q ≠ place) :
    w'.follow p = .ok (q, node) := by
  rw [follow_eq_ok_iff] at hfollow ⊢
  obtain ⟨hne, hzero, hparts⟩ := hfollow
  refine ⟨hne, hzero, ?_⟩
  have horigin : w'.origin p = w.origin p := by rw [origin, origin, h.current]
  rw [horigin]
  exact h.followParts hparts hq

/-- With a file at the place in the second tree, a path leads to that file, or to the same in both trees,
    or nowhere in either; in the last case nothing lies at the place in the first. -/
theorem followParts_or {content : Bytes} (hfile : w'.node? place = some (.file content))
    (start : Location) (origin : Node) (parts : List Name) :
    w'.followParts start origin parts = .ok (place, .file content) ∨
    w'.followParts start origin parts = w.followParts start origin parts ∨
    (w.node? place = none ∧ (∃ e, w.followParts start origin parts = .error e) ∧
      ∃ e, w'.followParts start origin parts = .error e) := by
  induction parts generalizing start origin with
  | nil => exact .inr (.inl rfl)
  | cons part parts ih =>
    cases origin with
    | file content' => exact .inr (.inl rfl)
    | directory =>
      simp only [Workspace.followParts]
      split
      · exact ih start .directory
      split
      · exact ih start.dropLast .directory
      by_cases hchild : start ++ [part] = place
      · rw [hchild, hfile]
        cases parts with
        | nil => exact .inl rfl
        | cons part' parts =>
          -- the file cannot be gone through, whatever lies there in the first tree
          cases hnode : w.node? place with
          | none => exact .inr (.inr ⟨rfl, ⟨_, rfl⟩, ⟨_, rfl⟩⟩)
          | some node =>
            cases node with
            | directory => exact (h.not_directory hnode).elim
            | file content' => exact .inr (.inl rfl)
      · rw [h.elsewhere _ hchild]
        cases w'.node? (start ++ [part]) with
        | none => exact .inr (.inl rfl)
        | some node => exact ih (start ++ [part]) node

theorem follow_or {content : Bytes} (hfile : w'.node? place = some (.file content)) (p : Path) :
    w'.follow p = .ok (place, .file content) ∨ w'.follow p = w.follow p ∨
    (w.node? place = none ∧ (∃ e, w.follow p = .error e) ∧ ∃ e, w'.follow p = .error e) := by
  have horigin : w'.origin p = w.origin p := by rw [origin, origin, h.current]
  simp only [Workspace.follow, horigin]
  split
  · exact .inr (.inl rfl)
  split
  · exact .inr (.inl rfl)
  exact h.followParts_or hfile _ _ _

end AgreeBut

end Workspace

/-! ## What a run reads -/

/-- A path that leads to the same in two trees is reported on alike. -/
theorem Job.report_congr {w w' : Workspace} {p : Path} (h : w.follow p = w'.follow p) (job : Job) :
    job.report w p = job.report w' p := by
  rw [report, report, excess?, excess?, Workspace.size?, Workspace.size?, reportOn, reportOn,
    Workspace.read, Workspace.read, h]

theorem Settings.load_congr {w w' : Workspace} {file : Path} (h : w.follow file = w'.follow file) :
    load w file = load w' file := by
  rw [load, load, Workspace.readText, Workspace.readText, Workspace.read, Workspace.read, h]

theorem Settings.find_congr {w w' : Workspace} {named : Option Path}
    (h : w.follow (named.getD defaultFile) = w'.follow (named.getD defaultFile)) :
    find w named = find w' named := by
  cases named with
  | some file => exact load_congr h
  | none =>
    have h' : w.follow defaultFile = w'.follow defaultFile := h
    rw [find, find, Workspace.isFile, Workspace.isFile, h', load_congr h']

/-- An empty file sets nothing. -/
theorem Settings.find_of_empty {w : Workspace} {named : Option Path} {q : Location}
    (h : w.follow (named.getD defaultFile) = .ok (q, .file [])) : find w named = .ok {} := by
  have hload : load w (named.getD defaultFile) = .ok {} := by
    rw [load, Workspace.readText, Workspace.read, h]
    rfl
  cases named with
  | some file => exact hload
  | none =>
    have hfile : w.follow defaultFile = .ok (q, .file []) := h
    rw [find, Workspace.isFile, hfile]
    exact hload

/-- Neither does a file that is not there, if none has been named. -/
theorem Settings.find_of_missing {w : Workspace} {e : FileError}
    (h : w.follow defaultFile = .error e) : find w none = .ok {} := by
  rw [find, Workspace.isFile, h]
  rfl

/-- A file that has been named has to be there. -/
theorem Settings.eq_none_of_missing {w : Workspace} {named : Option Path} {settings : Settings}
    {e : FileError} (h : w.follow (named.getD defaultFile) = .error e)
    (hfind : find w named = .ok settings) : named = none := by
  cases named with
  | none => rfl
  | some file =>
    have hfile : w.follow file = .error e := h
    rw [find, load, Workspace.readText, Workspace.read, hfile] at hfind
    cases hfind

/-- Of the locations that have a property, order shows the same, whatever the others are. -/
theorem filter_mergeSort_le {keep : Location → Bool} {places places' : List Location}
    (h : places.filter keep = places'.filter keep) :
    (places.mergeSort fun a b => decide (a ≤ b)).filter keep =
      (places'.mergeSort fun a b => decide (a ≤ b)).filter keep := by
  apply List.Perm.eq_of_pairwise (fun a b _ _ => List.le_antisymm)
    ((pairwise_mergeSort_le places).filter keep) ((pairwise_mergeSort_le places').filter keep)
  have hperm := (List.mergeSort_perm places fun a b => decide (a ≤ b)).filter keep
  have hperm' := (List.mergeSort_perm places' fun a b => decide (a ≤ b)).filter keep
  rw [h] at hperm
  exact hperm.trans hperm'.symm

/-- What is put at a place does not show among the files that are kept, if it is none of them. -/
theorem Workspace.filter_filesBelow_put {w : Workspace} {dir place : Location}
    {keep : Location → Bool} (hkeep : ∀ below, below ≠ [] → place = dir ++ below → keep below = false)
    (node : Node) :
    ((w.put place node).filesBelow dir).filter keep = (w.filesBelow dir).filter keep := by
  -- what lies at the place is either not below the directory or not kept
  have hnone : ∀ node, (fileBelow? dir (place, node)).filter keep = none := by
    intro node
    rw [Option.filter_eq_none_iff]
    intro below hbelow
    obtain ⟨hne, content, hentry⟩ := fileBelow?_eq_some_iff.1 hbelow
    rw [hkeep below hne (Prod.mk.inj hentry).1]
    exact Bool.false_ne_true
  have hlast : [(place, node)].filterMap (fun entry => (fileBelow? dir entry).filter keep) = [] :=
    List.filterMap_cons_none (hnone node)
  rw [filesBelow_eq, filesBelow_eq, put, List.filter_filterMap, List.filter_filterMap,
    List.filterMap_append, hlast, List.append_nil, List.filterMap_filter]
  apply List.filterMap_congr
  rintro ⟨q, node'⟩ -
  by_cases hq : q = place
  · rw [hq, hnone node', if_neg (by simp)]
  · rw [if_pos (by simp [hq])]

/-- A file at a place is not listed where it would not be scanned. -/
theorem supportedBelow_put {w : Workspace} {dir place : Location} {input : Path}
    {extensions : List String}
    (h : ∀ below, below ≠ [] → place = dir ++ below →
      isSupported extensions (below.foldl Path.join input) = false) (node : Node) :
    supportedBelow (w.put place node) dir input extensions =
      supportedBelow w dir input extensions := by
  rw [supportedBelow, supportedBelow, List.filter_map, List.filter_map]
  exact congrArg _ (filter_mergeSort_le (Workspace.filter_filesBelow_put h node))

section

variable {w : Workspace} {place : Location} {input : Path} {named : Option Path}

/-- A run on `input`, with settings in a `named` file or none, consults a place: its settings or its
    input are there, or a file there is listed with its input. -/
inductive Consults (w : Workspace) (input : Path) (named : Option Path) (place : Location) : Prop where
  | settings {node : Node} (h : w.follow (named.getD Settings.defaultFile) = .ok (place, node))
  | input {node : Node} (h : w.follow input = .ok (place, node))
  | listed {dir below : Location} {settings : Settings} (hdir : w.follow input = .ok (dir, .directory))
      (hbelow : below ≠ []) (hplace : place = dir ++ below)
      (hsettings : Settings.find w named = .ok settings)
      (hsupported : isSupported settings.extensions (below.foldl Path.join input))

/-- Behind another file a run lists one that leads to a place. -/
def ListsLater (w : Workspace) (input : Path) (named : Option Path) (place : Location) : Prop :=
  ∃ settings files, Settings.find w named = .ok settings ∧
    inputFiles w input settings.extensions = .ok files ∧
    ∃ p ∈ files.tail, ∃ node, w.follow p = .ok (place, node)

/-- What is read elsewhere is read as before. -/
theorem follow_emptied {p : Path} {q : Location} {node : Node} (hopens : w.Opens place)
    (h : w.follow p = .ok (q, node)) (hq : q ≠ place) :
    w.follow p = (w.emptied place).follow p :=
  h.trans (hopens.agreeBut.follow h hq).symm

/-- The settings are found as before, or their file is the one that has been opened. -/
theorem find_emptied_or {settings : Settings} (hopens : w.Opens place)
    (h : Settings.find w named = .ok settings) :
    Settings.find (w.emptied place) named = .ok settings ∨
    ((w.emptied place).follow (named.getD Settings.defaultFile) = .ok (place, .file []) ∧
      Settings.find (w.emptied place) named = .ok {}) := by
  rcases hopens.agreeBut.follow_or hopens.node?_emptied_self (named.getD Settings.defaultFile) with
    hthere | hsame | ⟨-, ⟨e, hmissing⟩, ⟨e', hmissing'⟩⟩
  · exact .inr ⟨hthere, Settings.find_of_empty hthere⟩
  · exact .inl ((Settings.find_congr hsame).trans h)
  · obtain rfl := Settings.eq_none_of_missing hmissing h
    rw [Settings.find_of_missing hmissing] at h
    rw [Settings.find_of_missing hmissing']
    exact .inl h

/-- If they are elsewhere, they are found as before: an empty file sets nothing. -/
theorem find_emptied {settings : Settings} (hopens : w.Opens place)
    (hconsults : ¬ Consults w input named place) (h : Settings.find w named = .ok settings) :
    Settings.find (w.emptied place) named = .ok settings := by
  rcases find_emptied_or hopens h with hfind | ⟨hthere, hfind⟩
  · exact hfind
  · cases hfollow : w.follow (named.getD Settings.defaultFile) with
    | ok found =>
      obtain ⟨q, node⟩ := found
      have hq : q ≠ place := by
        rintro rfl
        exact hconsults (.settings hfollow)
      rw [hopens.agreeBut.follow hfollow hq] at hthere
      exact (hq (Prod.mk.inj (Except.ok.inj hthere)).1).elim
    | error e =>
      obtain rfl := Settings.eq_none_of_missing hfollow h
      rw [Settings.find_of_missing hfollow] at h
      rw [hfind, h]

/-- An input that is there is still there. -/
theorem exists_inputFiles_emptied {extensions : List String} {files : List Path}
    (hopens : w.Opens place) (h : inputFiles w input extensions = .ok files)
    (extensions' : List String) :
    ∃ files', inputFiles (w.emptied place) input extensions' = .ok files' := by
  rcases hopens.agreeBut.follow_or hopens.node?_emptied_self input with hthere | hsame | ⟨-, ⟨e, hmissing⟩, -⟩
  · exact ⟨[input], by rw [inputFiles, hthere]⟩
  · rw [inputFiles] at h
    rw [inputFiles, hsame]
    split at h
    · exact ⟨_, rfl⟩
    · exact ⟨_, rfl⟩
    · cases h
  · rw [inputFiles, hmissing] at h
    cases h

/-- So are the files to scan, and each of them is elsewhere. -/
theorem inputFiles_emptied {settings : Settings} {files : List Path} (htree : w.IsTree)
    (hopens : w.Opens place) (hconsults : ¬ Consults w input named place)
    (hsettings : Settings.find w named = .ok settings)
    (h : inputFiles w input settings.extensions = .ok files) :
    inputFiles (w.emptied place) input settings.extensions = .ok files ∧
    ∀ p ∈ files, ∃ q node, w.follow p = .ok (q, node) ∧ q ≠ place := by
  cases hinput : w.follow input with
  | error e =>
    rw [inputFiles, hinput] at h
    cases h
  | ok found =>
    obtain ⟨q, node⟩ := found
    have hq : q ≠ place := by
      rintro rfl
      exact hconsults (.input hinput)
    rw [inputFiles, hinput] at h
    rw [inputFiles, ← follow_emptied hopens hinput hq, hinput]
    cases node with
    | file content =>
      cases h
      refine ⟨rfl, ?_⟩
      intro p hp
      rw [List.mem_singleton.1 hp]
      exact ⟨q, _, hinput, hq⟩
    | directory =>
      cases h
      have hunlisted : ∀ below, below ≠ [] → place = q ++ below →
          isSupported settings.extensions (below.foldl Path.join input) = false := by
        intro below hne hplace
        rw [Bool.eq_false_iff]
        exact fun hsupported => hconsults (.listed hinput hne hplace hsettings hsupported)
      constructor
      · exact congrArg _ (supportedBelow_put hunlisted (.file []))
      · intro p hp
        obtain ⟨below, content, hne, hnode, rfl, hsupported⟩ := (mem_supportedBelow htree).1 hp
        refine ⟨_, _, htree.follow_joined hinput hne hnode, ?_⟩
        intro hplace
        exact hconsults (.listed hinput hne hplace.symm hsettings hsupported)

/-- A file that a run does not consult is not listed once it is open. -/
theorem not_listsLater_emptied {settings : Settings} {files : List Path} (htree : w.IsTree)
    (hopens : w.Opens place) (hconsults : ¬ Consults w input named place)
    (hsettings : Settings.find w named = .ok settings)
    (hfiles : inputFiles w input settings.extensions = .ok files) :
    ¬ ListsLater (w.emptied place) input named place := by
  rintro ⟨settings', files', hsettings', hfiles', p, hp, node, hfollow⟩
  obtain ⟨hlisted, helsewhere⟩ := inputFiles_emptied htree hopens hconsults hsettings hfiles
  obtain rfl := Except.ok.inj ((find_emptied hopens hconsults hsettings).symm.trans hsettings')
  obtain rfl := Except.ok.inj (hlisted.symm.trans hfiles')
  obtain ⟨q, node', hfollow', hq⟩ := helsewhere p (List.mem_of_mem_tail hp)
  rw [← follow_emptied hopens hfollow' hq, hfollow'] at hfollow
  exact hq (Prod.mk.inj (Except.ok.inj hfollow)).1

/-- **An empty file that a run does not consult does not show in its report.** -/
theorem writeReport_emptied {run : RunOptions} {report : String × Tally} (htree : w.IsTree)
    (hopens : w.Opens place) (hconsults : ¬ Consults w input run.settingsFile place)
    (h : writeReport w input run = .ok report) :
    writeReport (w.emptied place) input run = .ok report := by
  obtain ⟨settings, files, hsettings, hfiles⟩ := exists_of_reportWith h
  obtain ⟨hlisted, helsewhere⟩ := inputFiles_emptied htree hopens hconsults hsettings hfiles
  have hreports : files.map ((Job.ofSettings settings run).report (w.emptied place)) =
      files.map ((Job.ofSettings settings run).report w) := by
    apply List.map_congr_left
    intro p hp
    obtain ⟨q, node, hfollow, hq⟩ := helsewhere p hp
    exact (Job.report_congr (follow_emptied hopens hfollow hq) _).symm
  rw [writeReport_eq (find_emptied hopens hconsults hsettings) hlisted, hreports,
    ← writeReport_eq hsettings hfiles, h]

end

end MagicNumbers
