/-
  Files and directories as they stand.

  A workspace is a picture of a file tree: what lies at each location, and the location that relative
  paths start from.  Following a path goes part by part; only directories can be gone through.

  * `follow` : where a path leads and what lies there.
  * `read` : the content of a file.
  * `create` : an empty file at a path, in place of the file that may have been there.
  * `filesBelow` : the files of a directory at any depth, by their names from it on.
-/
import MagicNumbers.Files.Path

namespace MagicNumbers

/-- The names that lead from the root to a place. -/
abbrev Location := List Name

/-- What can lie at a location. -/
inductive Node where
  | file (content : Bytes)
  | directory
  deriving DecidableEq, Repr

/-- Why a path could not be used. -/
inductive FileError where
  | notFound
  | notDirectory
  | isDirectory
  | notText
  /-- No path holds a byte of value zero. -/
  | zeroByte
  deriving DecidableEq, Repr

/-- The error in the words of the system. -/
def FileError.message : FileError → String
  | notFound => "No such file or directory (os error 2)"
  | notDirectory => "Not a directory (os error 20)"
  | isDirectory => "Is a directory (os error 21)"
  | notText => "stream did not contain valid UTF-8"
  | zeroByte => "file name contained an unexpected NUL byte"

/-- A file tree.  The root is always there and has no entry. -/
structure Workspace where
  current : Location := []
  entries : List (Location × Node) := []
  deriving DecidableEq, Repr

namespace Workspace

/-! ## Looking and changing -/

/-- What lies at a location. -/
def node? (w : Workspace) (place : Location) : Option Node :=
  if place.isEmpty then some .directory else w.entries.lookup place

/-- The tree with something else at a location. -/
def put (w : Workspace) (place : Location) (node : Node) : Workspace :=
  { w with entries := (w.entries.filter fun entry => entry.1 != place) ++ [(place, node)] }

/-- The tree with the first `n` names of a location as directories, unless something is there. -/
def ensureParents (w : Workspace) (place : Location) : Workspace :=
  (List.range place.length).foldl
    (fun w n =>
      let parent := place.take n
      if (w.node? parent).isSome then w else w.put parent .directory)
    w

/-- The tree with a file and the directories it lies in. -/
def addFile (w : Workspace) (place : Location) (content : Bytes) : Workspace :=
  (w.ensureParents place).put place (.file content)

/-- The tree with a directory and those it lies in. -/
def addDirectory (w : Workspace) (place : Location) : Workspace :=
  let w := w.ensureParents place
  if (w.node? place).isSome then w else w.put place .directory

/-! ## Following paths -/

/-- Follows the parts of a path from a place where `node` lies. -/
def followParts (w : Workspace) (place : Location) (node : Node) :
    List Name → Except FileError (Location × Node)
  | [] => .ok (place, node)
  | part :: rest =>
    match node with
    | .file _ => .error .notDirectory
    | .directory =>
      if Path.staysPut part then followParts w place .directory rest
      else if part = Path.up then followParts w place.dropLast .directory rest
      else
        let child := place ++ [part]
        match w.node? child with
        | none => .error .notFound
        | some node => followParts w child node rest

/-- The location that a path starts from. -/
def origin (w : Workspace) (p : Path) : Location := if p.isAbsolute then [] else w.current

/-- Where a path leads and what lies there.  The empty path leads nowhere. -/
def follow (w : Workspace) (p : Path) : Except FileError (Location × Node) :=
  if p.isEmpty then .error .notFound
  else if p.contains 0 then .error .zeroByte
  else w.followParts (w.origin p) .directory p.parts

/-- Whether a path leads to a file. -/
def isFile (w : Workspace) (p : Path) : Bool :=
  match w.follow p with
  | .ok (_, .file _) => true
  | _ => false

/-- The content of the file that a path leads to. -/
def read (w : Workspace) (p : Path) : Except FileError Bytes :=
  match w.follow p with
  | .error e => .error e
  | .ok (_, .directory) => .error .isDirectory
  | .ok (_, .file content) => .ok content

/-- The text of the file that a path leads to. -/
def readText (w : Workspace) (p : Path) : Except FileError String :=
  match w.read p with
  | .error e => .error e
  | .ok content =>
    match Utf8.decode? content with
    | some text => .ok text
    | none => .error .notText

/-- The size of the file that a path leads to. -/
def size? (w : Workspace) (p : Path) : Option Nat :=
  match w.follow p with
  | .ok (_, .file content) => some content.length
  | _ => none

/-! ## Writing -/

/-- Where a file of the given path lies or would lie.  Its directory has to be there, and the path has
    to end in a name that no directory has. -/
def placeFor (w : Workspace) (p : Path) : Except FileError Location :=
  if p.isEmpty then .error .notFound
  else if p.contains 0 then .error .zeroByte
  else
    let names := (p.parts.reverse.dropWhile List.isEmpty).reverse
    match names.getLast? with
    | none => .error .isDirectory
    | some last =>
      match w.followParts (w.origin p) .directory names.dropLast with
      | .error e => .error e
      | .ok (_, .file _) => .error .notDirectory
      | .ok (parent, .directory) =>
        if p.getLast? = some Byte.slash ∨ last = Path.here ∨ last = Path.up then .error .isDirectory
        else if w.node? (parent ++ [last]) = some .directory then .error .isDirectory
        else .ok (parent ++ [last])

/-- Makes an empty file at a path, or empties the one there.  Gives its location too. -/
def create (w : Workspace) (p : Path) : Except FileError (Location × Workspace) :=
  match w.placeFor p with
  | .error e => .error e
  | .ok place => .ok (place, w.put place (.file []))

/-! ## Walking -/

/-- What is left of a location once the names that lead to a directory are gone. -/
def below? : Location → Location → Option Location
  | [], place => some place
  | _ :: _, [] => none
  | a :: dir, b :: place => if a = b then below? dir place else none

/-- The files at any depth below a directory, by the names that lead to them from it. -/
def filesBelow (w : Workspace) (dir : Location) : List Location :=
  w.entries.filterMap fun (place, node) =>
    match node, below? dir place with
    | .file _, some (name :: rest) => some (name :: rest)
    | _, _ => none

end Workspace

end MagicNumbers
