/-
  Paths as they are written.

  A path is its bytes, and its parts are what lies between slashes.  Two slashes in a row and a slash
  at the end leave an empty part, which like `.` means to stay.

  * `extension?` is what decides whether a file is scanned.
  * `join` writes the path of an entry of a directory.
-/
import MagicNumbers.Text.Utf8

namespace MagicNumbers

/-- A path as it is written, relative or not. -/
abbrev Path := Bytes

/-- One entry's name in a directory. -/
abbrev Name := Bytes

namespace Path

/-- What lies between the slashes of a path. -/
def parts : Path → List Name
  | [] => [[]]
  | b :: p =>
    if b = Byte.slash then [] :: parts p
    else
      match parts p with
      | [] => [[b]]
      | part :: rest => (b :: part) :: rest

/-- The part that stands for the directory it is in. -/
def here : Name := [Byte.dot]

/-- The part that stands for the directory around it. -/
def up : Name := [Byte.dot, Byte.dot]

/-- Whether a part leads nowhere else. -/
def staysPut (part : Name) : Bool := part.isEmpty || part == here

/-- Whether a path starts at the root. -/
def isAbsolute (p : Path) : Bool := p.head? == some Byte.slash

/-- The name that a path ends in, if it ends in one. -/
def fileName? (p : Path) : Option Name :=
  match (p.parts.filter fun part => !staysPut part).getLast? with
  | some name => if name = up then none else some name
  | none => none

/-- The bytes after the last dot of a name, if the dot does not lead the name. -/
def nameExtension? (name : Name) : Option Bytes :=
  let after := (name.reverse.takeWhile (· != Byte.dot)).reverse
  if after.length + 1 < name.length then some after else none

/-- The extension of the file that a path names. -/
def extension? (p : Path) : Option Bytes := p.fileName?.bind nameExtension?

/-- The path of an entry of a directory. -/
def join (dir : Path) (name : Name) : Path :=
  if dir.isEmpty || dir.getLast? == some Byte.slash then dir ++ name
  else dir ++ Byte.slash :: name

/-- The path in print. -/
def display (p : Path) : String := Utf8.decodeLossy p

/-! ## Extensions on examples -/

example : extension? (Bytes.ofString "src/Main.java") = some (Bytes.ofString "java") := by
  decide +kernel

example : extension? (Bytes.ofString "a/.java") = none := by decide +kernel

example : extension? (Bytes.ofString "a.") = some [] := by decide +kernel

example : extension? (Bytes.ofString "a.java/./") = some (Bytes.ofString "java") := by
  decide +kernel

end Path

end MagicNumbers
