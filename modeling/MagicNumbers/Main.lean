/-
  The program.

  Everything is decided by `Command.run` on a picture of the files.  Here the picture is taken, of
  the paths that the request names and of the supported files below its input, and what the run
  leaves behind is written out.
-/
import MagicNumbers.Command.Run

namespace MagicNumbers.Program

open Command

/-- The names of a path that leads from the root. -/
def names (p : String) : Location :=
  (Path.parts (Bytes.ofString p)).filter fun part => !Path.staysPut part

/-- Adds what lies at a path.  The content of a file is only read if `wanted`. -/
def addNode (w : Workspace) (place : Location) (p : String) (wanted : Bool) : IO Workspace := do
  let path := System.mkFilePath [p]
  if ← path.isDir then return w.addDirectory place
  if !(← path.pathExists) then return w
  if !wanted then return w
  return w.addFile place (← IO.FS.readBinFile path).data.toList

/-- Adds what lies at a path and at each directory on its way. -/
def addPath (w : Workspace) (p : String) : IO Workspace := do
  let mut w := w
  let mut place := if p.startsWith "/" then [] else w.current
  let mut walked := ""
  for part in p.splitOn "/" do
    walked := walked ++ part ++ "/"
    let name := Bytes.ofString part
    if Path.staysPut name then continue
    if name = Path.up then
      place := place.dropLast
      continue
    place := place ++ [name]
    w ← addNode w place (walked.dropEnd 1).toString true
  return w

/-- Adds the supported files below a directory. -/
partial def addBelow (w : Workspace) (place : Location) (p : String) (extensions : List String) :
    IO Workspace := do
  let mut w := w
  for entry in ← (System.mkFilePath [p]).readDir do
    let name := Bytes.ofString entry.fileName
    let child := place ++ [name]
    let path := p ++ "/" ++ entry.fileName
    w ← addNode w child path (isSupported extensions (Bytes.ofString path))
    if w.node? child = some .directory then w ← addBelow w child path extensions
  return w

/-- The picture of the files that a request is about, `input` being what it scans. -/
def picture (request : Request) (input : String) : IO Workspace := do
  let here := names (← IO.currentDir).toString
  let mut w := ({ current := here } : Workspace).addDirectory here
  let texts := [request.settingsFile, request.outputFile].filterMap id
  for p in Path.display Settings.defaultFile :: input :: texts.map Path.display do
    w ← addPath w p
  match w.follow (Bytes.ofString input) with
  | .ok (place, .directory) => addBelow w place input (request.extensions w)
  | _ => return w

/-- The rest of the line that is being typed, `line` being what has been read of it. -/
partial def typedLine (input : IO.FS.Stream) (line : Bytes) : IO Bytes := do
  match (← input.read 1).data.toList with
  | [] => return line.reverse
  | b :: _ =>
    if b = Byte.lineFeed then return (b :: line).reverse else typedLine input (b :: line)

/-- Shows what a run leaves behind and writes its output file. -/
def leave (request : Option Request) (before : Workspace) (o : Outcome) (shown : String) :
    IO UInt32 := do
  let out ← IO.getStdout
  out.putStr (o.output.drop shown.length).toString
  out.flush
  if !o.error.isEmpty then IO.eprintln o.error
  if let some file := request.bind Request.outputFile then
    if let .ok _ := before.create file then
      if let .ok content := o.files.read file then
        IO.FS.writeBinFile (System.mkFilePath [file.display]) ⟨content.toArray⟩
  return UInt32.ofNat o.code

end MagicNumbers.Program

section

open MagicNumbers MagicNumbers.Program

/-- Runs the program on its arguments. -/
def main (args : List String) : IO UInt32 := do
  match Command.Request.ofArgs args with
  | .ok (.scan r) =>
    let w ← picture (.scan r) r.input.display
    leave (some (.scan r)) w (Command.run w args []) ""
  | .ok .prompt =>
    let out ← IO.getStdout
    out.putStr Command.promptText
    out.flush
    let typed ← typedLine (← IO.getStdin) []
    let name := (Command.readName typed).toOption.getD ""
    let w ← picture .prompt name
    leave (some .prompt) w (Command.run w args typed) Command.promptText
  | _ => leave none {} (Command.run {} args []) ""

end
