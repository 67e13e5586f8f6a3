/-
  The settings of a run.

  A settings file is a TOML document with up to four keys; what it leaves out keeps its default.  The
  options of a run come before what the file says, except that the switch for the old line count can
  only be turned on.

  * `Settings.ofText` reads a file's text; a key that is not known, or has a value of the wrong
    kind, is refused.
  * `Settings.find` : the file named on the command line, else the one in the current directory, else
    the defaults.
-/
import MagicNumbers.Failure
import MagicNumbers.Files.Workspace
import MagicNumbers.Toml.Document
import MagicNumbers.Scan.Finding

namespace MagicNumbers

/-- What a settings file can set. -/
structure Settings where
  /-- The extensions of the files to scan, with or without leading dots. -/
  extensions : List String := ["java"]
  /-- The words that together declare a constant. -/
  safeKeywords : List String := ["static", "final"]
  /-- Whether the line ends of skipped blocks are left out of the count. -/
  legacyLineDrift : Bool := false
  /-- The size in bytes beyond which a file is not scanned. -/
  maxFileSize : Option Nat := none
  deriving DecidableEq, Repr

/-- How reports are written. -/
inductive OutputFormat where
  | text
  | json
  deriving DecidableEq, Repr

/-- What is asked of a run, besides the place to scan. -/
structure RunOptions where
  maxFileSize : Option Nat := none
  format : OutputFormat := .text
  settingsFile : Option Path := none
  legacyLineDrift : Bool := false
  /-- How many workers scan; left open, the program chooses. -/
  threads : Option Nat := none
  deriving DecidableEq, Repr

/-- Why a text holds no settings. -/
inductive SettingsError where
  | notToml
  | unknownKey (key : String)
  | wrongKind (key : String)
  deriving DecidableEq, Repr

/-- The reason in words. -/
def SettingsError.message : SettingsError → String
  | notToml => "not a TOML document of keys and values"
  | unknownKey key => s!"unknown key {key}"
  | wrongKind key => s!"wrong kind of value for {key}"

namespace Settings

/-- The settings with one more key taken into account. -/
def set (s : Settings) (key : String) (value : Toml.Value) : Except SettingsError Settings :=
  if key = "extensions" then
    match value with
    | .texts items => .ok { s with extensions := items }
    | _ => .error (.wrongKind key)
  else if key = "safe_keywords" then
    match value with
    | .texts items => .ok { s with safeKeywords := items }
    | _ => .error (.wrongKind key)
  else if key = "legacy_line_drift" then
    match value with
    | .boolean b => .ok { s with legacyLineDrift := b }
    | _ => .error (.wrongKind key)
  else if key = "max_file_size" then
    match value with
    | .integer (.ofNat n) => .ok { s with maxFileSize := some n }
    | _ => .error (.wrongKind key)
  else .error (.unknownKey key)

/-- The settings with some keys taken into account in turn. -/
def setAll (s : Settings) : List (String × Toml.Value) → Except SettingsError Settings
  | [] => .ok s
  | (key, value) :: rest =>
    match s.set key value with
    | .error e => .error e
    | .ok s => setAll s rest

/-- The settings that a text holds. -/
def ofText (text : String) : Except SettingsError Settings :=
  match Toml.document? text with
  | none => .error .notToml
  | some pairs => setAll {} pairs

/-- The settings that a file holds. -/
def load (w : Workspace) (file : Path) : Except Failure Settings :=
  match w.readText file with
  | .error e => .error ⟨s!"read config {file.display}", [e.message]⟩
  | .ok text =>
    match ofText text with
    | .error e => .error ⟨s!"parse config {file.display}", [e.message]⟩
    | .ok s => .ok s

/-- The file that is looked for when none is named. -/
def defaultFile : Path := Bytes.ofString "./magicscan.toml"

/-- The settings of a run. -/
def find (w : Workspace) (named : Option Path) : Except Failure Settings :=
  match named with
  | some file => load w file
  | none => if w.isFile defaultFile then load w defaultFile else .ok {}

/-! ## Together with the options of a run -/

/-- How sources are lexed. -/
def lexOptions (s : Settings) (run : RunOptions) : LexOptions :=
  { safeKeywords := s.safeKeywords.map Bytes.ofString
    legacyLineDrift := s.legacyLineDrift || run.legacyLineDrift }

/-- The size limit in force. -/
def sizeLimit (s : Settings) (run : RunOptions) : Option Nat := run.maxFileSize.or s.maxFileSize

end Settings

/-! ## Files to scan -/

/-- An extension as settings give it, without leading dots. -/
def bareExtension (e : String) : Bytes := (Bytes.ofString e).dropWhile (· == Byte.dot)

/-- An upper-case ASCII letter turned into the lower-case one. -/
def lowerByte (b : UInt8) : UInt8 := if 0x41 ≤ b && b ≤ 0x5A then b + 0x20 else b

/-- Whether a path has one of some extensions, upper and lower case being one.  An extension that is not
    UTF-8 is none of them. -/
def isSupported (extensions : List String) (p : Path) : Bool :=
  match p.extension? with
  | none => false
  | some e =>
    (Utf8.decode? e).isSome &&
      extensions.any fun wanted => (bareExtension wanted).map lowerByte == e.map lowerByte

end MagicNumbers
