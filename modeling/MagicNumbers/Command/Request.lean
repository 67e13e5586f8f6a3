/-
  The command line.

  There are two commands, `scan` and `prompt`; without a command the program prompts.  Arguments are
  read from left to right, and the first one that is wrong settles the matter, as does the first that
  asks for help.

  * `Arg.ofString` tells options from values by their dashes.
  * `Request.ofArgs` : what the arguments ask for, or what is wrong with them.
-/
import MagicNumbers.Settings
import MagicNumbers.Text.Decimal

namespace MagicNumbers.Command

/-! ## Arguments -/

/-- What an argument looks like. -/
inductive Arg where
  /-- Two dashes alone: no option follows. -/
  | escape
  /-- `--name`, or `--name=value`. -/
  | long (name : String) (value : Option String)
  /-- A dash and at least one letter. -/
  | short (letters : List Char)
  | plain (s : String)
  deriving DecidableEq, Repr

/-- Reads the dashes of an argument.  A dash alone is a value. -/
def Arg.ofString (s : String) : Arg :=
  match s.toList with
  | ['-', '-'] => .escape
  | '-' :: '-' :: cs =>
    match cs.dropWhile (· != '=') with
    | _ :: value => .long (String.ofList (cs.takeWhile (· != '='))) (some (String.ofList value))
    | [] => .long (String.ofList cs) none
  | '-' :: c :: cs => .short (c :: cs)
  | _ => .plain s

/-- An option of `scan` that takes a value. -/
inductive Opt where
  | input
  | output
  | format
  | threads
  | maxFileSize
  | config
  deriving DecidableEq, Repr

/-- The name of an option, without its dashes. -/
def Opt.name : Opt → String
  | input => "input"
  | output => "output"
  | format => "format"
  | threads => "threads"
  | maxFileSize => "max-file-size"
  | config => "config"

/-- The option of a name. -/
def Opt.ofName? (name : String) : Option Opt :=
  [Opt.input, .output, .format, .threads, .maxFileSize, .config].find? fun opt => opt.name == name

/-- What is wrong with a command line. -/
inductive UsageError where
  | unexpected (arg : String)
  | missingValue (opt : Opt)
  | invalidValue (opt : Opt) (value : String)
  | repeated (name : String)
  | missingInput
  deriving DecidableEq, Repr

/-- What is wrong, in words. -/
def UsageError.message : UsageError → String
  | unexpected arg => s!"error: unexpected argument {arg}"
  | missingValue opt => s!"error: a value is required for --{opt.name}"
  | invalidValue opt value => s!"error: invalid value {value} for --{opt.name}"
  | repeated name => s!"error: --{name} cannot be used multiple times"
  | missingInput => "error: --input is required"

/-! ## Requests -/

/-- What `scan` is asked to do.  The number of threads is read later. -/
structure ScanRequest where
  input : Path
  output : Option Path := none
  format : OutputFormat := .text
  threads : String := "auto"
  maxFileSize : Option Nat := none
  settingsFile : Option Path := none
  legacyLineDrift : Bool := false
  deriving DecidableEq, Repr

/-- What the program is asked to do. -/
inductive Request where
  | scan (r : ScanRequest)
  | prompt
  | help
  | version
  deriving DecidableEq, Repr

/-- The options of `scan` read so far. -/
structure Draft where
  input : Option Path := none
  output : Option Path := none
  format : Option OutputFormat := none
  threads : Option String := none
  maxFileSize : Option Nat := none
  settingsFile : Option Path := none
  legacyLineDrift : Bool := false
  deriving DecidableEq, Repr

namespace Draft

/-- Whether an option has been given. -/
def has (d : Draft) : Opt → Bool
  | .input => d.input.isSome
  | .output => d.output.isSome
  | .format => d.format.isSome
  | .threads => d.threads.isSome
  | .maxFileSize => d.maxFileSize.isSome
  | .config => d.settingsFile.isSome

/-- A path that is not empty. -/
def path? (value : String) : Option Path :=
  if value.isEmpty then none else some (Bytes.ofString value)

/-- The format of a name. -/
def format? (value : String) : Option OutputFormat :=
  if value = "text" then some .text else if value = "json" then some .json else none

/-- The draft with a value that the option admits. -/
def admit? (d : Draft) (opt : Opt) (value : String) : Option Draft :=
  match opt with
  | .input => (path? value).map fun p => { d with input := some p }
  | .output => (path? value).map fun p => { d with output := some p }
  | .format => (format? value).map fun f => { d with format := some f }
  | .threads => some { d with threads := some value }
  | .maxFileSize =>
    (Text.natural? Text.maxWord value).map fun n => { d with maxFileSize := some n }
  | .config => (path? value).map fun p => { d with settingsFile := some p }

/-- The draft with one more option.  None may be given twice. -/
def give (d : Draft) (opt : Opt) (value : String) : Except UsageError Draft :=
  if d.has opt then .error (.repeated opt.name)
  else
    match d.admit? opt value with
    | some d => .ok d
    | none => .error (.invalidValue opt value)

/-- The finished request.  The input is required. -/
def finish (d : Draft) : Except UsageError Request :=
  match d.input with
  | none => .error .missingInput
  | some input =>
    .ok <| .scan
      { input
        output := d.output
        format := d.format.getD .text
        threads := d.threads.getD "auto"
        maxFileSize := d.maxFileSize
        settingsFile := d.settingsFile
        legacyLineDrift := d.legacyLineDrift }

/-- Reads the arguments of `scan`, the last of which may have been an option that waits for its value.
    -/
def readArgs (d : Draft) (waiting : Option Opt) : List String → Except UsageError Request
  | [] =>
    match waiting with
    | some opt => .error (.missingValue opt)
    | none => d.finish
  | arg :: rest =>
    match waiting, Arg.ofString arg with
    | some opt, .plain value =>
      match d.give opt value with
      | .ok d => readArgs d none rest
      | .error e => .error e
    | some opt, _ => .error (.missingValue opt)
    | none, .plain s => .error (.unexpected s)
    | none, .escape =>
      match rest with
      | [] => d.finish
      | s :: _ => .error (.unexpected s)
    | none, .short letters =>
      if letters.head? = some 'h' then .ok .help else .error (.unexpected arg)
    | none, .long name value =>
      match Opt.ofName? name, value with
      | some opt, some value =>
        match d.give opt value with
        | .ok d => readArgs d none rest
        | .error e => .error e
      | some opt, none => readArgs d (some opt) rest
      | none, some _ => .error (.unexpected arg)
      | none, none =>
        if name = "help" then .ok .help
        else if name = "legacy-line-drift" then
          if d.legacyLineDrift then .error (.repeated name)
          else readArgs { d with legacyLineDrift := true } none rest
        else .error (.unexpected arg)

end Draft

namespace Request

/-- Reads the arguments of a command that takes none. -/
def ofNoArgs (request : Request) : List String → Except UsageError Request
  | [] => .ok request
  | arg :: rest =>
    match Arg.ofString arg, rest with
    | .escape, [] => .ok request
    | .escape, s :: _ => .error (.unexpected s)
    | .long "help" none, _ => .ok .help
    | .short ('h' :: _), _ => .ok .help
    | _, _ => .error (.unexpected arg)

/-- Reads the arguments of `help`: at most one command. -/
def ofHelpArgs : List String → Except UsageError Request
  | [] => .ok .help
  | [command] =>
    if ["scan", "prompt", "help"].contains command then .ok .help
    else .error (.unexpected command)
  | _ :: s :: _ => .error (.unexpected s)

/-- What the arguments of the program ask for. -/
def ofArgs (args : List String) : Except UsageError Request :=
  match args with
  | "scan" :: rest => Draft.readArgs {} none rest
  | "prompt" :: rest => ofNoArgs .prompt rest
  | "help" :: rest => ofHelpArgs rest
  | args =>
    match args.head?.map Arg.ofString with
    | some (.long "version" none) => .ok .version
    | some (.short ('V' :: _)) => .ok .version
    | _ => ofNoArgs .prompt args

end Request

end MagicNumbers.Command
