import JsonTemplate.Text.Digit
import JsonTemplate.Width

/-!
# Options of the command line

Arguments are read from left to right: options by a long or a short name, short ones in a cluster
too, and one file. What is wrong with the first bad argument is the error.
-/

namespace JsonTemplate.CommandLine

open Text

inductive Flag
  | compact
  | quiet
  | verbose
  | version
  | help
  deriving DecidableEq, Repr

/-- The options that take a value. -/
inductive Setting
  | input
  | output
  | seed
  deriving DecidableEq, Repr

def Flag.name : Flag → String
  | .compact => "compact"
  | .quiet => "quiet"
  | .verbose => "verbose"
  | .version => "version"
  | .help => "help"

def Setting.name : Setting → String
  | .input => "input"
  | .output => "output"
  | .seed => "seed"

inductive UsageError
  | unknownOption (text : String)
  | unexpectedValue (flag : Flag)
  | missingValue (setting : Setting)
  | repeatedFlag (flag : Flag)
  | repeatedSetting (setting : Setting)
  | emptyPath
  | badSeed (text : String)
  | surplusFile (text : String)
  deriving DecidableEq, Repr

def UsageError.message : UsageError → String
  | .unknownOption text => "unexpected argument '" ++ text ++ "' found"
  | .unexpectedValue flag => "the option '--" ++ flag.name ++ "' takes no value"
  | .missingValue setting => "the option '--" ++ setting.name ++ "' needs a value"
  | .repeatedFlag flag => "the option '--" ++ flag.name ++ "' cannot be used multiple times"
  | .repeatedSetting setting =>
    "the option '--" ++ setting.name ++ "' cannot be used multiple times"
  | .emptyPath => "a path cannot be empty"
  | .badSeed text => "'" ++ text ++ "' is no seed"
  | .surplusFile text => "unexpected argument '" ++ text ++ "' found"

/-- What the command is asked to do: the input file, where the result goes, and how. -/
structure Options where
  input : String := "input.jtf"
  output : String := "output.json"
  seed : Option Nat := none
  compact : Bool := false
  quiet : Bool := false
  verbose : Bool := false
  deriving DecidableEq, Repr

inductive Request
  | expand (options : Options)
  | version
  | help
  deriving DecidableEq, Repr

/-- The options read so far. -/
structure Draft where
  file : Option String := none
  input : Option String := none
  output : Option String := none
  seed : Option Nat := none
  flags : List Flag := []

namespace Draft

/-- A file takes precedence over the option for the input. -/
def finish (d : Draft) : Options :=
  let defaults : Options := {}
  { input := d.file.getD (d.input.getD defaults.input)
    output := d.output.getD defaults.output
    seed := d.seed
    compact := d.flags.contains .compact
    quiet := d.flags.contains .quiet
    verbose := d.flags.contains .verbose }

def addFile (d : Draft) (path : String) : Except UsageError Draft :=
  if d.file.isSome then .error (.surplusFile path)
  else if path = "" then .error .emptyPath
  else .ok { d with file := some path }

/-- A seed is a number of 64 bits, with an optional plus sign. -/
def readSeed? (t : List Char) : Option Nat :=
  match t with
  | '+' :: ds => (readNat? ds).filter (· ≤ Width.greatestNat64)
  | ds => (readNat? ds).filter (· ≤ Width.greatestNat64)

def set (d : Draft) (setting : Setting) (value : String) : Except UsageError Draft :=
  match setting with
  | .input =>
    if d.input.isSome then .error (.repeatedSetting .input)
    else if value = "" then .error .emptyPath
    else .ok { d with input := some value }
  | .output =>
    if d.output.isSome then .error (.repeatedSetting .output)
    else if value = "" then .error .emptyPath
    else .ok { d with output := some value }
  | .seed =>
    if d.seed.isSome then .error (.repeatedSetting .seed)
    else
      match readSeed? value.toList with
      | some n => .ok { d with seed := some n }
      | none => .error (.badSeed value)

end Draft

/-- The parts of an argument. -/
inductive Part
  | flag (f : Flag)
  | setting (s : Setting) (value : String)
  /-- An option whose value is the next argument. -/
  | pending (s : Setting)
  | file (path : String)
  | bad (e : UsageError)

def longFlag? (name : List Char) : Option Flag :=
  [Flag.compact, .quiet, .verbose, .version, .help].find? (·.name.toList == name)

def longSetting? (name : List Char) : Option Setting :=
  [Setting.input, .output, .seed].find? (·.name.toList == name)

def shortFlag? (c : Char) : Option Flag :=
  [('q', Flag.quiet), ('v', .verbose), ('V', .version), ('h', .help)].lookup c

def shortSetting? (c : Char) : Option Setting :=
  [('i', Setting.input), ('o', .output)].lookup c

/-- A long option is its name, or its name and its value with an equals sign between them. -/
def longPart (t : List Char) : Part :=
  let name := t.takeWhile (· != '=')
  match longFlag? name, longSetting? name, t.dropWhile (· != '=') with
  | some f, _, [] => .flag f
  | some f, _, _ :: _ => .bad (.unexpectedValue f)
  | none, some s, [] => .pending s
  | none, some s, _ :: value => .setting s (String.ofList value)
  | none, none, _ => .bad (.unknownOption (String.ofList t))

/-- Short options may follow one another; what follows one that takes a value is its value. -/
def shortParts : List Char → List Part
  | [] => []
  | c :: t =>
    match shortFlag? c, shortSetting? c, t with
    | some f, _, t => .flag f :: shortParts t
    | none, some s, [] => [.pending s]
    | none, some s, '=' :: value => [.setting s (String.ofList value)]
    | none, some s, value => [.setting s (String.ofList value)]
    | none, none, _ => [.bad (.unknownOption (String.ofList [c]))]

/-- A hyphen alone is a file's name. -/
def partsOf (arg : String) : List Part :=
  match arg.toList with
  | '-' :: '-' :: t => [longPart t]
  | '-' :: c :: t => shortParts (c :: t)
  | _ => [.file arg]

/-- Whether an argument can be the value of the option before it. -/
def isValue (arg : String) : Bool :=
  match arg.toList with
  | '-' :: _ :: _ => false
  | _ => true

/-- What is to be done after the parts of an argument. -/
inductive Progress
  | go (d : Draft)
  | need (s : Setting) (d : Draft)
  | answer (r : Request)

/-- The parts of an argument in order; only its last part can need the next argument. -/
def applyParts (d : Draft) : List Part → Except UsageError Progress
  | [] => .ok (.go d)
  | .flag .version :: _ => .ok (.answer .version)
  | .flag .help :: _ => .ok (.answer .help)
  | .flag f :: rest =>
    if d.flags.contains f then .error (.repeatedFlag f)
    else applyParts { d with flags := f :: d.flags } rest
  | .setting s value :: rest => do applyParts (← d.set s value) rest
  | .pending s :: _ => .ok (.need s d)
  | .file path :: rest => do applyParts (← d.addFile path) rest
  | .bad e :: _ => .error e

/-- The arguments after two hyphens are files, whatever their form. -/
def readFiles (d : Draft) : List String → Except UsageError Request
  | [] => .ok (.expand d.finish)
  | path :: rest => do readFiles (← d.addFile path) rest

def readFrom (d : Draft) : List String → Except UsageError Request
  | [] => .ok (.expand d.finish)
  | "--" :: rest => readFiles d rest
  | arg :: rest => do
    match ← applyParts d (partsOf arg) with
    | .go d => readFrom d rest
    | .answer r => .ok r
    | .need s d =>
      match rest with
      | [] => .error (.missingValue s)
      | value :: rest =>
        if isValue value then readFrom (← d.set s value) rest
        else .error (.missingValue s)

/-- The request that the arguments make. -/
def Request.ofArguments (args : List String) : Except UsageError Request :=
  readFrom {} args

end JsonTemplate.CommandLine
