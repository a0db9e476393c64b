import JsonTemplate.CommandLine.Options
import JsonTemplate.Generator.Catalogue
import JsonTemplate.Template

/-!
# What the command reports

The command reads its input, expands it and writes the result. Its texts are made here, from what
reading and writing gave; an expansion draws from a key stream.
-/

namespace JsonTemplate.CommandLine

open Text

/-- What the command leaves on its outputs, with its exit code. -/
structure Outcome where
  code : Nat
  stdout : String
  stderr : String
  deriving DecidableEq, Repr

/-- What came of reading the input. -/
inductive Reading
  | missing
  | failed (reason : String)
  | text (t : String)

def ruler : String := String.ofList (List.replicate 50 '─')

/-- The part of a template's text that is shown: the template, or without one the whole text less
the blanks around it. -/
def shownText (t : List Char) : List Char :=
  (writtenTemplate? t).getD (trim t)

def header (o : Options) (t : String) : String :=
  "=== JSON Template Parser ===\n\nInput: " ++ o.input ++ "\nOutput: " ++ o.output
    ++ "\n\nTemplate:\n" ++ ruler ++ "\n" ++ String.ofList (shownText t.toList) ++ "\n\n" ++ ruler
    ++ "\n"

def resultReport (json : String) : String :=
  "Generated Output:\n" ++ ruler ++ "\n" ++ json ++ "\n"

def ending (o : Options) (warnings : Nat) : String :=
  (if warnings = 0 then ""
    else "\n⚠ " ++ String.ofList (natText warnings) ++ " warning(s) while resolving directives\n")
    ++ "\n✅ Output saved to " ++ o.output ++ "\n"

/-- A part of the report, unless the command is quiet. -/
def Options.report (o : Options) (text : String) : String :=
  if o.quiet then "" else text

def failure (stdout message : String) : Outcome :=
  ⟨1, stdout, "❌ Error: " ++ message ++ "\n"⟩

/-- The state of the command before its result is written. -/
inductive Prepared
  | failed (outcome : Outcome)
  /-- The text to be written, the report so far, and the number of diagnostics. -/
  | ready (json report : String) (warnings : Nat)

/-- The text of a value as the options want it. -/
def Options.print (o : Options) (v : Json) : String :=
  if o.compact then v.compact else v.pretty

/-- The outcome of an expansion that stopped. -/
def haltFailure (stdout : String) (h : Halt) : Outcome :=
  let reason := match h with
    | .endlessRange => "a range is too wide to draw from"
    | .endlessText => "a text is too long"
    | .endlessNesting => "repeat blocks nest without end"
  ⟨101, stdout, "❌ Error: " ++ reason ++ "\n"⟩

/-- Expands what was read, with draws from a stream. -/
def prepare (o : Options) (now : Calendar.Instant) (stream : KeyStream) :
    Reading → Prepared
  | .missing => .failed (failure "" ("Input file '" ++ o.input ++ "' not found"))
  | .failed reason => .failed (failure "" ("failed to read " ++ o.input ++ ": " ++ reason))
  | .text t =>
    let shown := o.report (header o t)
    match (Template.expand (Generator.source now) t.toList).run.run stream with
    | .error h => .failed (haltFailure shown h)
    | .ok (.error e, _) =>
      .failed (failure shown ("failed to expand " ++ o.input ++ ": " ++ e.message))
    | .ok (.ok r, _) =>
      let json := o.print r.value
      .ready json (shown ++ o.report (resultReport json)) r.diagnostics.length

/-- The outcome after an attempt to write, which may have failed for a reason. -/
def conclude (o : Options) (report : String) (warnings : Nat) (reason : Option String) : Outcome :=
  match reason with
  | some reason => failure report ("failed to write " ++ o.output ++ ": " ++ reason)
  | none => ⟨0, report ++ o.report (ending o warnings), ""⟩

def versionText : String := "jtf 0.0.2\n"

def helpText : String :=
  "JSON Template Parser: expand @directives in a JSON template into concrete JSON\n\n"
    ++ "Usage: jtf [OPTIONS] [FILE]\n\n"
    ++ "Arguments:\n"
    ++ "  [FILE]  Input template file (overrides --input)\n\n"
    ++ "Options:\n"
    ++ "  -i, --input <INPUT>    Input template file [default: input.jtf]\n"
    ++ "  -o, --output <OUTPUT>  Output file [default: output.json]\n"
    ++ "      --seed <SEED>      Seed for reproducible output\n"
    ++ "      --compact          Write compact JSON instead of pretty-printed\n"
    ++ "  -q, --quiet            Suppress the console report\n"
    ++ "  -v, --verbose          Log scanner and resolver decisions\n"
    ++ "  -h, --help             Print help\n"
    ++ "  -V, --version          Print version\n"

/-- The outcome of a request that cannot be understood. -/
def usageFailure (e : UsageError) : Outcome :=
  ⟨2, "", "error: " ++ e.message ++ "\n"⟩

end JsonTemplate.CommandLine
