import JsonTemplate.CommandLine.FileTree
import Std.Time.DateTime.Timestamp

/-!
# The command

Reads the arguments, the input file, the clock and, without a seed, the system's random bytes, and
leaves all decisions to the library.
-/

namespace JsonTemplate.CommandLine

/-- The wording of a failure of the system. -/
def reasonOf (e : IO.Error) : String :=
  match e with
  | .noFileOrDirectory _ code details | .inappropriateType _ code details
  | .permissionDenied _ code details | .noSuchThing _ code details
  | .invalidArgument _ code details | .alreadyExists _ code details
  | .resourceExhausted _ code details | .otherError code details | .resourceBusy code details
  | .hardwareFault code details | .illegalOperation code details =>
    details ++ " (os error " ++ toString code.toNat ++ ")"
  | e => toString e

/-- Whether a path leads to anything. -/
def isFound (path : String) : IO Bool := do
  try
    let _ ← IO.FS.realPath path
    return true
  catch _ => return false

def readInput (path : String) : IO Reading := do
  try
    let content ← IO.FS.readBinFile path
    match String.fromUTF8? content with
    | some t => return .text t
    | none => return .failed FileError.notText.message
  catch e => if ← isFound path then return .failed (reasonOf e) else return .missing

def writeOutput (path json : String) : IO (Option String) := do
  try
    IO.FS.withFile path .write fun h => do
      h.write json.toUTF8
      h.flush
    return none
  catch e => return some (reasonOf e)

def presentInstant : IO Calendar.Instant := do
  let t ← Std.Time.Timestamp.now
  return ⟨t.toMillisecondsSinceUnixEpoch.val⟩

/-- The given seed, or eight random bytes. -/
def seedOr (seed : Option Nat) : IO UInt64 := do
  match seed with
  | some n => return UInt64.ofNat n
  | none =>
    let random ← IO.getRandomBytes 8
    return UInt64.ofNat (random.toList.foldl (fun n b => 256 * n + b.toNat) 0)

def emit (o : Outcome) : IO UInt32 := do
  IO.print o.stdout
  IO.eprint o.stderr
  return UInt32.ofNat o.code

/-- The report so far is out before the result is written, which may go to the same place. -/
def answer (o : Options) : IO UInt32 := do
  let stream := KeyStream.ofSeed (← seedOr o.seed)
  match prepare o (← presentInstant) stream (← readInput o.input) with
  | .failed outcome => emit outcome
  | .ready json report warnings =>
    let stdout ← IO.getStdout
    stdout.putStr report
    stdout.flush
    emit (conclude o "" warnings (← writeOutput o.output json))

end JsonTemplate.CommandLine

open JsonTemplate.CommandLine in
def main (args : List String) : IO UInt32 :=
  match Request.ofArguments args with
  | .error e => emit (usageFailure e)
  | .ok .version => emit ⟨0, versionText, ""⟩
  | .ok .help => emit ⟨0, helpText, ""⟩
  | .ok (.expand o) => answer o
