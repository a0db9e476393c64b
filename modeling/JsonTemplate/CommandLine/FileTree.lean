import JsonTemplate.CommandLine.Report

/-!
# File trees

A tree of directories, files and devices stands for the machine that the command works on, with the
links in it, what the command may do there and how much room there is. `execute` runs the command in
a tree: it changes at most the output file.
-/

namespace JsonTemplate.CommandLine

/-- What is written to a device leaves no file behind. There is nothing to be read from one, but for
the full one. -/
inductive Device
  | null
  /-- A device without room for anything, which gives zeros without end. -/
  | full
  /-- The command's own standard output. -/
  | standardOutput
  /-- The command's own standard error. -/
  | standardError
  deriving DecidableEq, Repr

inductive Entry
  | directory
  | file (content : ByteArray)
  | device (d : Device)

/-- What the command may do with an entry. -/
structure Access where
  /-- Looking up a name in a directory. -/
  search : Bool := true
  /-- Reading. -/
  read : Bool := true
  /-- Writing to a file, or making a new one in a directory. -/
  write : Bool := true

inductive FileError
  | notFound
  | denied
  | notDirectory
  | isDirectory
  | noSpace
  | nameTooLong
  | tooManyLinks
  | notText
  | noMemory
  deriving DecidableEq, Repr

def FileError.message : FileError → String
  | .notFound => "No such file or directory (os error 2)"
  | .denied => "Permission denied (os error 13)"
  | .notDirectory => "Not a directory (os error 20)"
  | .isDirectory => "Is a directory (os error 21)"
  | .noSpace => "No space left on device (os error 28)"
  | .nameTooLong => "File name too long (os error 36)"
  | .tooManyLinks => "Too many levels of symbolic links (os error 40)"
  | .notText => "stream did not contain valid UTF-8"
  | .noMemory => "out of memory"

/-- The names along a path. Names are separated by slashes; a slash at the beginning starts from
the top, and one at the end asks for a directory. -/
structure Path where
  fromTop : Bool
  names : List String
  asDirectory : Bool
  deriving DecidableEq, Repr

namespace Path

/-- The greatest number of bytes of a path. -/
def sizeLimit : Nat := 4095

/-- The greatest number of bytes of a name. -/
def nameLimit : Nat := 255

def read (t : String) : Except FileError Path :=
  let pieces := (Text.splitOn '/' t.toList).map String.ofList
  if t = "" then .error .notFound
  else if sizeLimit < t.utf8ByteSize then .error .nameTooLong
  else .ok {
    fromTop := pieces.head? == some ""
    names := pieces.filter (· != "")
    asDirectory := pieces.getLast? == some "" }

end Path

/-- The entries by their places, which are the names from the top on; the top itself is a directory
and no entry. Paths that are not from the top start at `start`. -/
structure FileTree where
  start : List String := []
  entries : List (List String × Entry) := []
  /-- Where the name at a place leads: a link to another place, or nowhere, and any other name to
  its own place. -/
  leads : List String → Except FileError (List String) := .ok
  access : List String → Access := fun _ => {}
  /-- How many bytes a file that is written can take, where the disk has not room for any text. -/
  room : Option Nat := none

/-- What a write leaves: the tree, what has gone to the command's own outputs, and why the write
failed halfway, if it did. -/
structure Written where
  tree : FileTree
  stdout : String := ""
  stderr : String := ""
  failure : Option FileError := none

namespace FileTree

def get? (tree : FileTree) (place : List String) : Option Entry :=
  if place = [] then some .directory else tree.entries.lookup place

/-- Replaces the entry at a place, or adds it. -/
def put (tree : FileTree) (place : List String) (e : Entry) : FileTree :=
  if (tree.entries.lookup place).isSome then
    { tree with entries := tree.entries.map fun (p, old) => (p, if p = place then e else old) }
  else { tree with entries := tree.entries ++ [(place, e)] }

def checkDirectory (tree : FileTree) (place : List String) : Except FileError Unit :=
  match tree.get? place with
  | some .directory => .ok ()
  | some _ => .error .notDirectory
  | none => .error .notFound

/-- Names are only looked up in directories that may be searched. -/
def checkSearch (tree : FileTree) (place : List String) : Except FileError Unit := do
  tree.checkDirectory place
  if !(tree.access place).search then throw .denied

/-- Follows one name of a path. Two dots lead upwards, and from the top to the top. -/
def follow (tree : FileTree) (place : List String) (name : String) :
    Except FileError (List String) := do
  tree.checkSearch place
  if name = "." then return place
  else if name = ".." then return place.dropLast
  else if Path.nameLimit < name.utf8ByteSize then throw .nameTooLong
  else tree.leads (place ++ [name])

/-- Follows the given names from where a path starts. -/
def followAll (tree : FileTree) (p : Path) (names : List String) :
    Except FileError (List String) :=
  names.foldlM tree.follow (if p.fromTop then [] else tree.start)

/-- The entry that a path leads to, with its place. -/
def find (tree : FileTree) (path : String) : Except FileError (List String × Entry) := do
  let p ← Path.read path
  let place ← tree.followAll p p.names
  if p.asDirectory then tree.checkDirectory place
  match tree.get? place with
  | some e => return (place, e)
  | none => throw .notFound

/-- An input that no entry can be found for is missing, whatever the reason. -/
def read (tree : FileTree) (path : String) : Reading :=
  match tree.find path with
  | .error _ => .missing
  | .ok (place, e) =>
    if !(tree.access place).read then .failed FileError.denied.message
    else
      match e with
      | .directory => .failed FileError.isDirectory.message
      | .device .full => .failed FileError.noMemory.message
      | .device _ => .text ""
      | .file content =>
        match String.fromUTF8? content with
        | some t => .text t
        | none => .failed FileError.notText.message

/-- Makes the file at a place anew, with as much of a text as there is room for. -/
def store (tree : FileTree) (place : List String) (text : String) : Written :=
  let content := text.toUTF8
  match tree.room with
  | none => { tree := tree.put place (.file content) }
  | some n =>
    if content.size ≤ n then { tree := tree.put place (.file content) }
    else { tree := tree.put place (.file (content.extract 0 n)), failure := some .noSpace }

/-- Makes the file at a place hold a text; its directory must be there. -/
def writeAt (tree : FileTree) (place : List String) (text : String) : Except FileError Written :=
  match tree.get? place with
  | some .directory => .error .isDirectory
  | some (.device d) =>
    if !(tree.access place).write then .error .denied
    else
      match d with
      | .null => .ok { tree }
      | .full => .error .noSpace
      | .standardOutput => .ok { tree, stdout := text }
      | .standardError => .ok { tree, stderr := text }
  | some (.file _) =>
    if !(tree.access place).write then .error .denied else .ok (tree.store place text)
  | none => do
    tree.checkSearch place.dropLast
    if !(tree.access place.dropLast).write then throw .denied else return tree.store place text

/-- The place that a path to be written leads to, whether there is an entry or not. A path that ends
in a slash can only be a directory's. -/
def target (tree : FileTree) (path : String) : Except FileError (List String) := do
  let p ← Path.read path
  match p.names.getLast? with
  | none => throw .isDirectory
  | some name =>
    let place ← tree.followAll p p.names.dropLast
    if p.asDirectory then
      tree.checkSearch place
      throw .isDirectory
    else tree.follow place name

/-- Makes the file at a path hold a text. -/
def write (tree : FileTree) (path : String) (text : String) : Except FileError Written := do
  tree.writeAt (← tree.target path) text

end FileTree

/-- Runs the command in a tree, with draws from a stream. -/
def execute (o : Options) (now : Calendar.Instant) (stream : KeyStream) (tree : FileTree) :
    Outcome × FileTree :=
  match prepare o now stream (tree.read o.input) with
  | .failed outcome => (outcome, tree)
  | .ready json report warnings =>
    match tree.write o.output json with
    | .error e => (conclude o report warnings (some e.message), tree)
    | .ok written =>
      let outcome := conclude o (report ++ written.stdout) warnings
        (written.failure.map FileError.message)
      ({ outcome with stderr := written.stderr ++ outcome.stderr }, written.tree)

end JsonTemplate.CommandLine
