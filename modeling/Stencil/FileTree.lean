import Stencil.Expansion

/-! # Files

Where templates are read from and documents are written to.
-/

/-! ## Paths

Paths are texts with slashes. Two paths count as equal if they have the same components: repeated
slashes, a slash at the end, and a `.` that is not the first component do not count. The text is
kept nevertheless, because a file is opened by the text of its path.
-/

namespace Stencil

namespace Path

def addToSegments (c : Char) (segments : List (List Char)) : List (List Char) :=
  if c == '/' then [] :: segments
  else
    match segments with
    | [] => [[c]]
    | s :: rest => (c :: s) :: rest

/-- The texts between the slashes, at least one. -/
def segments (cs : List Char) : List (List Char) :=
  cs.foldr addToSegments [[]]

def ofSegments (segments : List (List Char)) : List Char :=
  List.intercalate ['/'] segments

inductive Component
  | root
  | current
  | parent
  | name (text : String)
  deriving DecidableEq

def isAbsolute (path : String) : Bool :=
  path.toList.head? == some '/'

/-- A segment that takes no step: nothing, or a dot. -/
def isIdle (segment : List Char) : Bool :=
  segment == [] || segment == ['.']

def componentOf? (segment : List Char) : Option Component :=
  if isIdle segment then none
  else if segment == ['.', '.'] then some .parent
  else some (.name (String.ofList segment))

def components (path : String) : List Component :=
  let steps := (segments path.toList).filterMap componentOf?
  if isAbsolute path then .root :: steps
  else if (segments path.toList).head? == some ['.'] then .current :: steps
  else steps

/-- The path of `name` as seen from `base`: an absolute name stands for itself. -/
def join (base name : String) : String :=
  if isAbsolute name then name
  else if base.isEmpty || base.toList.getLast? == some '/' then base ++ name
  else base ++ "/" ++ name

/-- The first character of a path, if it is a component of its own: the root or a leading dot; and
what follows it. -/
def splitHead (cs : List Char) : List Char × List Char :=
  match cs with
  | '/' :: rest => (['/'], rest)
  | ['.'] => (['.'], [])
  | '.' :: '/' :: rest => (['.'], '/' :: rest)
  | _ => ([], cs)

/-- The texts of a path up to each of its components but the root and a leading dot, the longest
first. The components are given by the reversed segments, which stand behind `head`. -/
def stages (head : List Char) : List (List Char) → List String
  | [] => []
  | segment :: before =>
    if isIdle segment then stages head before
    else String.ofList (head ++ ofSegments (segment :: before).reverse) :: stages head before

/-- The directories that a path leads through, the innermost first. -/
def ancestors (path : String) : List String :=
  let (head, body) := splitHead path.toList
  (stages head (segments body).reverse).tail

/-- The text of a path without its last component; none for the root and for the empty path. -/
def parent? (path : String) : Option String :=
  let (head, body) := splitHead path.toList
  match (segments body).reverse.dropWhile isIdle with
  | [] => if head == ['.'] then some "" else none
  | _ :: before => some (String.ofList (head ++ ofSegments (before.dropWhile isIdle).reverse))

end Path

/-! ## Trees of files

A tree of directories and files with a working directory. Paths are followed one segment at a time:
every segment but the first needs a directory to start from, and `..` leads to the directory above.
-/

/-- A place in a tree: the names on the way from the root. -/
abbrev Location :=
  List String

inductive Entry
  | file (content : ByteArray)
  | directory

def Entry.isDirectory : Entry → Bool
  | file _ => false
  | directory => true

/-- A tree of files. The root is always a directory and is not listed. -/
structure FileTree where
  entries : List (Location × Entry)
  /-- The directory that relative paths start from. -/
  current : Location

namespace FileTree

def ofCurrent (current : Location) : FileTree where
  entries :=
    (List.range current.length).map fun depth => (current.take (depth + 1), .directory)
  current := current

def entry? (t : FileTree) (place : Location) : Option Entry :=
  if place = [] then some .directory else t.entries.lookup place

def erase (t : FileTree) (place : Location) : FileTree :=
  { t with entries := t.entries.filter fun e => e.1 != place }

def insert (t : FileTree) (place : Location) (entry : Entry) : FileTree :=
  { t with entries := (place, entry) :: (t.erase place).entries }

def maxNameBytes : Nat := 255

def maxPathBytes : Nat := 4095

def checkDirectory (t : FileTree) (place : Location) : Except StorageFault Unit :=
  match t.entry? place with
  | none => .error .notFound
  | some (.file _) => .error .notDirectory
  | some .directory => .ok ()

def follow (t : FileTree) (place : Location) (segment : List Char) :
    Except StorageFault Location := do
  t.checkDirectory place
  if Path.isIdle segment then .ok place
  else if segment == ['.', '.'] then .ok place.dropLast
  else
    let name := String.ofList segment
    if maxNameBytes < name.utf8ByteSize then .error .nameTooLong
    else .ok (place ++ [name])

def followAll (t : FileTree) : Location → List (List Char) → Except StorageFault Location
  | place, [] => .ok place
  | place, segment :: rest =>
    match t.follow place segment with
    | .error fault => .error fault
    | .ok next => followAll t next rest

def origin (t : FileTree) (path : String) : Location :=
  if Path.isAbsolute path then [] else t.current

/-- What a path must be: it must not hold the NUL character, nor be empty or too long. -/
def checkPath (path : String) : Except StorageFault Unit :=
  if path.toList.contains '\x00' then .error .nulInPath
  else if path.isEmpty then .error .notFound
  else if maxPathBytes < path.utf8ByteSize then .error .nameTooLong
  else .ok ()

/-- The place that a path leads to. Nothing need stand there. -/
def resolve (t : FileTree) (path : String) : Except StorageFault Location := do
  checkPath path
  t.followAll (t.origin path) (Path.segments path.toList)

def readBytes (t : FileTree) (path : String) : Except StorageFault ByteArray := do
  let place ← t.resolve path
  match t.entry? place with
  | none => .error .notFound
  | some .directory => .error .isDirectory
  | some (.file content) => .ok content

def read (t : FileTree) (path : String) : Except StorageFault String := do
  let content ← t.readBytes path
  match String.fromUTF8? content with
  | some text => .ok text
  | none => .error .notUtf8

/-- The directory that the last segment of a path starts from, and that segment; none if the path
has slashes only. Slashes at the end do not count. -/
def lastStep (t : FileTree) (path : String) : Except StorageFault (Option (Location × List Char)) :=
  match (Path.segments path.toList).reverse.dropWhile List.isEmpty with
  | [] => .ok none
  | last :: before => do
    let directory ← t.followAll (t.origin path) before.reverse
    .ok (some (directory, last))

/-- The place where a file may be written: its directory must be there, the path must not end like
that of a directory, and no directory may stand at the place itself. -/
def target (t : FileTree) (path : String) : Except StorageFault Location := do
  checkPath path
  match ← t.lastStep path with
  | none => .error .isDirectory
  | some (directory, last) =>
    t.checkDirectory directory
    if path.toList.getLast? == some '/' then .error .isDirectory
    else
      let place ← t.follow directory last
      if (t.entry? place).any Entry.isDirectory then .error .isDirectory else .ok place

def write (t : FileTree) (path : String) (content : ByteArray) : Except StorageFault FileTree := do
  let place ← t.target path
  .ok (t.insert place (.file content))

def hasDirectory (t : FileTree) (path : String) : Bool :=
  match t.resolve path with
  | .error _ => false
  | .ok place => (t.entry? place).any Entry.isDirectory

/-- Makes a directory; none if something stands there. The directory above must be there. -/
def makeDirectory (t : FileTree) (path : String) : Except StorageFault (Option FileTree) := do
  checkPath path
  match ← t.lastStep path with
  | none => .ok none
  | some (directory, last) =>
    let place ← t.follow directory last
    .ok (if (t.entry? place).isSome then none else some (t.insert place .directory))

/-- Makes the first of some directories, and before it those of the others that are missing: each is
the directory above the one in front of it. The answer tells whether the first is there in the end.
What has been made stays. -/
def makeDirectories (t : FileTree) : List String → FileTree × Bool
  | [] => (t, true)
  | path :: above =>
    match t.makeDirectory path with
    | .ok (some made) => (made, true)
    | .ok none => (t, t.hasDirectory path)
    | .error .notFound =>
      match makeDirectories t above with
      | (before, false) => (before, false)
      | (before, true) =>
        match before.makeDirectory path with
        | .ok (some made) => (made, true)
        | .ok none => (before, before.hasDirectory path)
        | .error _ => (before, false)
    | .error _ => (t, false)

/-- Writes a file, making the directories that are missing. They stay even if the file cannot be
written. -/
def place (t : FileTree) (path : String) (content : ByteArray) : FileTree :=
  let (made, _) := t.makeDirectories (Path.ancestors path)
  match made.write path content with
  | .ok written => written
  | .error _ => made

def remove? (t : FileTree) (path : String) : Option FileTree :=
  match t.resolve path with
  | .error _ => none
  | .ok place =>
    match t.entry? place with
    | some (.file _) => some (t.erase place)
    | _ => none

/-- Loads subtemplates from files, by names that are paths as seen from `base`. -/
def loader (t : FileTree) (base : String) : Loader := fun name =>
  (t.read (Path.join base name)).mapError fun fault => .load ⟨Path.join base name, fault⟩

end FileTree

end Stencil
