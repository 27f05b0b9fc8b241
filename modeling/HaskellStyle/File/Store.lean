import HaskellStyle.File.Path
import HaskellStyle.Text.Quoted
import HaskellStyle.Text.Utf8

/-!
This module contains a store of files and directories, and what can be done with paths in it. The file
system is read into a store before a run, and what the run changed in the store is written back after it, so
that the run itself is a function.
-/

namespace HaskellStyle

/--
A place in a store: the names on the way from the top.
-/
abbrev Location := List String

/--
What stands at a place.
-/
inductive FileEntry where
  | file (bytes : List UInt8)
  | directory
  deriving DecidableEq

/--
Files and directories, and the directory at which paths begin. The top is always a directory.
-/
structure FileStore where
  workingDirectory : Location := []
  files : List (Location × List UInt8) := []
  directories : List Location := []
  deriving DecidableEq

/--
Why the system refuses an access.
-/
inductive FileFault where
  | missing
  | alreadyExists
  | notADirectory
  | isADirectory
  deriving DecidableEq

/--
An access that the system refused, with the path at which it did.
-/
structure AccessError where
  fault : FileFault
  path : Path
  deriving DecidableEq

/--
The number and the wording of a fault.
-/
def FileFault.message : FileFault → String
  | .missing => "[Errno 2] No such file or directory"
  | .alreadyExists => "[Errno 17] File exists"
  | .notADirectory => "[Errno 20] Not a directory"
  | .isADirectory => "[Errno 21] Is a directory"

/--
The wording of a refused access.
-/
def AccessError.message (e : AccessError) : String :=
  e.fault.message ++ ": " ++ Text.quoted e.path.text

namespace FileStore

/--
What stands at a place.
-/
def entry? (s : FileStore) (l : Location) : Option FileEntry :=
  match s.files.lookup l with
  | some bytes => some (.file bytes)
  | none => if l.isEmpty || s.directories.contains l then some .directory else none

/--
Follows names from a place. Every place but the last has to be a directory.
-/
def walk (s : FileStore) (here : Location) : List String → Except FileFault Location
  | [] => .ok here
  | part :: more =>
    match s.entry? here with
    | some .directory => s.walk (if part == ".." then here.dropLast else here ++ [part]) more
    | some (.file _) => .error .notADirectory
    | none => .error .missing

/--
The place that a path leads to, whether or not something stands there.
-/
def locate (s : FileStore) (p : Path) : Except FileFault Location :=
  s.walk (if p.root == "" then s.workingDirectory else []) p.parts

/--
What a path leads to.
-/
def find (s : FileStore) (p : Path) : Except FileFault FileEntry := do
  match s.entry? (← s.locate p) with
  | some entry => return entry
  | none => throw .missing

/--
Whether a path leads to something.
-/
def contains (s : FileStore) (p : Path) : Bool :=
  (s.find p).isOk

/--
Whether a path leads to a directory.
-/
def isDirectory (s : FileStore) (p : Path) : Bool :=
  match s.find p with
  | .ok .directory => true
  | _ => false

/--
The bytes of a file.
-/
def read (s : FileStore) (p : Path) : Except FileFault (List UInt8) := do
  match ← s.find p with
  | .file bytes => return bytes
  | .directory => throw .isADirectory

/--
Puts bytes into the file at a place, which is new if nothing stands there.
-/
def put (s : FileStore) (l : Location) (bytes : List UInt8) : FileStore :=
  if (s.files.lookup l).isSome then
    { s with files := s.files.map fun (m, old) => if m = l then (m, bytes) else (m, old) }
  else
    { s with files := s.files ++ [(l, bytes)] }

/--
Removes the file at the end of a path.
-/
def remove (s : FileStore) (p : Path) : FileStore :=
  match s.locate p with
  | .ok l => { s with files := s.files.filter (·.1 ≠ l) }
  | .error _ => s

/--
Changes the bytes of a file, which is made if it is missing.
-/
def edit (s : FileStore) (p : Path) (f : List UInt8 → List UInt8) : Except AccessError FileStore :=
  match s.locate p with
  | .error fault => .error ⟨fault, p⟩
  | .ok l =>
    match s.entry? l with
    | some .directory => .error ⟨.isADirectory, p⟩
    | some (.file bytes) => .ok (s.put l (f bytes))
    | none => .ok (s.put l (f []))

/--
Replaces the bytes of a file that is there.
-/
def replace (s : FileStore) (p : Path) (bytes : List UInt8) : Except FileFault FileStore := do
  let _ ← s.read p
  return s.put (← s.locate p) bytes

/--
Makes a directory where nothing stands.
-/
def makeDirectory (s : FileStore) (p : Path) : Except FileFault FileStore := do
  let l ← s.locate p
  match s.entry? l with
  | some _ => throw .alreadyExists
  | none => return { s with directories := s.directories ++ [l] }

/--
Makes a directory unless it is there.
-/
def ensureDirectory (s : FileStore) (p : Path) : Except AccessError FileStore :=
  match s.makeDirectory p with
  | .ok s => .ok s
  | .error fault => if s.isDirectory p then .ok s else .error ⟨fault, p⟩

/--
Makes a directory and those on the way to it, as far as they are missing.
-/
def ensureDirectories (s : FileStore) (p : Path) : Except AccessError FileStore :=
  match s.makeDirectory p with
  | .error .missing =>
    if p.parts.isEmpty then
      .error ⟨.missing, p⟩
    else do
      let s ← s.ensureDirectories p.parent
      s.ensureDirectory p
  | _ => s.ensureDirectory p
  termination_by p.parts.length
  decreasing_by
    simp_all [Path.parent, List.isEmpty_iff]
    have := List.length_pos_iff.2 ‹_›
    omega

/--
Adds an entry with the directories that hold it.
-/
def add (s : FileStore) (l : Location) (entry : FileEntry) : FileStore :=
  let above := (List.range l.length).map l.take
  let inside := match entry with
    | .file _ => above
    | .directory => above ++ [l]
  let s := { s with directories := s.directories ++ inside.filter (!s.directories.contains ·) }
  match entry with
  | .file bytes => s.put l bytes
  | .directory => s

/--
The files below a directory, with the names on the way from it.
-/
def filesBelow (s : FileStore) (l : Location) : List (List String × List UInt8) :=
  s.files.filterMap fun (m, bytes) => if l.isPrefixOf m then some (m.drop l.length, bytes) else none

end FileStore

end HaskellStyle
