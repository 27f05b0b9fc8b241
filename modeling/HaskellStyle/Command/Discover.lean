import HaskellStyle.File.Access

/-!
This module contains the search for sources: files as they are given, and the Haskell files below the
directories that are given.
-/

namespace HaskellStyle

/--
The ending of the names of Haskell files.
-/
def sourceSuffix : List Char :=
  ".hs".toList

/--
Whether a file found below a directory, by the names on the way, is a source. What lies in hidden directories
is none.
-/
def isSource (names : List String) : Bool :=
  sourceSuffix.isSuffixOf (names.getLast?.getD "").toList
    && names.dropLast.all fun name => name.toList.head? ≠ some '.'

namespace FileStore

/--
The order of names on the way to a file, name by name.
-/
def namesLe : List String → List String → Bool
  | [], _ => true
  | _ :: _, [] => false
  | a :: as, b :: bs => if a = b then namesLe as bs else a < b

/--
The sources that a path stands for.
-/
def sourcesAt (s : FileStore) (p : Path) : Except FileError (List Path) :=
  match s.find p, s.locate p with
  | .ok .directory, .ok l =>
    let found := ((s.filesBelow l).map (·.1)).filter isSource
    .ok ((found.mergeSort namesLe).map p.child)
  | .ok (.file _), _ => .ok [p]
  | _, _ => .error ⟨p, .stat, .missing⟩

/--
Keeps of the paths that lead to one place the first, apart from places that were seen.
-/
def dropSeen (s : FileStore) (seen : List Location) : List Path → List Path
  | [] => []
  | p :: more =>
    match s.locate p with
    | .ok l => if seen.contains l then s.dropSeen seen more else p :: s.dropSeen (l :: seen) more
    | .error _ => s.dropSeen seen more

/--
The sources that some paths stand for, each once and in order.
-/
def sources (s : FileStore) (paths : List Path) : Except FileError (List Path) := do
  let found ← paths.mapM s.sourcesAt
  return s.dropSeen [] found.flatten

end FileStore

end HaskellStyle
