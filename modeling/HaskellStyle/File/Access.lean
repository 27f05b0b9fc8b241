import HaskellStyle.File.Store

/-!
This module contains the reading of sources and the writing of formatted sources.
-/

namespace HaskellStyle

/--
What is done with a file.
-/
inductive FileOperation where
  | read
  | write
  | stat
  deriving DecidableEq

/--
The names of operations in messages.
-/
def FileOperation.name : FileOperation → String
  | .read => "read"
  | .write => "write"
  | .stat => "stat"

/--
A source that could not be read or written.
-/
structure FileError where
  path : Path
  operation : FileOperation
  fault : FileFault
  deriving DecidableEq

namespace FileError

/--
The wording of an error.
-/
def message (e : FileError) : String :=
  match e.fault, e.operation with
  | .missing, _ => s!"File not found: {e.path.text}"
  | .isADirectory, .read => s!"Not a file: {e.path.text}"
  | _, _ =>
    let cause := (AccessError.mk e.fault e.path).message
    s!"Failed to {e.operation.name} {e.path.text}: {cause}"

end FileError

namespace FileStore

/--
The bytes of a source.
-/
def readSource (s : FileStore) (p : Path) : Except FileError (List UInt8) :=
  (s.read p).mapError (⟨p, .read, ·⟩)

/--
Replaces a source with a formatted text.
-/
def writeFormatted (s : FileStore) (p : Path) (text : List Char) : Except FileError FileStore :=
  (s.replace p (Utf8.encode text)).mapError (⟨p, .write, ·⟩)

end FileStore

end HaskellStyle
