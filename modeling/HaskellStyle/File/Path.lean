/-!
This module contains paths of files.
-/

namespace HaskellStyle

/--
A path: the slashes that it begins with, if any, and the names on the way. It has no empty names and no
`.` among them; a step `..` back is kept as it was written.
-/
structure Path where
  root : String := ""
  parts : List String
  deriving DecidableEq

namespace Path

/--
The root of a path that begins with the given number of slashes. Two slashes are kept, more count as one.
-/
def rootOf (slashes : Nat) : String :=
  match slashes with
  | 0 => ""
  | 2 => "//"
  | _ => "/"

/--
The path that a text writes.
-/
def ofText (text : String) : Path where
  root := rootOf (text.toList.takeWhile (· == '/')).length
  parts := (text.splitOn "/").filter fun part => part != "" && part != "."

/--
A path in messages.
-/
def text (p : Path) : String :=
  if p.root == "" && p.parts.isEmpty then "." else p.root ++ "/".intercalate p.parts

/--
The last name of a path.
-/
def name (p : Path) : String :=
  p.parts.getLast?.getD ""

/--
The path of the directory that holds the last name.
-/
def parent (p : Path) : Path :=
  { p with parts := p.parts.dropLast }

/--
The path of a place below a directory.
-/
def child (p : Path) (names : List String) : Path :=
  { p with parts := p.parts ++ names }

end Path

end HaskellStyle
