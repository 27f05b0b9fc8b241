/-!
This module contains columns and positions. Tabs advance to the next multiple of eight; carriage
returns and byte order marks take no room.
-/

namespace HaskellStyle

namespace Text

/--
The distance of two tab stops.
-/
def tabStop : Int := 8

/--
The column after `c` was written at `column`. Columns left of zero have tab stops too, hence the
division that rounds down.
-/
def advanceColumn (column : Int) (c : Char) : Int :=
  if c = '\n' then
    0
  else if c = '\t' then
    (column.fdiv tabStop + 1) * tabStop
  else if c = '\r' ∨ c = '\ufeff' then
    column
  else
    column + 1

/--
The column reached after `text` was written from the column `start`.
-/
def visualWidth (text : List Char) (start : Int) : Int :=
  text.foldl advanceColumn start

@[simp]
theorem visualWidth_nil (start : Int) : visualWidth [] start = start := rfl

@[simp]
theorem visualWidth_cons (c : Char) (text : List Char) (start : Int) :
    visualWidth (c :: text) start = visualWidth text (advanceColumn start c) := rfl

theorem visualWidth_append (a b : List Char) (start : Int) :
    visualWidth (a ++ b) start = visualWidth b (visualWidth a start) := by
  simp [visualWidth]

end Text

/--
A place in a text: how many characters and lines lie before it, and its column.
-/
structure Position where
  offset : Nat
  line : Nat
  column : Int
  deriving DecidableEq

namespace Position

/--
The beginning of a text.
-/
def origin : Position := ⟨0, 0, 0⟩

/--
The position behind the character `c` at position `p`.
-/
def advance (p : Position) (c : Char) : Position where
  offset := p.offset + 1
  line := if c = '\n' then p.line + 1 else p.line
  column := Text.advanceColumn p.column c

/--
The position behind `text`, which begins at position `p`.
-/
def after (p : Position) (text : List Char) : Position :=
  text.foldl advance p

@[simp]
theorem after_nil (p : Position) : p.after [] = p := rfl

@[simp]
theorem after_cons (p : Position) (c : Char) (text : List Char) :
    p.after (c :: text) = (p.advance c).after text := rfl

theorem after_append (p : Position) (a b : List Char) : p.after (a ++ b) = (p.after a).after b := by
  simp [after]

end Position

end HaskellStyle
