import HaskellStyle.Block.Read

/-!
This module contains the replacements of tokens that the reading of a module does not notice. It looks at the kinds of
tokens and at whether their texts are certain words, none of which goes over a line end.
-/

namespace HaskellStyle

namespace Token

/--
Whether words have one line each.
-/
def AreLines (words : List String) : Bool :=
  words.all fun w => !w.toList.contains '\n'

/--
A replacement of tokens that keeps their kinds, and their texts as far as they are words on one line.
-/
class Faithful (f : Token → Token) : Prop where
  kind_map : ∀ t, (f t).kind = t.kind
  contains_map : ∀ {words}, AreLines words → ∀ t, words.contains (f t).text = words.contains t.text

/--
A faithful replacement that keeps where tokens stand on their lines.
-/
class KeepsColumns (f : Token → Token) : Prop extends Faithful f where
  column_map : ∀ t, (f t).column = t.column
  lineStart_map : ∀ t, (f t).lineStart = t.lineStart

section

variable (f : Token → Token) [KeepsColumns f] (t : Token)

theorem column_map : (f t).column = t.column :=
  KeepsColumns.column_map t

theorem lineStart_map : (f t).lineStart = t.lineStart :=
  KeepsColumns.lineStart_map t

end

variable (f : Token → Token) [Faithful f] (t : Token)

theorem kind_map : (f t).kind = t.kind :=
  Faithful.kind_map t

theorem contains_map {words : List String} (h : AreLines words) : words.contains (f t).text = words.contains t.text :=
  Faithful.contains_map h t

theorem text_map {w : String} (h : AreLines [w]) : ((f t).text == w) = (t.text == w) := by
  have hcontains := contains_map f t h
  simpa only [List.contains_cons, List.contains_nil, Bool.or_false] using hcontains

theorem isKeyword_map {words : List String} (h : AreLines words) : (f t).isKeyword words = t.isKeyword words := by
  rw [isKeyword, isKeyword, kind_map f, contains_map f t h]

theorem isSpecial_map {marks : List String} (h : AreLines marks) : (f t).isSpecial marks = t.isSpecial marks := by
  rw [isSpecial, isSpecial, kind_map f, contains_map f t h]

theorem isReservedOp_map {ops : List String} (h : AreLines ops) : (f t).isReservedOp ops = t.isReservedOp ops := by
  rw [isReservedOp, isReservedOp, kind_map f, contains_map f t h]

theorem isOperator_map : (f t).isOperator = t.isOperator := by
  rw [isOperator, isOperator, kind_map f]

theorem isEnd_map : (f t).isEnd = t.isEnd := by
  rw [isEnd, isEnd, kind_map f]

theorem isOpening_map : (f t).isOpening = t.isOpening :=
  isSpecial_map f t (by decide)

theorem isClosing_map : (f t).isClosing = t.isClosing :=
  isSpecial_map f t (by decide)

theorem bracketStep_map : (f t).bracketStep = t.bracketStep := by
  rw [bracketStep, bracketStep, isOpening_map f, isClosing_map f]

end Token

namespace Token

/--
What a token is without the place where it stands.
-/
def spelled (t : Token) : Token :=
  ⟨t.kind, t.text, .origin, [], [], false⟩

/--
What the layout rule sees of a token.
-/
def bare (t : Token) : Token :=
  ⟨t.kind, t.text, ⟨0, 0, t.column⟩, [], [], t.lineStart⟩

instance : Faithful spelled where
  kind_map _ := rfl
  contains_map _ _ := rfl

instance : KeepsColumns bare where
  kind_map _ := rfl
  contains_map _ _ := rfl
  column_map _ := rfl
  lineStart_map _ := rfl

theorem map_spelled_of_bare {ts us : List Token} (h : us.map bare = ts.map bare) :
    us.map spelled = ts.map spelled := by
  have hmap := congrArg (List.map spelled) h
  rwa [List.map_map, List.map_map] at hmap

end Token

theorem headD_map (f : Token → Token) (ts : List Token) (eof : Token) :
    (ts.map f).headD (f eof) = f (ts.headD eof) := by
  cases ts <;> rfl

end HaskellStyle
