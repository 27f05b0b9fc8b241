import HaskellStyle.Print.Trivia

/-!
This module contains the writing of lists with one item per line. Each line begins with the bracket or the
comma before the item, and the closing bracket has a line of its own.
-/

namespace HaskellStyle.Printer

variable {ι : Type} [HasTokens ι]

/--
Writes comments behind code, each with a blank before it.
-/
def commentsBehind (out : Output) (comments : List TriviaPiece) : Output :=
  comments.foldl (fun out comment => out.write (" " ++ comment.text) true) out

/--
Writes the text of an item behind its leader. Comments between them, those behind the leader only if
`ownComments`, push the text to a line of its own.
-/
def ledText (leader first : Token) (indent : Int) (text : String) (ownComments : Bool) (out : Output) :
    Output :=
  let behind := if ownComments then leader.trailing.comments else []
  let before := first.leading.commentLines.filter fun line => !line.isEmpty
  if behind.isEmpty && before.isEmpty then
    out.put (" " ++ text)
  else
    let out := before.foldl (commentLine (indent + 2)) (commentsBehind out behind)
    (out.endLine.blanks (indent + 2)).put text

/--
Writes the comments behind a comma at the end of the line of the item before it.
-/
def movedComments (last comma : Token) (out : Output) : Output :=
  match comma.trailing.comments with
  | [] => out
  | comments =>
    let out := if last.trailing.hasComments then out else out.blanks (commentSpacing - 1)
    commentsBehind out comments

/--
Writes items with their leaders and texts. Blank lines before an item other than the first are kept.
-/
def ledItems (p : Printer) (indent : Int) (isFirst : Bool) :
    List ((Token × ι) × String) → Output → Output
  | [], out => out
  | ((leader, item), text) :: more, out =>
    let out := commentLines leader.leading indent (!isFirst) out
    let out := (out.endLine.blanks indent).put leader.text
    let out := ledText leader (firstToken item) indent text isFirst out
    let out := p.trailing (lastToken item) true out
    let out :=
      match more with
      | ((comma, _), _) :: _ => movedComments (lastToken item) comma out
      | [] => out
    ledItems p indent false more out

/--
Writes a list with one item per line, given the texts of its items.
-/
def itemList (p : Printer) (list : ItemList ι) (texts : List String) (indent : Int) (out : Output) :
    Output :=
  let out := ledItems p indent true (list.ledItems.zip texts) out
  let out := commentLines list.closing.leading (indent + 2) false out
  (out.endLine.blanks indent).put list.closing.text

end HaskellStyle.Printer
