import HaskellStyle.Fault
import HaskellStyle.Text.Blank
import HaskellStyle.Text.Letter
import HaskellStyle.Text.LetterCase
import HaskellStyle.Text.Symbol
import HaskellStyle.Token.Basic

/-!
This module contains lexemes, the pieces into which a source text is cut: tokens and trivia that do not
know each other yet. A lexeme is its first character together with a number of characters behind it, and
the functions here compute that number. String and character literals, pragmas and quasi-quotes are
single lexemes, block comments nest, and preprocessor directives and an interpreter line are trivia.
-/

namespace HaskellStyle

/--
What a lexeme is.
-/
inductive LexemeKind where
  | token (kind : TokenKind)
  | trivia (kind : TriviaKind)
  deriving DecidableEq

/--
A piece of the source text.
-/
structure Lexeme where
  kind : LexemeKind
  text : String
  position : Position
  deriving DecidableEq

namespace Lexeme

/--
The words with a meaning of their own.
-/
def reservedIds : List String :=
  ["case", "class", "data", "default", "deriving", "do", "else", "foreign", "if", "import", "in",
   "infix", "infixl", "infixr", "instance", "let", "module", "newtype", "of", "then", "type", "where",
   "_"]

/--
The operators with a meaning of their own.
-/
def reservedOps : List String :=
  ["..", ":", "::", "=", "\\", "|", "<-", "->", "@", "~", "=>", "∷", "⇒", "→", "←", "∀"]

/--
Brackets and separators.
-/
def isSpecial (c : Char) : Bool :=
  "(),;[]\x60\x7b\x7d".toList.contains c

/--
The words behind a `#` at the start of a line that make it a preprocessor directive.
-/
def directiveWords : List String :=
  ["if", "ifdef", "ifndef", "elif", "else", "endif", "define", "undef", "include", "error", "warning",
   "line", "pragma"]

/--
A character that can begin an identifier.
-/
def isIdentStart (c : Char) : Bool :=
  Text.isLetter c || c == '_'

/--
A character that can continue an identifier.
-/
def isIdentChar (c : Char) : Bool :=
  Text.isAlphanumeric c || c == '_' || c == '\''

/--
The length of the longest beginning of a text whose characters satisfy `p`.
-/
def runLength (p : Char → Bool) (cs : List Char) : Nat :=
  (cs.takeWhile p).length

/--
Where `part` first occurs in a text.
-/
def find (part : List Char) : List Char → Option Nat
  | [] => if part.isEmpty then some 0 else none
  | c :: cs =>
    if part.isPrefixOf (c :: cs) then
      some 0
    else
      (find part cs).map (· + 1)

/--
The blanks that belong together with a blank before them. They end before a line end.
-/
def blanksLength : List Char → Nat
  | [] => 0
  | '\r' :: '\n' :: _ => 0
  | c :: cs => if c ≠ '\n' && Text.isBlank c then blanksLength cs + 1 else 0

/--
The rest of a directive. A line that ends in a backslash continues on the next one; `previous` is the
character before the rest.
-/
def directiveLength (previous : Char) : List Char → Nat
  | [] => 0
  | '\r' :: '\n' :: cs => if previous = '\\' then directiveLength '\n' cs + 2 else 0
  | '\n' :: cs => if previous = '\\' then directiveLength '\n' cs + 1 else 0
  | c :: cs => directiveLength c cs + 1

/--
Whether a text behind a `#` begins with a directive's word.
-/
def startsDirective (cs : List Char) : Bool :=
  let rest := cs.dropWhile fun c => c == ' ' || c == '\t'
  directiveWords.contains (String.ofList (rest.takeWhile Text.isWordChar))

/--
The rest of a line comment, up to the line end.
-/
def lineCommentLength : List Char → Nat
  | [] => 0
  | '\r' :: '\n' :: _ => 0
  | '\n' :: _ => 0
  | _ :: cs => lineCommentLength cs + 1

/--
The rest of a block comment in which `depth` comments besides the outermost are open.
-/
def blockCommentLength (depth : Nat) : List Char → Option Nat
  | [] => none
  | '\x7b' :: '-' :: cs => (blockCommentLength (depth + 1) cs).map (· + 2)
  | '-' :: '\x7d' :: cs =>
    match depth with
    | 0 => some 2
    | depth + 1 => (blockCommentLength depth cs).map (· + 2)
  | _ :: cs => (blockCommentLength depth cs).map (· + 1)

/--
Where the reading of a string literal stands: among plain characters, behind a backslash, or in a gap
that a backslash has begun. The latter two know the backslash's offset.
-/
inductive StringState where
  | plain
  | escape (backslash : Nat)
  | gap (backslash : Nat)

/--
A character that may stand in a string gap.
-/
def isGapChar (c : Char) : Bool :=
  c == ' ' || c == '\t' || c == '\r' || c == '\n'

/--
The rest of a string literal. `start` is the offset of the opening quote and `offset` that of the rest.
-/
def stringLength (start offset : Nat) : StringState → List Char → Except Failure Nat
  | .gap backslash, [] => .error ⟨.malformedGap, backslash⟩
  | _, [] => .error ⟨.unterminatedString, start⟩
  | .plain, c :: cs =>
    if c = '"' then
      .ok 1
    else if c = '\n' then
      .error ⟨.unterminatedString, start⟩
    else
      let state := if c = '\\' then .escape offset else .plain
      (stringLength start (offset + 1) state cs).map (· + 1)
  | .escape backslash, c :: cs =>
    let state := if isGapChar c then .gap backslash else .plain
    (stringLength start (offset + 1) state cs).map (· + 1)
  | .gap backslash, c :: cs =>
    if isGapChar c then
      (stringLength start (offset + 1) (.gap backslash) cs).map (· + 1)
    else if c = '\\' then
      (stringLength start (offset + 1) .plain cs).map (· + 1)
    else
      .error ⟨.malformedGap, backslash⟩

/--
A hexadecimal digit.
-/
def isHexDigit (c : Char) : Bool :=
  c.isDigit || ('a' ≤ c && c ≤ 'f') || ('A' ≤ c && c ≤ 'F')

/--
An octal digit.
-/
def isOctDigit (c : Char) : Bool :=
  '0' ≤ c && c ≤ '7'

/--
A binary digit.
-/
def isBinDigit (c : Char) : Bool :=
  c == '0' || c == '1'

/--
The ways to spell the escape behind a backslash in a character literal, as lengths; they are tried in
this order.
-/
def escapeLengths (cs : List Char) : List Nat :=
  let digits (p : Char → Bool) (cs : List Char) : List Nat :=
    let n := runLength p cs
    if n = 0 then [] else [n]
  let control :=
    match cs with
    | '^' :: c :: _ => if c = '\n' then [] else [2]
    | _ => []
  let named :=
    let n := runLength Char.isUpper cs
    if n = 2 ∨ n = 3 then [n] else []
  let numbered :=
    match cs with
    | 'x' :: cs => (digits isHexDigit cs).map (· + 1)
    | 'o' :: cs => (digits isOctDigit cs).map (· + 1)
    | cs => digits Char.isDigit cs
  let single :=
    match cs with
    | c :: _ => if c = '\n' then [] else [1]
    | [] => []
  control ++ named ++ numbered ++ single

/--
The rest of a character literal behind its opening quote, if there is one.
-/
def charLength : List Char → Option Nat
  | '\\' :: cs =>
    ((escapeLengths cs).find? fun n => (cs.drop n).head? = some '\'').map (· + 2)
  | c :: '\'' :: _ => if c = '\'' ∨ c = '\n' then none else some 2
  | _ => none

/--
The length of a run of digits and underscores up to its last digit.
-/
def digitsLength (p : Char → Bool) (cs : List Char) : Nat :=
  let run := cs.takeWhile fun c => p c || c == '_'
  (run.reverse.dropWhile (· == '_')).length

/--
The rest of a decimal number behind its first digit, and whether it has a fraction or an exponent.
-/
def decimalLength (cs : List Char) : Bool × Nat :=
  let isDigitOrUnderscore := fun c : Char => c.isDigit || c == '_'
  let whole := runLength isDigitOrUnderscore cs
  let fraction :=
    match cs.drop whole with
    | '.' :: c :: more => if c.isDigit then runLength isDigitOrUnderscore more + 2 else 0
    | _ => 0
  let exponent :=
    match cs.drop (whole + fraction) with
    | e :: more =>
      if e = 'e' ∨ e = 'E' then
        let sign := if more.head? = some '+' ∨ more.head? = some '-' then 1 else 0
        let digits := runLength Char.isDigit (more.drop sign)
        if digits = 0 then 0 else digits + sign + 1
      else
        0
    | [] => 0
  (fraction + exponent ≠ 0, whole + fraction + exponent)

/--
The kind and the rest of a number that begins with the digit `c`. A digit outside of ASCII is a number
of its own.
-/
def numberLength (c : Char) (cs : List Char) : TokenKind × Nat :=
  let decimal :=
    let (isFloat, n) := decimalLength cs
    (if isFloat then TokenKind.float else .integer, n)
  let based (p : Char → Bool) (cs : List Char) :=
    let n := digitsLength p cs
    if n = 0 then decimal else (TokenKind.integer, n + 1)
  if !c.isDigit then
    (.integer, 0)
  else if c = '0' then
    match cs with
    | 'x' :: cs | 'X' :: cs => based isHexDigit cs
    | 'o' :: cs | 'O' :: cs => based isOctDigit cs
    | 'b' :: cs | 'B' :: cs => based isBinDigit cs
    | _ => decimal
  else
    decimal

/--
Whether a run of symbols begins a line comment: two or more dashes and nothing else.
-/
def isDashes (symbol : List Char) : Bool :=
  2 ≤ symbol.length && symbol.all (· == '-')

/--
The kind and the rest of a name behind its capitalised first part. `qualified` tells whether a part with
a dot has been read. A dot before a capital that no name can hold, such as a circled one, still belongs to
the name.
-/
def qualifiedLength ( qualified : Bool) (cs : List Char) : TokenKind × Nat :=
  let stop := (if qualified then TokenKind.qualifiedConId else .conId, 0)
  match cs with
  | '.' :: c :: more =>
    if Text.isUpper c then
      if isIdentChar c then
        let n := runLength isIdentChar more
        let (kind, m) := qualifiedLength true (more.drop n)
        (kind, n + m + 2)
      else
        (.qualifiedConId, 1)
    else if isIdentStart c then
      let n := runLength isIdentChar more
      if reservedIds.contains (String.ofList (c :: more.take n)) then
        stop
      else
        (.qualifiedVarId, n + 2)
    else if Text.isSymbol c then
      let n := runLength Text.isSymbol more
      if isDashes (c :: more.take n) then
        stop
      else
        (if c = ':' then .qualifiedConSym else .qualifiedVarSym, n + 2)
    else
      stop
  | _ => stop
termination_by cs.length
decreasing_by simp only [List.length_drop, List.length_cons]; omega

/--
The kind and the rest of an identifier that begins with `c`.
-/
def identifierLength (c : Char) (cs : List Char) : TokenKind × Nat :=
  let n := runLength isIdentChar cs
  if Text.isCapital c then
    let (kind, m) := qualifiedLength false (cs.drop n)
    (kind, n + m)
  else if reservedIds.contains (String.ofList (c :: cs.take n)) then
    (.reservedId, n)
  else
    (.varId, n)

/--
The rest of a run of symbols that begins with `c`: an operator or a line comment.
-/
def symbolLength (c : Char) (cs : List Char) : LexemeKind × Nat :=
  let n := runLength Text.isSymbol cs
  let symbol := c :: cs.take n
  if isDashes symbol then
    (.trivia .lineComment, lineCommentLength cs)
  else if reservedOps.contains (String.ofList symbol) then
    (.token .reservedOp, n)
  else if c = ':' then
    (.token .conSym, n)
  else
    (.token .varSym, n)

/--
The length of a quasi-quote's quoter and bar behind the bracket: module parts, a name and `|`.
-/
def quoterLength (cs : List Char) : Option Nat :=
  match cs with
  | c :: more =>
    let n := runLength (fun c => Text.isWordChar c || c == '\'') more
    if c.isUpper then
      if (more.drop n).head? = some '.' then
        (quoterLength (more.drop (n + 1))).map (· + (n + 2))
      else
        none
    else if c.isLower ∨ c = '_' then
      if (more.drop n).head? = some '|' then some (n + 2) else none
    else
      none
  | [] => none
termination_by cs.length
decreasing_by simp only [List.length_drop, List.length_cons]; omega

/--
The kind and the rest of the lexeme that begins with `c` at `offset`. The character before it is
`previous`, and `quasiQuotes` tells whether a bracket can open a quasi-quote.
-/
def measure (quasiQuotes : Bool) (previous : Option Char) (offset : Nat) (c : Char) (cs : List Char) :
    Except Failure (LexemeKind × Nat) :=
  if c = '\n' then
    .ok (.trivia .newline, 0)
  else if c = '\r' ∧ cs.head? = some '\n' then
    .ok (.trivia .newline, 1)
  else if Text.isBlank c then
    .ok (.trivia .blanks, blanksLength cs)
  else if c = '#' ∧ (previous = none ∨ previous = some '\n') ∧ startsDirective cs then
    .ok (.trivia .directive, directiveLength c cs)
  else if c = '\x7b' ∧ ['-', '#'].isPrefixOf cs then
    match find ['#', '-', '\x7d'] (cs.drop 2) with
    | some n => .ok (.token .pragma, n + 5)
    | none => .error ⟨.unterminatedPragma, offset⟩
  else if c = '\x7b' ∧ cs.head? = some '-' then
    match blockCommentLength 0 (cs.drop 1) with
    | some n => .ok (.trivia .blockComment, n + 1)
    | none => .error ⟨.unterminatedComment, offset⟩
  else if c = '"' then
    (stringLength offset (offset + 1) .plain cs).map fun n => (.token .string, n)
  else if c = '\'' then
    match charLength cs with
    | some n => .ok (.token .char, n)
    | none => .ok (.token .tick, if cs.head? = some '\'' then 1 else 0)
  else if Text.isDigit c then
    let (kind, n) := numberLength c cs
    .ok (.token kind, n)
  else if isIdentStart c then
    let (kind, n) := identifierLength c cs
    .ok (.token kind, n)
  else
    match if c = '[' ∧ quasiQuotes then quoterLength cs else none with
    | some n =>
      match find ['|', ']'] (cs.drop n) with
      | some m => .ok (.token .quasiQuote, n + m + 2)
      | none => .error ⟨.unterminatedQuasiQuote, offset⟩
    | none =>
      if isSpecial c then
        .ok (.token .special, 0)
      else if Text.isSymbol c then
        .ok (symbolLength c cs)
      else
        .ok (.token .varSym, 0)

/--
The lexemes of a text that begins at `position` behind the character `previous`.
-/
def scan (quasiQuotes : Bool) (previous : Option Char) (position : Position) (cs : List Char) :
    Except Failure (List Lexeme) :=
  match cs with
  | [] => .ok []
  | c :: more => do
    let (kind, n) ← measure quasiQuotes previous position.offset c more
    let text := c :: more.take n
    let others ← scan quasiQuotes text.getLast? (position.after text) (more.drop n)
    return ⟨kind, String.ofList text, position⟩ :: others
termination_by cs.length
decreasing_by simp only [List.length_drop, List.length_cons]; omega

/--
The lexemes of a whole source text. Only here there can be a byte order mark and, behind it, an
interpreter line.
-/
def ofText (quasiQuotes : Bool) (text : List Char) : Except Failure (List Lexeme) := do
  let (mark, rest) := if text.head? = some '\ufeff' then (text.take 1, text.drop 1) else ([], text)
  let start := Position.origin.after mark
  let marks := mark.map fun c => ⟨.trivia .byteOrderMark, String.singleton c, Position.origin⟩
  match rest with
  | '#' :: '!' :: more =>
    let n := directiveLength '!' more + 1
    let line := rest.take (n + 1)
    let others ← scan quasiQuotes line.getLast? (start.after line) (rest.drop (n + 1))
    return marks ++ ⟨.trivia .directive, String.ofList line, start⟩ :: others
  | _ =>
    let others ← scan quasiQuotes mark.getLast? start rest
    return marks ++ others

end Lexeme

end HaskellStyle
