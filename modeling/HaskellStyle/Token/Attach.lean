import HaskellStyle.Text.LineIndex
import HaskellStyle.Token.Lexeme

/-!
This module contains the tokens of a source text. Between two tokens the trivia up to the first line end
goes to the token before it and the rest to the token behind it; without a line end all of it goes to the
token behind it.
-/

namespace HaskellStyle

namespace Token

/--
The lexemes before the first token, and every token with the trivia up to the next one.
-/
def groupLexemes : List Lexeme → Trivia × List ((TokenKind × String × Position) × Trivia)
  | [] => ([], [])
  | lexeme :: more =>
    let (trivia, groups) := groupLexemes more
    match lexeme.kind with
    | .trivia kind => (⟨kind, lexeme.text, lexeme.position⟩ :: trivia, groups)
    | .token kind => ([], ((kind, lexeme.text, lexeme.position), trivia) :: groups)

/--
Splits the trivia behind a token into what stays with it and what goes to the next token. At the end of
the text, trivia without a line end stays.
-/
def splitTrivia (trivia : Trivia) (isLast : Bool) : Trivia × Trivia :=
  if trivia.hasNewline then
    (trivia.takeWhile (·.kind ≠ .newline), trivia.dropWhile (·.kind ≠ .newline))
  else if isLast then
    (trivia, [])
  else
    ([], trivia)

/--
The tokens of grouped lexemes, and the trivia behind the last of them that it does not keep. `leading`
is the trivia left for the first token, and `endLine` the line on which the token before it ends.
-/
def attach (leading : Trivia) (endLine : Option Nat) :
    List ((TokenKind × String × Position) × Trivia) → List Token × Trivia
  | [] => ([], leading)
  | ((kind, text, position), following) :: groups =>
    let (trailing, next) := splitTrivia following groups.isEmpty
    let token : Token :=
      { kind, text, position, leading, trailing, lineStart := endLine.all (· < position.line) }
    let (tokens, rest) := attach next (some token.endLine) groups
    (token :: tokens, rest)

end Token

/--
The tokens of a source text, and the token that marks its end and owns the trivia behind them.
-/
structure TokenStream where
  tokens : List Token
  eof : Token

namespace TokenStream

/--
All tokens, the mark of the end included.
-/
def toList (stream : TokenStream) : List Token :=
  stream.tokens ++ [stream.eof]

/--
The source text, put together again.
-/
def sourceText (stream : TokenStream) : String :=
  Token.joinSource stream.toList

/--
Whether `word` spells the name of the quasi-quote extension in some case. Dotless and dotted `i` and the
long `s` count as spellings of the plain letters.
-/
def namesQuasiQuotes (word : List Char) : Bool :=
  let lower (c : Char) : Char :=
    if c = '\u0131' ∨ c = '\u0130' then 'i' else if c = '\u017f' then 's' else c.toLower
  word.map lower == "quasiquotes".toList

/--
Whether the pragma that a text begins with turns quasi-quotes on. The list of extensions ends at the
next number sign.
-/
def opensWithQuasiQuotes (text : List Char) : Bool :=
  if ['\x7b', '-', '#'].isPrefixOf text then
    let rest := (text.drop 3).dropWhile Text.isBlank
    let extensions := (rest.drop 8).takeWhile (· ≠ '#')
    (rest.take 8).map Char.toLower == "language".toList
      && !((rest.drop 8).head?.any Text.isWordChar)
      && (Text.fields (fun c => !Text.isWordChar c) extensions).any namesQuasiQuotes
  else
    false

/--
Whether a language pragma anywhere in the text turns quasi-quotes on.
-/
def quasiQuotesEnabled : List Char → Bool
  | [] => false
  | c :: cs => opensWithQuasiQuotes (c :: cs) || quasiQuotesEnabled cs

/--
The tokens of a text, with quasi-quotes read as told.
-/
def ofTextWith (quasiQuotes : Bool) (text : List Char) : Except Failure TokenStream := do
  let (leading, groups) := Token.groupLexemes (← Lexeme.ofText quasiQuotes text)
  let (tokens, rest) := Token.attach leading none groups
  return {
    tokens
    eof := {
      kind := .endOfText
      text := ""
      position := Position.origin.after text
      leading := rest
      trailing := []
      lineStart := true
    }
  }

/--
The tokens of a text, with quasi-quotes if the text turns them on.
-/
def ofText (text : List Char) : Except Failure TokenStream :=
  ofTextWith (quasiQuotesEnabled text) text

end TokenStream

end HaskellStyle
