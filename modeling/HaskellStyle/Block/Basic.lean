import HaskellStyle.Token.Basic

/-!
This module contains layout blocks: the items that the layout rule groups behind a keyword. An item is a
run of segments, which are tokens and the blocks nested between them; it begins with a token. Every
function on blocks is an instance of `Block.fold`, which visits the nested blocks first.
-/

namespace HaskellStyle

/--
What opens a layout block. The block behind the `where` of a class, an instance or a type declaration
holds declarations, other `where` blocks hold local bindings.
-/
inductive BlockKind where
  | doBlock
  | ofBlock
  | lambdaCase
  | letBlock
  | whereBlock
  | declarations
  deriving DecidableEq

/--
A token or a nested block of type `β`.
-/
inductive Segment (β : Type) where
  | token (t : Token)
  | block (b : β)

/--
Segments of which the first is a token.
-/
structure Run (β : Type) where
  first : Token
  rest : List (Segment β)

/--
The items that belong to the keyword `opener`. All of them begin at `column`.
-/
inductive Block where
  | mk (kind : BlockKind) (opener : Token) (column : Int) (items : List (Run Block))

namespace Segment

variable {β γ : Type}

/--
The token that a segment is.
-/
def token? : Segment β → Option Token
  | .token t => some t
  | .block _ => none

/--
The block that a segment is.
-/
def block? : Segment β → Option β
  | .token _ => none
  | .block b => some b

/--
Replaces the block of a segment.
-/
def map (f : β → γ) : Segment β → Segment γ
  | .token t => .token t
  | .block b => .block (f b)

/--
The segments of a run that are tokens.
-/
def topTokens (segments : List (Segment β)) : List Token :=
  segments.filterMap token?

/--
The blocks of a run.
-/
def blocks (segments : List (Segment β)) : List β :=
  segments.filterMap block?

/--
Whether a run has no blocks.
-/
def isFlat (segments : List (Segment β)) : Bool :=
  segments.all fun segment => segment.token?.isSome

/--
The tokens of a run without blocks.
-/
def flat? (segments : List (Segment β)) : Option (List Token) :=
  if isFlat segments then some (topTokens segments) else none

/--
The tokens of a run, given those of its blocks.
-/
def tokensWith (tokens : β → List Token) (segments : List (Segment β)) : List Token :=
  segments.flatMap fun
    | .token t => [t]
    | .block b => tokens b

end Segment

namespace Run

variable {β : Type}

/--
All segments of a run.
-/
def segments (run : Run β) : List (Segment β) :=
  .token run.first :: run.rest

/--
The blocks of a run.
-/
def blocks (run : Run β) : List β :=
  Segment.blocks run.rest

end Run

namespace Block

/--
The keyword's class.
-/
def kind : Block → BlockKind
  | .mk kind _ _ _ => kind

/--
The keyword that opened the block.
-/
def opener : Block → Token
  | .mk _ opener _ _ => opener

/--
The column of the items.
-/
def column : Block → Int
  | .mk _ _ column _ => column

/--
The items, in order.
-/
def items : Block → List (Run Block)
  | .mk _ _ _ items => items

mutual

/--
Combines a block with the values of the blocks nested in it.
-/
def fold {α : Type} (f : Block → List (Run (Block × α)) → α) : Block → α
  | .mk kind opener column items => f (.mk kind opener column items) (foldItems f items)

/--
The items of a block with the values of their blocks.
-/
def foldItems {α : Type} (f : Block → List (Run (Block × α)) → α) :
    List (Run Block) → List (Run (Block × α))
  | [] => []
  | ⟨first, rest⟩ :: more => ⟨first, foldSegments f rest⟩ :: foldItems f more

/--
Segments with the values of their blocks.
-/
def foldSegments {α : Type} (f : Block → List (Run (Block × α)) → α) :
    List (Segment Block) → List (Segment (Block × α))
  | [] => []
  | .token t :: more => .token t :: foldSegments f more
  | .block b :: more => .block (b, fold f b) :: foldSegments f more

end

/--
The tokens of a block, without its keyword.
-/
def tokens (b : Block) : List Token :=
  b.fold fun _ items => items.flatMap fun run => Segment.tokensWith Prod.snd run.segments

/--
The block itself and all blocks nested in it, outer blocks first.
-/
def nested (b : Block) : List Block :=
  b.fold fun b items => b :: items.flatMap fun run => run.blocks.flatMap Prod.snd

/--
The first token of a block.
-/
def firstToken (b : Block) : Token :=
  b.tokens.headD b.opener

/--
The last token of a block.
-/
def lastToken (b : Block) : Token :=
  b.tokens.getLastD b.opener

end Block

namespace Segment

/--
The tokens of segments, those of their blocks included.
-/
def tokens (segments : List (Segment Block)) : List Token :=
  tokensWith Block.tokens segments

end Segment

end HaskellStyle
