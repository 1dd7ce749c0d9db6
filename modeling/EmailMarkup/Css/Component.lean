import EmailMarkup.Css.Token

/-!
# Component values

A style sheet is a list of component values: single tokens, and blocks of component values between
brackets. A block ends at the closing bracket of its own kind, or at the end of the text; any other
closing bracket inside it is a token like any other.
-/

namespace EmailMarkup.Css

/-- A token, or a block with the token that opens it and the token that closes it, if any. A
function is a block whose opening token carries its name. -/
inductive Component where
  | token (t : Token)
  | block (opener : Token) (bracket : Bracket) (content : List Component) (closer : Option Token)
  deriving Repr

mutual

/-- The source of a component. -/
def Component.source : Component → List Char
  | .token t => t.source
  | .block opener _ content closer =>
    opener.source ++ sourceOf content ++ (closer.map Token.source).getD []

/-- The source of components side by side. -/
def sourceOf : List Component → List Char
  | [] => []
  | c :: rest => c.source ++ sourceOf rest

end

/-- The bracket that a token opens. -/
def Kind.opens? : Kind → Option Bracket
  | .opening b => some b
  | .function _ => some .round
  | _ => none

/-- A block whose end has not been read, with its content so far, latest first. -/
structure OpenBlock where
  opener : Token
  bracket : Bracket
  content : List Component

/-- The block, once no more of it is to be read. -/
def OpenBlock.finish (b : OpenBlock) (closer : Option Token) : Component :=
  .block b.opener b.bracket b.content.reverse closer

/-- Components in the making: those outside all blocks, latest first, and the open blocks, innermost
first. -/
structure Grouping where
  top : List Component
  stack : List OpenBlock

/-- Adds a component to the innermost open block. -/
def Grouping.add (g : Grouping) (c : Component) : Grouping :=
  match g.stack with
  | [] => { g with top := c :: g.top }
  | b :: rest => { g with stack := { b with content := c :: b.content } :: rest }

/-- Takes in one token. -/
def Grouping.step (g : Grouping) (t : Token) : Grouping :=
  match t.kind.opens? with
  | some bracket => { g with stack := { opener := t, bracket, content := [] } :: g.stack }
  | none =>
    match t.kind, g.stack with
    | .closing bracket, b :: rest =>
      if bracket = b.bracket then Grouping.add { g with stack := rest } (b.finish (some t))
      -- A bracket of another kind does not close anything.
      else g.add (.token t)
    | _, _ => g.add (.token t)

/-- Ends all open blocks, given the last component of the innermost one. -/
def endBlocks (last : Option Component) (top : List Component) : List OpenBlock → List Component
  | [] => last.toList ++ top
  | b :: rest =>
    endBlocks (some ({ b with content := last.toList ++ b.content }.finish none)) top rest

/-- Groups tokens into components. -/
def group (tokens : List Token) : List Component :=
  let g := tokens.foldl Grouping.step { top := [], stack := [] }
  (endBlocks none g.top g.stack).reverse

/-- The components of a text. -/
def components (cs : List Char) : List Component :=
  group (readTokens cs)

/-- Whether a component is a single token of a kind. -/
def Component.isKind (k : Kind) : Component → Bool
  | .token t => t.kind = k
  | .block .. => false

/-- Whether a component is a blank or a comment, which stand between other tokens. -/
def Component.isGap (c : Component) : Bool :=
  c.isKind .blank || c.isKind .comment

/-- Whether a component is a block in curly brackets. -/
def Component.isCurly : Component → Bool
  | .block opener _ _ _ => opener.kind = .opening .curly
  | .token _ => false

/-- What follows the first component that satisfies `p`. -/
def dropThrough (p : Component → Bool) (cs : List Component) : List Component :=
  (cs.dropWhile fun c => !p c).drop 1

/-- Dropping components does not lengthen the list. -/
theorem length_dropThrough_le (p : Component → Bool) (cs : List Component) :
    (dropThrough p cs).length ≤ cs.length := by
  have := (List.dropWhile_sublist (l := cs) fun c => !p c).length_le
  rw [dropThrough, List.length_drop]
  omega

end EmailMarkup.Css
