import EmailMarkup.Html.Piece

/-!
# Reading a document

The pieces of a text are put together with a stack of open elements, innermost first. Every node
becomes the last child of the innermost open element, so nodes come into being in document order.
An end tag closes the innermost open element of its name and, without end tags of their own, the
elements opened inside it; an end tag for which nothing is open is dropped.
-/

namespace EmailMarkup.Html

open EmailMarkup.Text

/-- An element whose end has not been read, with its children so far, latest first. -/
structure OpenElement where
  name : String
  attributes : List Attribute
  children : List Node

/-- The element, once no more of it is to be read. -/
def OpenElement.finish (e : OpenElement) (closed : Bool) : Node :=
  .element { name := e.name, attributes := e.attributes, selfClosing := false, closed }
    e.children.reverse

/-- A document in the making: the nodes outside all elements, latest first, and the open elements,
innermost first. -/
structure Builder where
  top : List Node
  stack : List OpenElement

/-- Changes the list of children that the next node joins. -/
def Builder.onChildren (b : Builder) (f : List Node → List Node) : Builder :=
  match b.stack with
  | [] => { b with top := f b.top }
  | e :: rest => { b with stack := { e with children := f e.children } :: rest }

/-- Adds text to children given latest first. Text after text is one node. -/
def joinText (content : String) : List Node → List Node
  | .text before :: rest => .text (before ++ content) :: rest
  | children => .text content :: children

/-- Closes open elements from the inside up to and including the first of a name, or all of them if
there is none. The nodes `inner` are the last children of the innermost one. -/
def closeThrough (name : String) (inner top : List Node) : List OpenElement → Builder
  | [] => { top := inner ++ top, stack := [] }
  | e :: rest =>
    let e := { e with children := inner ++ e.children }
    if sameName e.name name then
      Builder.onChildren { top, stack := rest } (e.finish true :: ·)
    -- An element that is closed from outside has no end tag of its own.
    else closeThrough name [e.finish false] top rest

/-- Closes all open elements, none of them with an end tag. -/
def closeAll (inner top : List Node) : List OpenElement → List Node
  | [] => inner ++ top
  | e :: rest => closeAll [{ e with children := inner ++ e.children }.finish false] top rest

/-- Takes in one piece. -/
def Builder.step (b : Builder) : Piece → Builder
  | .text content => b.onChildren (joinText content)
  | .comment content => b.onChildren (.comment content :: ·)
  | .declaration content => b.onChildren (.declaration content :: ·)
  | .endTag name =>
    -- Only an element that is open can be closed.
    if b.stack.any fun e => sameName e.name name then closeThrough name [] b.top b.stack else b
  | .startTag name attributes selfClosing =>
    if selfClosing || isVoid name then
      b.onChildren (.element { name, attributes, selfClosing, closed := false } [] :: ·)
    else { b with stack := { name, attributes, children := [] } :: b.stack }
  | .rawText name attributes content closed =>
    -- An element without content has no empty text in it.
    let children := if content.isEmpty then [] else [Node.text content]
    b.onChildren (.element { name, attributes, selfClosing := false, closed } children :: ·)

/-- The document that pieces make up. -/
def Document.ofPieces (pieces : List Piece) : Document :=
  let b := pieces.foldl Builder.step { top := [], stack := [] }
  { children := (closeAll [] b.top b.stack).reverse }

/-- Reads a document. -/
def Document.read (html : String) : Document :=
  .ofPieces (readPieces html.toList)

end EmailMarkup.Html
