import EmailMarkup.Body.Block
import EmailMarkup.Body.Button
import EmailMarkup.Body.Column
import EmailMarkup.Body.Container
import EmailMarkup.Body.Image
import EmailMarkup.Body.Row
import EmailMarkup.Body.Text

/-!
# Drawing a body

Every block is drawn in a container of a width, which it may share out among its children.
-/

namespace EmailMarkup.Body

open EmailMarkup.Component EmailMarkup.Markup

/-- The width that an element gives its children. -/
def Element.childWidth (width : Float) (e : Element) : Float :=
  match e.kind with
  | .body => Container.childWidth e
  | .row => Row.childWidth width e
  | .column => Column.childWidth width e
  | .text | .image | .button | .raw => width

/-- The styles of an element. -/
def Element.slots (o : Options) (width : Float) (e : Element) : Slots :=
  match e.kind with
  | .body => Container.slots e
  | .row => Row.slots o width e
  | .column => Column.slots width e
  | .text => Text.slots e
  | .image => Image.slots width e
  | .button => Button.slots width e
  | .raw => .none

/-- Draws an element around its children. -/
def Element.draw (s : Setting) (width : Float) (e : Element) (children : List Child) :
    List Fragment :=
  match e.kind with
  | .body => Container.draw s.head e children
  | .row => Row.draw s.options width e children
  | .column => Column.draw width e children
  | .text => Text.draw s.options e
  | .image => Image.draw s.options width e
  | .button => Button.draw s.options width e
  | .raw => [.verbatim e.content]

/-- Notes on an element by itself. -/
def Element.notes (o : Options) (width : Float) (e : Element) : Notes :=
  match e.kind with
  | .body => Container.notes e
  | .row => Row.notes o width e
  | .column => Column.notes width e
  | .image => Image.notes o width e
  | .button => Button.notes o e
  | .text | .raw => {}

/-- The style sheet for the head that goes with a kind, for a breakpoint. -/
def sheetOf (breakpoint : String) : BodyKind → String
  | .image => Image.sheet breakpoint
  | _ => ""

/-- The style sheets for the head, one for each tag. -/
def Notes.sheetTable (n : Notes) (breakpoint : String) : OrderedMap String :=
  .ofList (n.sheets.map fun (tag, kind) => (tag, sheetOf breakpoint kind))

mutual

/-- What a block looks like in a container of a width. -/
def Block.fragments (s : Setting) (width : Float) : Block → List Fragment
  | .block e _ children => e.draw s width (childrenOf s (e.childWidth width) children)

/-- Blocks as their parent sees them, in the width that it gives them. -/
def childrenOf (s : Setting) (width : Float) : List Block → List Child
  | [] => []
  | b :: rest =>
    { element := b.element
      slots := b.element.slots s.options width
      fragments := b.fragments s width } :: childrenOf s width rest

end

mutual

/-- The notes on a block and everything in it. -/
def Block.notes (o : Options) (width : Float) : Block → Notes
  | .block e setup children =>
    -- Reports come in the order of the walk: the element, what was found in setting up its
    -- children, and the children.
    e.notes o width ++ setup ++ notesOf o (e.childWidth width) children

/-- The notes on blocks, one after the other. -/
def notesOf (o : Options) (width : Float) : List Block → Notes
  | [] => {}
  | b :: rest => b.notes o width ++ notesOf o width rest

end

/-- A drawing of an element: what was noted, and the element with its HTML, unless it was left
out. -/
structure Drawing where
  notes : Notes
  drawn? : Option (Element × String)

/-- Draws an element in a container of a width. -/
def draw (s : Setting) (width : Float) (siblings : Siblings) (n : Node) :
    Except Failure Drawing := do
  let set ← setUp s siblings n
  match set.element? with
  | none => return { notes := set.notes, drawn? := none }
  | some e =>
    -- Failures in the children end the drawing, whatever their parent would look like.
    let block ← blockOf s e n
    return { notes := set.notes ++ block.notes s.options width
             drawn? := some (e, printFragments (block.fragments s width)) }

end EmailMarkup.Body
