import EmailMarkup.Body.Fragment
import EmailMarkup.Body.Notes

/-!
# The body

The outermost element of what is drawn. It sets the width that rows are laid out in, and its
background is also that of the document.
-/

namespace EmailMarkup.Body.Container

open EmailMarkup.Layout

/-- The styles of a body. -/
def slots (e : Element) : Slots where
  entries := [("div", [("background-color", e.attr? "background-color")])]

/-- The width for the rows. -/
def childWidth (e : Element) : Float :=
  (widthOf ((e.attr? "width").getD "600px") true).value

/-- Draws a body. -/
def draw (head : HeadState) (e : Element) (children : List Child) : List Fragment :=
  Fragment.element "div"
    (written (slots e) [("class", .ofText? (e.attr? "css-class")), ("style", .slot "div"),
      ("lang", .text head.lang), ("dir", .text head.dir)])
    (children.flatMap Child.fragments)

/-- Notes on a body. -/
def notes (e : Element) : Notes :=
  { backgrounds := [e.attr? "background-color"] }

end EmailMarkup.Body.Container
