import EmailMarkup.Html.Tree

/-!
# Elements in their places

A selector asks about an element, the elements beside it and the elements around it, and of each of
them only what its tags say and whether it has any content. A place is an element with just that:
the row of siblings it stands in, and the rows of the elements around it, from the inside out.

Places are the common ground of matching (`Selector.Match`) and of the two ways to change tags.
`Document.mapTags` shows every element in the document as it was, and `Document.updateInOrder` shows
it in the document as changed so far.
-/

namespace EmailMarkup.Html

/-- An element as seen from outside: its tags, and whether it is without any content. -/
structure Element where
  tag : Tag
  isEmpty : Bool
  deriving DecidableEq, Repr

/-- An element among its sibling elements. Those before it are given nearest first. -/
structure Row where
  before : List Element
  here : Element
  after : List Element
  deriving DecidableEq, Repr

/-- An element among its siblings, and the rows of the elements around it, innermost first. -/
structure Place where
  row : Row
  above : List Row
  deriving DecidableEq, Repr

/-- The tags of the element at a place. -/
def Place.tag (p : Place) : Tag :=
  p.row.here.tag

/-- The place of the element around a place. -/
def Place.parent? (p : Place) : Option Place :=
  match p.above with
  | [] => none
  | row :: above => some { row, above }

/-- The places of the elements around, given by their rows, innermost first. -/
def placesOfRows : List Row → List Place
  | [] => []
  | row :: above => { row, above } :: placesOfRows above

/-- The places of all elements around a place, innermost first. -/
def Place.ancestors (p : Place) : List Place :=
  placesOfRows p.above

/-- The rows of the elements before one, nearest first, given the elements before and after. -/
def rowsBefore (here : Element) (after : List Element) : List Element → List Row
  | [] => []
  | e :: before =>
    { before, here := e, after := here :: after } :: rowsBefore e (here :: after) before

/-- The places of all elements before a place among its siblings, nearest first. -/
def Place.preceding (p : Place) : List Place :=
  (rowsBefore p.row.here p.row.after p.row.before).map fun row => { p with row }

/-- The place of the element just before a place among its siblings. -/
def Place.previous? (p : Place) : Option Place :=
  match p.row.before with
  | [] => none
  | e :: before =>
    some { p with row := { before, here := e, after := p.row.here :: p.row.after } }

/-- The elements of a row, in document order. -/
def Row.elements (r : Row) : List Element :=
  r.before.reverse ++ r.here :: r.after

/-- The elements among nodes, as seen from outside. -/
def elementsAmong (nodes : List Node) : List Element :=
  nodes.filterMap fun
    | .element tag children => some { tag, isEmpty := children.isEmpty }
    | _ => none

/-- The places of the elements among nodes and in them, in document order. -/
def placesAmong (above : List Row) (before : List Element) : List Node → List Place
  | [] => []
  | .element tag children :: rest =>
    let here : Element := { tag, isEmpty := children.isEmpty }
    let row : Row := { before, here, after := elementsAmong rest }
    { row, above } ::
      (placesAmong (row :: above) [] children ++ placesAmong above (here :: before) rest)
  | _ :: rest => placesAmong above before rest

/-- The places of all elements, in document order. -/
def Document.places (d : Document) : List Place :=
  placesAmong [] [] d.children

/-- Changes the tags among nodes, each shown in its place in the document as given. -/
def mapTagsAmong (f : Place → Tag) (above : List Row) (before : List Element) :
    List Node → List Node
  | [] => []
  | .element tag children :: rest =>
    let here : Element := { tag, isEmpty := children.isEmpty }
    let row : Row := { before, here, after := elementsAmong rest }
    .element (f { row, above }) (mapTagsAmong f (row :: above) [] children) ::
      mapTagsAmong f above (here :: before) rest
  | n :: rest => n :: mapTagsAmong f above before rest

/-- Changes every tag of a document, each shown in its place in the document as given. -/
def Document.mapTags (d : Document) (f : Place → Tag) : Document :=
  { children := mapTagsAmong f [] [] d.children }

/-- Changes the tags among nodes in document order, each shown in its place in the document as
changed so far: elements before it and around it carry their new tags. -/
def updateAmong (f : Place → Tag) (above : List Row) (before : List Element) :
    List Node → List Node
  | [] => []
  | .element tag children :: rest =>
    let here : Element := { tag, isEmpty := children.isEmpty }
    let row : Row := { before, here, after := elementsAmong rest }
    -- What comes after the element is shown as it was: its turn has not come.
    let changed : Element := { here with tag := f { row, above } }
    .element changed.tag (updateAmong f ({ row with here := changed } :: above) [] children) ::
      updateAmong f above (changed :: before) rest
  | n :: rest => n :: updateAmong f above before rest

/-- Changes every tag of a document in document order, each shown in its place in the document as
changed so far. -/
def Document.updateInOrder (d : Document) (f : Place → Tag) : Document :=
  { children := updateAmong f [] [] d.children }

end EmailMarkup.Html
