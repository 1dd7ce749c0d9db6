import EmailMarkup.Html.Tree

/-!
# Numbered nodes

The document is node 0, and the nodes in it are numbered from 1 in document order: a node before
its children, and those before its next sibling. The table lists for each number where the node
hangs, which gives the questions that ask for numbers: parent, children, siblings.
-/

namespace EmailMarkup.Html

mutual

/-- How many nodes hang in a node, itself included. -/
def Node.size : Node → Nat
  | .element _ children => 1 + sizeOfNodes children
  | _ => 1

/-- How many nodes hang in some nodes. -/
def sizeOfNodes : List Node → Nat
  | [] => 0
  | n :: rest => n.size + sizeOfNodes rest

end

/-- A line of the table: a node's number, the number of the node it hangs in, its tag if it is an
element, and the numbers of its children. -/
structure Entry where
  id : Nat
  parent : Option Nat
  tag : Option Tag
  children : List Nat
  deriving Repr

/-- The numbers of nodes that stand side by side, the first of which has the number `next`. -/
def childIds (next : Nat) : List Node → List Nat
  | [] => []
  | n :: rest => next :: childIds (next + n.size) rest

mutual

/-- The lines of a node and of all nodes in it. -/
def Node.entries (parent id : Nat) : Node → List Entry
  | .element tag children =>
    { id, parent := some parent, tag := some tag, children := childIds (id + 1) children } ::
      entriesOfNodes id (id + 1) children
  | _ => [{ id, parent := some parent, tag := none, children := [] }]

/-- The lines of nodes that stand side by side. -/
def entriesOfNodes (parent next : Nat) : List Node → List Entry
  | [] => []
  | n :: rest => n.entries parent next ++ entriesOfNodes parent (next + n.size) rest

end

/-- The table of a document, in the order of the numbers. -/
def Document.table (d : Document) : List Entry :=
  { id := 0, parent := none, tag := none, children := childIds 1 d.children } ::
    entriesOfNodes 0 1 d.children

/-- The line of a number. -/
def Document.entry? (d : Document) (id : Nat) : Option Entry :=
  d.table[id]?

/-- Whether a number is that of an element. -/
def Document.isElement (d : Document) (id : Nat) : Bool :=
  ((d.entry? id).bind Entry.tag).isSome

/-- The numbers of all elements, in document order. -/
def Document.elementIds (d : Document) : List Nat :=
  (d.table.filter fun e => e.tag.isSome).map Entry.id

/-- The number of the node that a node hangs in. -/
def Document.parent? (d : Document) (id : Nat) : Option Nat :=
  (d.entry? id).bind Entry.parent

/-- The number of the element that a node hangs in. -/
def Document.parentElement? (d : Document) (id : Nat) : Option Nat :=
  (d.parent? id).filter d.isElement

/-- The numbers of the children that are elements. -/
def Document.elementChildren (d : Document) (id : Nat) : List Nat :=
  (((d.entry? id).map Entry.children).getD []).filter d.isElement

/-- The numbers of the elements beside a node, itself included. -/
def Document.elementSiblings (d : Document) (id : Nat) : List Nat :=
  match d.parent? id with
  | some parent => d.elementChildren parent
  | none => [id]

/-- The number of the last element before a node among its siblings. -/
def Document.previousElement? (d : Document) (id : Nat) : Option Nat :=
  let siblings := d.elementSiblings id
  -- A node that is no element has no place among the elements beside it.
  if siblings.contains id then (siblings.takeWhile (· != id)).getLast? else none

mutual

/-- Changes the tag of the element with a number, where the node at hand has the number `id`. -/
def Node.modifyTag (target id : Nat) (f : Tag → Tag) : Node → Node
  | .element tag children =>
    .element (if id = target then f tag else tag) (modifyTagIn target (id + 1) f children)
  | n => n

/-- Changes the tag of the element with a number among nodes, the first of which has the number
`next`. -/
def modifyTagIn (target next : Nat) (f : Tag → Tag) : List Node → List Node
  | [] => []
  | n :: rest => n.modifyTag target next f :: modifyTagIn target (next + n.size) f rest

end

/-- Gives an attribute of the element with a number a value that is already escaped. A number that
is not that of an element changes nothing. -/
def Document.setAttribute (d : Document) (id : Nat) (name value : String) : Document :=
  { children := modifyTagIn id 1 (·.setAttribute name value) d.children }

end EmailMarkup.Html
