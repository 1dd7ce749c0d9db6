import EmailMarkup.Markup.Item

/-!
# Reading markup

Items are built into a tree with a stack of open elements. A document is one element, with nothing
but blanks, comments and declarations around it.
-/

namespace EmailMarkup.Markup

open EmailMarkup.Text EmailMarkup.Component

/-- An element that is still open. Its children are given last first. -/
structure Open where
  tag : String
  attributes : Attributes
  position : Position
  children : List Node
  content : String
  deriving Repr

/-- The element of an open one, now that its closing tag has come. -/
def Open.close (o : Open) : Node :=
  .element o.tag o.attributes o.children.reverse (trim o.content) o.position

/-- Adds a child. -/
def Open.addChild (o : Open) (n : Node) : Open :=
  { o with children := n :: o.children }

/-- How far a document has been read. -/
inductive Progress where
  | before
  /-- In an element, which stands in others, innermost first. -/
  | inside (innermost : Open) (outer : List Open)
  | after (root : Node)
  deriving Repr

namespace Progress

/-- Puts a finished element where it belongs, given the open elements around it. -/
def attach (n : Node) : List Open → Progress
  | [] => .after n
  | o :: outer => .inside (o.addChild n) outer

/-- Takes in a text. -/
def addText (p : Progress) (content : String) (position : Position) : Except Failure Progress :=
  match p with
  | .before => .error (.malformed position .textBeforeRoot)
  | .inside o outer => .ok (.inside { o with content := o.content ++ content } outer)
  | .after _ => .error (.malformed position .textAfterRoot)

/-- Takes in a comment. If comments are kept, one in the body becomes an element that is passed
through. -/
def addComment (p : Progress) (keep : Bool) (source : String) (position : Position) : Progress :=
  match p with
  | .inside o outer =>
    -- Comments in the head, or directly in the outermost element, are dropped all the same.
    if keep && !(o :: outer).any (fun o => o.tag == "mj-head") && o.tag != "mjml" then
      .inside (o.addChild (.element "mj-raw" ∅ [] source position)) outer
    else .inside o outer
  | _ => p

/-- Takes in the opening tag of an element. -/
def openElement (p : Progress) (tag : String) (attributes : Attributes) (position : Position) :
    Except Failure Progress :=
  let o : Open := { tag, attributes, position, children := [], content := "" }
  match p with
  | .before => .ok (.inside o [])
  | .inside innermost outer => .ok (.inside o (innermost :: outer))
  | .after _ => .error (.malformed position (.elementAfterRoot tag))

/-- Takes in an element that is finished. -/
def addWhole (p : Progress) (n : Node) : Except Failure Progress :=
  match p with
  | .before => .ok (.after n)
  | .inside innermost outer => .ok (attach n (innermost :: outer))
  | .after _ => .error (.malformed n.position (.elementAfterRoot n.tag))

/-- Takes in a closing tag. -/
def closeElement (p : Progress) (tag : String) (position : Position) : Except Failure Progress :=
  match p with
  | .inside o outer =>
    if o.tag = tag then .ok (attach o.close outer)
    else .error (.malformed position (.mismatchedClosingTag tag o.tag))
  | _ => .error (.malformed position (.strayClosingTag tag))

/-- Takes in an item. -/
def add (keep : Bool) (p : Progress) (i : Placed) : Except Failure Progress :=
  match i.item with
  | .text content => p.addText content i.position
  | .comment source => .ok (p.addComment keep source i.position)
  | .opening tag attributes => p.openElement tag attributes i.position
  | .whole tag attributes content =>
    p.addWhole (.element tag attributes [] content i.position)
  | .closing tag => p.closeElement tag i.position

/-- The document, at the end of the text. -/
def finish : Progress → Except Failure Node
  | .before => .error (.malformed .start .missingRoot)
  -- Of several open elements the innermost is named.
  | .inside o _ => .error (.malformed o.position (.neverClosed o.tag))
  | .after root => .ok root

end Progress

/-- Builds the document of a text from its items and the fault that ended them. -/
def Node.ofItems (keep : Bool) (items : List Placed × Option Failure) : Except Failure Node := do
  -- Nesting is judged on what stands before the fault, so the earlier of the two is reported.
  let progress ← items.1.foldlM (Progress.add keep) .before
  match items.2 with
  | some failure => .error failure
  | none => progress.finish

/-- Reads a document whose tags the registry knows. With `keepComments`, comments in the body become
elements of their own, as far as there is a component that passes them through. -/
def Node.read (registry : Registry) (keepComments : Bool) (markup : String) : Except Failure Node :=
  let source := markup.toList
  Node.ofItems (keepComments && registry.has "mj-raw")
    (readItems registry (Position.ofRest source) source)

end EmailMarkup.Markup
