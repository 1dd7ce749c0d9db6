import EmailMarkup.Text.Ascii

/-!
# HTML trees

The tree keeps the source of a document as written: values are not decoded, and comments, doctypes
and processing instructions are nodes of their own. A start tag without an end tag stays without
one, so a document that nothing has touched is written back as it was read.
-/

namespace EmailMarkup.Html

open EmailMarkup.Text

/-- An attribute as written. A bare attribute has a name and no value. -/
structure Attribute where
  name : String
  value : Option String
  deriving DecidableEq, Repr, Inhabited

/-- What the tags of an element say: everything but its content. -/
structure Tag where
  name : String
  attributes : List Attribute
  /-- The start tag ends in `/>`. -/
  selfClosing : Bool
  /-- An end tag closes the element. -/
  closed : Bool
  deriving DecidableEq, Repr, Inhabited

/-- A node of a document. -/
inductive Node where
  | text (content : String)
  | comment (content : String)
  /-- A doctype or a processing instruction, with its angle brackets. -/
  | declaration (content : String)
  | element (tag : Tag) (children : List Node)
  deriving Repr, Inhabited

/-- A document: the nodes that stand in no element. -/
structure Document where
  children : List Node
  deriving Repr, Inhabited

/-- Elements that never have content. -/
def voidElements : List String :=
  ["area", "base", "br", "col", "embed", "hr", "img", "input", "link", "meta", "param", "source",
    "track", "wbr"]

/-- Elements whose content is text up to their end tag, whatever it looks like. -/
def rawTextElements : List String :=
  ["script", "style", "title", "textarea"]

/-- Whether an element of this name never has content. -/
def isVoid (name : String) : Bool :=
  voidElements.any (sameName name)

/-- Whether an element of this name has only text as its content. -/
def isRawText (name : String) : Bool :=
  rawTextElements.any (sameName name)

/-- The value of the first attribute of a name. A bare attribute has the empty value. -/
def Tag.attribute? (t : Tag) (name : String) : Option String :=
  (t.attributes.find? fun a => sameName a.name name).map fun a => a.value.getD ""

/-- Gives the first attribute of a name a value, or adds one at the end. -/
def setAttributeIn (name value : String) : List Attribute → List Attribute
  | [] => [{ name, value := some value }]
  | a :: rest =>
    if sameName a.name name then { a with value := some value } :: rest
    else a :: setAttributeIn name value rest

/-- Gives an attribute a value that is already escaped. -/
def Tag.setAttribute (t : Tag) (name value : String) : Tag :=
  { t with attributes := setAttributeIn name value t.attributes }

/-! ### Writing -/

/-- An attribute as it is written. Single quotes are used for a value that has double quotes and no
single ones. -/
def Attribute.print (a : Attribute) : List Char :=
  match a.value with
  | none => ' ' :: a.name.toList
  | some v =>
    -- A value with both kinds of quotes gets double ones all the same.
    let quote := if v.toList.contains '"' && !v.toList.contains '\'' then '\'' else '"'
    ' ' :: a.name.toList ++ '=' :: quote :: v.toList ++ [quote]

/-- The start tag of an element. -/
def Tag.printStart (t : Tag) : List Char :=
  '<' :: t.name.toList ++ t.attributes.flatMap Attribute.print ++
    (if t.selfClosing then " />".toList else ['>'])

/-- The end tag of an element, if it has one. -/
def Tag.printEnd (t : Tag) : List Char :=
  if t.closed then "</".toList ++ t.name.toList ++ ['>'] else []

mutual

/-- Writes a node. A self-closing element is written without content. -/
def Node.print : Node → List Char
  | .text content => content.toList
  | .comment content => "<!--".toList ++ content.toList ++ "-->".toList
  | .declaration content => content.toList
  | .element tag children =>
    if tag.selfClosing then tag.printStart
    else tag.printStart ++ printNodes children ++ tag.printEnd

/-- Writes nodes one after the other. -/
def printNodes : List Node → List Char
  | [] => []
  | n :: rest => n.print ++ printNodes rest

end

/-- Writes a document. -/
def Document.print (d : Document) : String :=
  String.ofList (printNodes d.children)

end EmailMarkup.Html
