import EmailMarkup.Html.Entity
import EmailMarkup.Html.Reader
import EmailMarkup.Sanitize.Profile

/-!
# Sanitising

Sanitising reads a text as HTML, cleans the tree and writes it again. Dangerous elements vanish with
their content, other elements outside the profile vanish and leave their content, and comments and
declarations vanish. What stays is written afresh: names in lower case, values decoded and escaped
again, and every element with an end tag unless it has no content.
-/

namespace EmailMarkup.Sanitize

open EmailMarkup.Text EmailMarkup.Html

/-- The longest input that is read, in bytes, when no other limit is given. -/
def defaultLimit : Nat := 1024 * 1024

/-- The longest start of a text that takes at most `limit` bytes. -/
def takeBytes : Nat → List Char → List Char
  | _, [] => []
  | limit, c :: cs =>
    -- A character is taken whole or not at all.
    if c.utf8Size ≤ limit then c :: takeBytes (limit - c.utf8Size) cs else []

/-- An attribute as it is kept, if it is. -/
def cleanAttribute? (p : Profile) (a : Attribute) : Option Attribute :=
  let name := lower a.name
  -- References could hide a scheme, so a value is judged as a reader of the message decodes it.
  let value := unescape (a.value.getD "")
  if p.keepsAttribute name && valueIsSafe name value then
    some { name, value := some (escapeAttribute value) }
  else none

/-- Elements that are written without content. -/
def withoutContent : List String :=
  ["br", "hr", "img", "col", "source"]

mutual

/-- What stays of a node. -/
def cleanNode (p : Profile) : Node → List Node
  | .text content => [.text (escapeText content)]
  | .comment _ => []
  | .declaration _ => []
  | .element tag children =>
    let name := lower tag.name
    -- What such an element holds is code or a document of its own, and goes with it.
    if droppedElements.contains name then []
    else if p.elements.contains name then
      let attributes := tag.attributes.filterMap (cleanAttribute? p)
      if tag.selfClosing || withoutContent.contains name then
        [.element { name, attributes, selfClosing := true, closed := false } []]
      else
        [.element { name, attributes, selfClosing := false, closed := true }
          (cleanNodes p children)]
    -- The tags go and the content stays, as if it stood there alone.
    else cleanNodes p children

/-- What stays of nodes side by side. -/
def cleanNodes (p : Profile) : List Node → List Node
  | [] => []
  | n :: rest => cleanNode p n ++ cleanNodes p rest

end

/-- Sanitises a text, of which at most `limit` bytes are read. -/
def sanitizeWithin (limit : Nat) (p : Profile) (html : String) : String :=
  let input := String.ofList (takeBytes limit html.toList)
  Document.print { children := cleanNodes p (Document.read input).children }

/-- Sanitises a text. -/
def sanitize (p : Profile) (html : String) : String :=
  sanitizeWithin defaultLimit p html

end EmailMarkup.Sanitize
