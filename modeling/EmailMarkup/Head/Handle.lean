import EmailMarkup.Component.Spec
import EmailMarkup.Head.State

/-!
# Elements of the head

What each element of the head adds to what is known about a document.
-/

namespace EmailMarkup.HeadState

open EmailMarkup.Component EmailMarkup.Markup EmailMarkup.Text

/-- An attribute that is there and not empty. -/
def given? (attributes : Attributes) (name : String) : Option String :=
  (attributes.get? name).filter fun v => !v.isEmpty

/-- Adds a style sheet. A blank one is none. -/
def handleStyle (s : HeadState) (content : String) (inline : Bool) : HeadState :=
  let css := trim content
  if css.isEmpty then s
  else if inline then { s with inlineStyles := s.inlineStyles ++ [css] }
  else { s with styles := s.styles ++ [css] }

/-- Adds a class, with the attributes that it gives to all its elements and those for its elements
of single tags. A class without a name is none. -/
def handleClass (s : HeadState) (n : Node) : HeadState :=
  match given? n.attributes "name" with
  | none => s
  | some name =>
    -- What is for all elements of the class comes from its own attributes, the rest from its
    -- children.
    n.children.foldl (fun s c => s.addClassTag name c.tag c.attributes)
      (s.addClass name (n.attributes.erase "name"))

/-- Adds what one child of an attributes element says, about a class or about a tag. -/
def handleDefaults (s : HeadState) (n : Node) : HeadState :=
  if n.tag = "mj-class" then s.handleClass n else s.addTagAttributes n.tag n.attributes

/-- The attributes that a selector element asks for. One without a name is none. -/
def attributesAsked (n : Node) : Attributes :=
  .ofList ((n.childrenNamed "mj-html-attribute").filterMap fun c =>
    -- The value is the content of the element, not an attribute of it.
    (given? c.attributes "name").map fun name => (name, c.content))

/-- Adds what one selector element asks for. It needs a selector and an attribute. -/
def handleSelector (s : HeadState) (n : Node) : HeadState :=
  let path := trim ((n.attribute? "path").getD "")
  let attributes := attributesAsked n
  if path.isEmpty || attributes.isEmpty then s else s.addHtmlAttributes path attributes

/-- Adds what an element of the head says, given its resolved attributes. -/
def handle (s : HeadState) (kind : HeadKind) (n : Node) (attributes : Attributes) : HeadState :=
  match kind with
  | .title => { s with title := trim n.content }
  | .preview => { s with preview := trim n.content }
  | .breakpoint => { s with breakpoint := (given? attributes "width").getD s.breakpoint }
  | .font =>
    -- A font of a known name gets a new address in its old place.
    match given? attributes "name", given? attributes "href" with
    | some name, some href => { s with fonts := s.fonts.insert name href }
    | _, _ => s
  | .style => s.handleStyle n.content (attributes.get? "inline" == some "inline")
  | .attributes => n.children.foldl handleDefaults s
  | .htmlAttributes => (n.childrenNamed "mj-selector").foldl handleSelector s

end EmailMarkup.HeadState
