import EmailMarkup.Body.Attribute
import EmailMarkup.Component.Registry
import EmailMarkup.Diagnostic
import EmailMarkup.Head.State
import EmailMarkup.Layout.Keyword
import EmailMarkup.Layout.Shorthand
import EmailMarkup.Sanitize.Clean

/-!
# Elements of the body

An element of the body with its resolved attributes and its place among its siblings, and what its
attributes say about its box, its links and its content.

Lengths are signed words of 64 bits, and so are the sums of two of them: a sum that leaves the range
of words wraps around.
-/

namespace EmailMarkup.Body

open EmailMarkup.Component EmailMarkup.Layout EmailMarkup.Number EmailMarkup.Text

/-- What a body is compiled with. -/
structure Setting where
  registry : Registry
  options : Options
  head : HeadState

/-- How many children the parent of an element has, and how many of them are passed through, so that
they take no room. -/
structure Siblings where
  total : Nat
  raw : Nat
  deriving DecidableEq, Repr

namespace Siblings

/-- An element alone. -/
def single : Siblings :=
  { total := 1, raw := 0 }

/-- How many share the room. There is always the element itself. -/
def sharing (s : Siblings) : Nat :=
  max 1 (s.total - s.raw)

end Siblings

/-- An element of the body. -/
structure Element where
  tag : String
  kind : BodyKind
  attributes : Markup.Attributes
  siblings : Siblings
  /-- The element goes into its parent as it is. -/
  raw : Bool
  content : String
  line : Nat
  deriving Repr

/-- The horizontal measures of a box. -/
structure BoxWidths where
  total : Float
  paddings : Float
  borders : Float
  deriving Repr

namespace BoxWidths

/-- What paddings and borders leave, which may be negative. -/
def remaining (b : BoxWidths) : Float :=
  b.total - b.paddings - b.borders

/-- What is left for the content. -/
def inner (b : BoxWidths) : Float :=
  atLeastZero b.remaining

/-- Whether paddings and borders do not fit. -/
def overflows (b : BoxWidths) : Bool :=
  b.remaining < 0

end BoxWidths

namespace Element

/-- An attribute. An empty one is not there. -/
def attr? (e : Element) (name : String) : Option String :=
  (e.attributes.get? name).filter fun v => !v.isEmpty

/-- Whether an attribute is there. -/
def has (e : Element) (name : String) : Bool :=
  (e.attr? name).isSome

/-- An attribute that takes a keyword, with a default for when it is missing or takes no such
word. -/
def keyword {α : Type} [Keyword α] (e : Element) (name : String) (fallback : α) : α :=
  ((e.attr? name).bind Keyword.ofName?).getD fallback

/-- The value of an edge in a shorthand attribute, unless it has an attribute of its own. -/
def edge (e : Element) (name : String) (edge : Edge) : Int :=
  match e.attr? (name ++ "-" ++ edge.name) with
  | some value => amount value
  -- Without an attribute of its own the edge is one of four in the shorthand.
  | none => match e.attr? name with
    | some value => edgeOf value edge
    | none => 0

/-- The width of a border at an edge, in a border attribute unless the edge has one of its own. -/
def borderAt (e : Element) (name : String) (edge : Edge) : Int :=
  -- Unlike a padding, a border value is the same for all edges.
  match (e.attr? (name ++ "-" ++ edge.name)).or (e.attr? name) with
  | some value => borderWidth value
  | none => 0

/-- The paddings on the right and on the left, to be added up. -/
def sidePadding (e : Element) (name : String) : Addends :=
  { first := e.edge name .right, second := e.edge name .left }

/-- The borders on the right and on the left, to be added up. -/
def sideBorder (e : Element) (name : String) : Addends :=
  { first := e.borderAt name .right, second := e.borderAt name .left }

/-- The box of an element in a container of a width, of which only whole pixels count. -/
def box (e : Element) (width : Float) : BoxWidths :=
  { total := truncate width
    paddings := Float.ofInt (e.sidePadding "padding").sum
    borders := Float.ofInt (e.sideBorder "border").sum }

/-- The style classes, each with a suffix. -/
def suffixClasses (classes suffix : String) : Option String :=
  let suffixed := (words classes).map fun c => c ++ "-" ++ suffix
  if suffixed.isEmpty then none else some (" ".intercalate suffixed)

/-- The style classes for the scaffolding that Outlook sees. -/
def outlookClass (e : Element) : Option String :=
  (e.attr? "css-class").bind fun classes => suffixClasses classes "outlook"

/-- The policy for addresses. -/
def policy (o : Options) : Url.Policy :=
  .ofSchemes o.urlSchemes

/-- An attribute with an address, if it is allowed. -/
def url? (e : Element) (o : Options) (name : String) : Option String :=
  (e.attr? name).filter (policy o).accepts

/-- The report on an attribute with an address that is not allowed. -/
def urlReports (e : Element) (o : Options) (name : String) : List Diagnostic :=
  match e.attr? name with
  | some url => if (policy o).accepts url then [] else [.unsafeUrl e.tag name url]
  | none => []

/-- The content, cleaned if the options ask for it. -/
def contentHtml (e : Element) (o : Options) : String :=
  match o.sanitize with
  | some profile => Sanitize.sanitize profile e.content
  | none => e.content

/-- The properties of a style that are attributes of their own names. -/
def styleOf (e : Element) (names : List String) : Style :=
  names.map fun name => (name, e.attr? name)

/-- An attribute that is passed on. -/
def passed (e : Element) (name : String) : String × AttributeValue :=
  (name, .ofText? (e.attr? name))

end Element

end EmailMarkup.Body
