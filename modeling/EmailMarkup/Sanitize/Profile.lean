import EmailMarkup.Text.Search
import EmailMarkup.Url.Policy

/-!
# What a sanitised text may hold

A profile is an allow-list of elements and attributes. The three profiles are steps of one ladder:
each adds a tier to the one before. Names are compared in lower case.
-/

namespace EmailMarkup.Sanitize

open EmailMarkup.Text

/-- How much markup survives. -/
inductive Profile where
  /-- Formatting, headings, lists and links. -/
  | strict
  /-- Tables, images and the attributes of presentation as well. -/
  | standard
  /-- Containers, media and the attributes of layout as well. -/
  | permissive
  deriving DecidableEq, Repr, Inhabited

/-- The name of a profile in options. -/
def Profile.name : Profile → String
  | .strict => "strict"
  | .standard => "default"
  | .permissive => "permissive"

/-- The profile of a name. -/
def Profile.ofName? (name : String) : Option Profile :=
  [Profile.strict, .standard, .permissive].find? fun p => p.name == name

/-- Elements that go together with everything in them. -/
def droppedElements : List String :=
  ["script", "style", "iframe", "frame", "frameset", "object", "embed", "applet", "noscript",
    "template"]

/-- Elements of every profile. -/
def strictElements : List String :=
  ["a", "b", "strong", "i", "em", "u", "s", "strike", "sub", "sup", "small", "br", "p", "h1", "h2",
    "h3", "h4", "h5", "h6", "ul", "ol", "li", "blockquote", "code", "pre", "hr"]

/-- Elements of the second tier. -/
def standardElements : List String :=
  ["table", "thead", "tbody", "tfoot", "tr", "th", "td", "img"]

/-- Elements of the third tier. -/
def permissiveElements : List String :=
  ["div", "span", "center", "font", "caption", "col", "colgroup", "figure", "figcaption", "picture",
    "source", "video", "audio"]

/-- Attributes of every profile. -/
def strictAttributes : List String :=
  ["href", "title", "target", "rel", "name"]

/-- Attributes of the second tier. -/
def standardAttributes : List String :=
  ["style", "class", "align", "valign", "width", "height", "alt", "src", "border", "cellpadding",
    "cellspacing", "bgcolor", "colspan", "rowspan", "dir", "lang"]

/-- Attributes of the third tier. -/
def permissiveAttributes : List String :=
  ["id", "role", "color", "face", "size", "background", "hspace", "vspace", "nowrap", "span",
    "poster", "controls", "srcset", "type", "media"]

/-- The elements a profile keeps. -/
def Profile.elements : Profile → List String
  | .strict => strictElements
  | .standard => strictElements ++ standardElements
  | .permissive => strictElements ++ standardElements ++ permissiveElements

/-- The attributes a profile keeps. -/
def Profile.attributes : Profile → List String
  | .strict => strictAttributes
  | .standard => strictAttributes ++ standardAttributes
  | .permissive => strictAttributes ++ standardAttributes ++ permissiveAttributes

/-- Addresses that a link may have. -/
def linkPolicy : Url.Policy :=
  .ofSchemes ["https", "http", "mailto"]

/-- Addresses that pictures and media may come from. -/
def mediaPolicy : Url.Policy :=
  .ofSchemes ["https", "http"]

/-- The address of each candidate of a source set: the first word of each piece between commas. -/
def candidates (value : String) : List String :=
  (commaSeparated value).filterMap fun piece => (words piece).head?

/-- Whether a decoded value may stand in an attribute. Addresses have to pass the policy for their
kind, and a style may not run code. -/
def valueIsSafe (name value : String) : Bool :=
  if name == "href" || name == "background" then linkPolicy.accepts value
  else if name == "src" || name == "poster" then mediaPolicy.accepts value
  else if name == "srcset" then (candidates value).all mediaPolicy.accepts
  else if name == "style" then
    let style := lowerChars value.toList
    !occursIn "expression(".toList style && !occursIn "javascript:".toList style &&
      !occursIn "behavior:".toList style
  else true

/-- Whether a profile keeps an attribute, given its name in lower case. Event handlers never stay.
-/
def Profile.keepsAttribute (p : Profile) (name : String) : Bool :=
  !beginsWith "on".toList name.toList && p.attributes.contains name

end EmailMarkup.Sanitize
