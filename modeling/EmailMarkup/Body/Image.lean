import EmailMarkup.Body.Fragment
import EmailMarkup.Body.Notes

/-!
# Images

An image is never wider than the room it has. It may be a link, and it may be told to fill the width
of small screens, for which there is a style sheet of its own.
-/

namespace EmailMarkup.Body.Image

open EmailMarkup.Layout EmailMarkup.Number

/-- The width one pixel below the breakpoint, to be added up. The column classes begin at the
breakpoint itself. -/
def belowBreakpoint (breakpoint : String) : Addends :=
  { first := (leadingInteger? breakpoint).getD 480, second := -1 }

/-- The style sheet for images that fill the width of screens narrower than the breakpoint. -/
def sheet (breakpoint : String) : String :=
  "@media only screen and (max-width:" ++ integerText (belowBreakpoint breakpoint).sum ++
    "px) \x7b\n" ++
    "  table.mj-full-width-mobile \x7b width: 100% !important; \x7d\n" ++
    "  td.mj-full-width-mobile \x7b width: auto !important; \x7d\n\x7d"

/-- Whether the image fills its column. -/
def isFullWidth (e : Element) : Bool :=
  e.attr? "full-width" == some "full-width"

/-- Whether the image fills the width of small screens. -/
def isFluid (e : Element) : Bool :=
  e.attr? "fluid-on-mobile" == some "true"

/-- The width of the image: the one asked for, or less if there is less room. -/
def contentWidth (width : Float) (e : Element) : Float :=
  let inner := (e.box width).inner
  match (e.attr? "width").bind leadingInteger? with
  -- A width in another unit than pixels counts by its number alone.
  | some asked => lesser inner (Float.ofInt asked)
  | none => inner

/-- The styles of an image in a container of a width. -/
def slots (width : Float) (e : Element) : Slots :=
  let full := isFullWidth e
  let whenFull (value : String) : Option String := if full then some value else none
  let unlessFull (value : String) : Option String := if full then none else some value
  let asked := pixels (contentWidth width e)
  { entries := [
      ("img",
        e.styleOf ["border", "border-left", "border-right", "border-top", "border-bottom",
          "border-radius"] ++
        [("display", some "block"), ("outline", some "none"), ("text-decoration", some "none")] ++
        e.styleOf ["height", "max-height"] ++
        [("min-width", whenFull "100%"), ("width", some "100%"), ("max-width", whenFull "100%")] ++
        e.styleOf ["font-size"]),
      ("td", [("width", unlessFull asked)]),
      ("table", [("min-width", whenFull "100%"), ("max-width", whenFull "100%"),
        ("width", whenFull asked), ("border-collapse", some "collapse"),
        ("border-spacing", some "0px")])] }

/-- The height as an attribute: a number, or left to the browser. -/
def heightText (value : String) : String :=
  if value = "auto" then value else integerText (amount value)

/-- The image itself. An address that is not allowed is left empty. -/
def picture (o : Options) (width : Float) (e : Element) : Fragment :=
  .single "img" (written (slots width e) [
    -- The text for readers who see no image is always there, if only as an empty one.
    ("alt", .text ((e.attributes.get? "alt").getD "")),
    ("src", .ofText? ((e.attr? "src").map (Element.policy o).clean)),
    e.passed "srcset", e.passed "sizes", ("style", .slot "img"), e.passed "title",
    ("width", .ofFloat (contentWidth width e)),
    ("height", .ofText? ((e.attr? "height").map heightText)), e.passed "usemap"])

/-- The image with its link, if it has one. -/
def linked (o : Options) (width : Float) (e : Element) : List Fragment :=
  match e.url? o "href" with
  | some href => Fragment.element "a" (written .none [("href", .text href), e.passed "target",
      e.passed "rel", e.passed "name", e.passed "title"]) [picture o width e]
  | none => [picture o width e]

/-- Draws an image. -/
def draw (o : Options) (width : Float) (e : Element) : List Fragment :=
  let fluid : String × AttributeValue :=
    ("class", if isFluid e then .text "mj-full-width-mobile" else .absent)
  let s := slots width e
  Fragment.table
    (written s [("border", .text "0"), ("cellpadding", .text "0"), ("cellspacing", .text "0"),
      ("role", .text "presentation"), ("style", .slot "table"), fluid])
    (written s [("style", .slot "td"), fluid])
    (linked o width e)

/-- Notes on an image. -/
def notes (o : Options) (width : Float) (e : Element) : Notes :=
  let box := e.box width
  { reports :=
      (if box.overflows then [.overflow e.tag box.remaining e.line] else []) ++
        e.urlReports o "src" ++ e.urlReports o "href" }

end EmailMarkup.Body.Image
