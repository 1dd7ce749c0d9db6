import EmailMarkup.Body.Fragment
import EmailMarkup.Body.Notes

/-!
# Buttons

A link drawn as a padded, rounded box. Without an address it is a paragraph that looks the same.
-/

namespace EmailMarkup.Body.Button

open EmailMarkup.Layout

/-- The width that is asked for, if it is in pixels. -/
def askedWidth? (e : Element) : Option Float :=
  ((e.attr? "width").map (widthOf · true)).bind fun asked =>
    -- A width in another unit is not known in pixels; the link is then as wide as its content.
    if asked.unit = "px" then some asked.value else none

/-- The width of the link itself: what paddings and borders leave of a width in pixels. -/
def linkWidth? (width : Float) (e : Element) : Option String :=
  (askedWidth? e).map fun asked =>
    let paddings := Float.ofInt (e.sidePadding "inner-padding").sum
    pixels (asked - paddings - (e.box width).borders)

/-- The styles of a button in a container of a width. -/
def slots (width : Float) (e : Element) : Slots where
  entries := [
    ("table", [("border-collapse", some "separate"), ("width", e.attr? "width"),
      ("line-height", some "100%")]),
    ("td",
      e.styleOf ["border", "border-bottom", "border-left", "border-radius", "border-right",
        "border-top"] ++
      [("cursor", some "auto"), ("font-style", e.attr? "font-style"), ("height", e.attr? "height"),
        ("mso-padding-alt", e.attr? "inner-padding"), ("text-align", e.attr? "text-align"),
        ("background", e.attr? "background-color")]),
    ("content",
      [("display", some "inline-block"), ("width", linkWidth? width e),
        ("background", e.attr? "background-color")] ++
      e.styleOf ["color", "font-family", "font-size", "font-style", "font-weight", "line-height",
        "letter-spacing"] ++
      [("margin", some "0")] ++ e.styleOf ["text-decoration", "text-transform"] ++
      [("padding", e.attr? "inner-padding"), ("mso-padding-alt", some "0px"),
        ("border-radius", e.attr? "border-radius")])]

/-- Draws a button. -/
def draw (o : Options) (width : Float) (e : Element) : List Fragment :=
  let s := slots width e
  let href? := e.url? o "href"
  -- The attribute takes colours only, while the style may say `none`.
  let background := (e.attr? "background-color").filter fun c => c != "none"
  let valign := Keyword.name (e.keyword "vertical-align" VerticalAlign.middle)
  Fragment.table
    (written s [("border", .text "0"), ("cellpadding", .text "0"), ("cellspacing", .text "0"),
      ("role", .text "presentation"), ("style", .slot "table")])
    (written s [("align", .text "center"), ("bgcolor", .ofText? background),
      ("role", .text "presentation"), ("style", .slot "td"), ("valign", .text valign)])
    (Fragment.element (if href?.isSome then "a" else "p")
      (written s [("href", .ofText? href?), e.passed "name", e.passed "rel", e.passed "title",
        ("style", .slot "content"),
        ("target", .ofText? (if href?.isSome then e.attr? "target" else none))])
      [.verbatim (e.contentHtml o)])

/-- Notes on a button. -/
def notes (o : Options) (e : Element) : Notes :=
  { reports := e.urlReports o "href" }

end EmailMarkup.Body.Button
