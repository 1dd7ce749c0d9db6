import EmailMarkup.Body.Fragment
import EmailMarkup.Body.Notes

/-!
# Rows

A row of columns. Outlook gets a table of a fixed width with one cell for each column, and everyone
else a centred box of a greatest width in which the columns flow. A row may have a background, which
a full-width row spreads over the whole window.
-/

namespace EmailMarkup.Body.Row

open EmailMarkup.Layout EmailMarkup.Number EmailMarkup.Text

/-- Whether the background goes over the whole window. -/
def isFullWidth (e : Element) : Bool :=
  e.attr? "full-width" == some "full-width"

/-- The position of the background, horizontal before vertical. Keywords may come in either
order. -/
def backgroundPosition (e : Element) : String :=
  let position := (e.attr? "background-position").getD "top center"
  let isVertical (t : String) : Bool := t == "top" || t == "bottom"
  let isHorizontal (t : String) : Bool := t == "left" || t == "right"
  match words position with
  -- A single keyword leaves the other direction in the middle.
  | [one] => if isVertical one then "center " ++ one else one ++ " center"
  | [a, b] => if isVertical a || isHorizontal b then b ++ " " ++ a else a ++ " " ++ b
  | _ => position

/-- The address of the background image, if it is allowed. -/
def backgroundUrl? (o : Options) (e : Element) : Option String :=
  e.url? o "background-url"

/-- The style of the background. -/
def background (o : Options) (e : Element) : Style :=
  let color? := e.attr? "background-color"
  match backgroundUrl? o e with
  | some url =>
    let size := (e.attr? "background-size").getD "auto"
    let tiling := (e.attr? "background-repeat").getD "repeat"
    [("background", some (" ".intercalate (color?.toList ++
        ["url('" ++ url ++ "')", backgroundPosition e, "/ " ++ size, tiling]))),
      ("background-position", some (backgroundPosition e)), ("background-repeat", some tiling),
      ("background-size", some size)]
  | none => [("background", color?), ("background-color", color?)]

/-- The styles of a row of a width. -/
def slots (o : Options) (width : Float) (e : Element) : Slots :=
  -- On a full-width row only the outermost table has the background.
  let outer := if isFullWidth e then background o e else []
  let inner := if isFullWidth e then [] else background o e
  let radius := ("border-radius", e.attr? "border-radius")
  { entries := [
      ("tableFullwidth", outer ++ [("width", some "100%"), radius]),
      ("table", inner ++ [("width", some "100%"), radius]),
      ("td",
        e.styleOf ["border", "border-bottom", "border-left", "border-right", "border-top"] ++
        [("direction", some (Keyword.name (e.keyword "direction" Direction.leftToRight))),
          ("font-size", some "0px")] ++
        e.styleOf ["padding", "padding-bottom", "padding-left", "padding-right", "padding-top",
          "text-align"]),
      ("div", inner ++ [("margin", some "0px auto"), radius, ("max-width", some (pixels width))]),
      ("innerDiv", [("line-height", some "0"), ("font-size", some "0")])] }

/-- The attributes of a table without borders and spacing. -/
def plainTable : List (String × AttributeValue) :=
  [("border", .text "0"), ("cellpadding", .text "0"), ("cellspacing", .text "0")]

/-- Opens the table of a fixed width that Outlook sees. -/
def before (width : Float) (e : Element) : Fragment :=
  let table := ("align", .text "center") :: plainTable ++
    [("class", .ofText? e.outlookClass), ("role", .text "presentation"),
      ("style", .style [("width", some (pixels width))]), ("width", .ofInt (toWord width)),
      ("bgcolor", .ofText? (e.attr? "background-color"))]
  .outlook [.opening "table" (written .none table), .bare "tr",
    .opening "td" [("style", some "line-height:0px;font-size:0px;mso-line-height-rule:exactly;")]]

/-- Closes that table. -/
def after : Fragment :=
  .outlook [.closing "td", .closing "tr", .closing "table"]

/-- The attributes of the cell around a child. -/
def cell (c : Child) : List (String × Option String) :=
  written c.slots [c.element.passed "align", ("class", .ofText? c.element.outlookClass),
    ("style", .slot "tdOutlook")]

/-- Draws a child in a cell that Outlook sees. -/
def drawChild (c : Child) : List Fragment :=
  if c.element.raw then c.fragments
  else .outlook [.opening "td" (cell c)] :: c.fragments ++ [.outlook [.closing "td"]]

/-- The attributes of the table for Outlook that the children are in. -/
def outlookTable : List (String × Option String) :=
  [("role", some "presentation"), ("border", some "0"), ("cellpadding", some "0"),
    ("cellspacing", some "0")]

/-- The children in a row that Outlook sees. -/
def drawChildren (children : List Child) : List Fragment :=
  .outlook [.opening "table" outlookTable] :: .outlook [.bare "tr"] ::
    children.flatMap drawChild ++ [.outlook [.closing "tr"], .outlook [.closing "table"]]

/-- The box with the children. -/
def inner (o : Options) (width : Float) (e : Element) (children : List Child) : List Fragment :=
  let s := slots o width e
  let full := isFullWidth e
  let url? := backgroundUrl? o e
  let table := Fragment.table
    (written s (("align", .text "center") ::
      ("background", if full then .absent else .ofText? url?) :: plainTable ++
      [("role", .text "presentation"), ("style", .slot "table")]))
    (written s [("style", .slot "td")])
    (drawChildren children)
  Fragment.element "div"
    (written s [("class", if full then .absent else .ofText? (e.attr? "css-class")),
      ("style", .slot "div")])
    -- Over an image the line height is set in a box of its own.
    (if url?.isSome then Fragment.element "div" (written s [("style", .slot "innerDiv")]) table
      else table)

/-- Draws a row. -/
def draw (o : Options) (width : Float) (e : Element) (children : List Child) : List Fragment :=
  let content := before width e :: inner o width e children ++ [after]
  if isFullWidth e then
    Fragment.table
      (written (slots o width e) (("align", .text "center") ::
        ("class", .ofText? (e.attr? "css-class")) ::
        ("background", .ofText? (backgroundUrl? o e)) :: plainTable ++
        [("role", .text "presentation"), ("style", .slot "tableFullwidth")]))
      [] content
  else content

/-- The width for the children. -/
def childWidth (width : Float) (e : Element) : Float :=
  (e.box width).inner

/-- Notes on a row. -/
def notes (o : Options) (width : Float) (e : Element) : Notes :=
  let box := e.box width
  { reports :=
      (if box.overflows then [.overflow e.tag box.remaining e.line] else []) ++
        e.urlReports o "background-url" }

end EmailMarkup.Body.Row
