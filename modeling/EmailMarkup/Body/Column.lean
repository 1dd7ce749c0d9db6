import EmailMarkup.Body.Fragment
import EmailMarkup.Body.Notes

/-!
# Columns

A column is a stack of elements beside others in a row. Its width, of its own or an equal share of
the row, goes into a class with a media query, so that columns are stacked on small screens. A
column with a padding gets a gutter: a table around the one that its children are in.
-/

namespace EmailMarkup.Body.Column

open EmailMarkup.Layout EmailMarkup.Number

/-- The width that is declared, or an equal share of the row. -/
def declaredWidth (e : Element) : Width :=
  match e.attr? "width" with
  | some width => widthOf width false
  | none => { value := 100 / Float.ofNat e.siblings.sharing, unit := "%" }

/-- A width in pixels, in a row of a width. -/
def inPixels (row : Float) (w : Width) : Float :=
  if w.isPercent then row * w.value / 100 else w.value

/-- A number as it is part of a class name, with a hyphen for its point. -/
def classNumber (x : Float) : String :=
  let cs := (Number.text x).toList
  match Text.splitAtMark? ['.'] cs with
  | some (whole, fraction) => String.ofList (whole ++ '-' :: fraction)
  | none => String.ofList cs

/-- The class for a width. -/
def className (w : Width) : String :=
  (if w.isPercent then "mj-column-per-" else "mj-column-px-") ++ classNumber w.value

/-- Whether the column has a padding. -/
def hasGutter (e : Element) : Bool :=
  ["padding", "padding-bottom", "padding-left", "padding-right", "padding-top"].any e.has

/-- What paddings and borders leave of the column in a row of a width. -/
def remaining (row : Float) (e : Element) : Float :=
  let box := e.box row
  let around := box.paddings + box.borders + Float.ofInt (e.sideBorder "inner-border").sum
  let width := match e.attr? "width" with
    | some width => widthOf width false
    -- A share of the row in whole pixels, where the class has it as a percentage.
    | none => { value := truncate (row / Float.ofNat e.siblings.sharing), unit := "px" }
  inPixels row width - around

/-- The width for the children. -/
def childWidth (row : Float) (e : Element) : Float :=
  atLeastZero (remaining row e)

/-- Where the column goes in its row. -/
def verticalAlign (e : Element) : String :=
  Keyword.name (e.keyword "vertical-align" VerticalAlign.top)

/-- The style of the column's outermost table. -/
def tableStyle (e : Element) : Style :=
  e.styleOf ["background-color", "border", "border-bottom", "border-left", "border-radius",
    "border-right", "border-top"] ++
  [("vertical-align", some (verticalAlign e))]

/-- The style of the table in the gutter. -/
def innerStyle (e : Element) : Style :=
  ["background-color", "border", "border-bottom", "border-left", "border-radius", "border-right",
    "border-top"].map fun name => (name, e.attr? ("inner-" ++ name))

/-- The styles of a column in a row of a width. -/
def slots (row : Float) (e : Element) : Slots where
  entries := [
    ("div", [("font-size", some "0px"), ("text-align", some "left"),
      ("direction", some (Keyword.name (e.keyword "direction" Direction.leftToRight))),
      ("display", some "inline-block"), ("vertical-align", some (verticalAlign e)),
      ("width", some "100%")]),
    ("table", if hasGutter e then innerStyle e else tableStyle e),
    ("tdOutlook", [("vertical-align", some (verticalAlign e)),
      ("width", some (pixels (inPixels row (declaredWidth e))))]),
    ("gutter", tableStyle e ++ e.styleOf ["padding", "padding-top", "padding-right",
      "padding-bottom", "padding-left"])]

/-- The attributes of the cell around a child. -/
def cell (c : Element) : List (String × Option String) :=
  written .none [c.passed "align", c.passed "vertical-align",
    ("class", .ofText? (c.attr? "css-class")),
    ("style", .style ([("background", c.attr? "container-background-color"),
      ("font-size", some "0px")] ++
      c.styleOf ["padding", "padding-top", "padding-right", "padding-bottom", "padding-left"] ++
      [("word-break", some "break-word")]))]

/-- Draws a child in a row of its own. -/
def drawChild (c : Child) : List Fragment :=
  if c.element.raw then c.fragments
  else Fragment.element "tr" [] (Fragment.element "td" (cell c.element) c.fragments)

/-- The table that the children are in. -/
def inner (row : Float) (e : Element) (children : List Child) : List Fragment :=
  Fragment.element "table"
    (written (slots row e) [("border", .text "0"), ("cellpadding", .text "0"),
      ("cellspacing", .text "0"), ("role", .text "presentation"), ("style", .slot "table"),
      ("width", .text "100%")])
    (Fragment.element "tbody" [] (children.flatMap drawChild))

/-- The gutter around that table. -/
def gutter (row : Float) (e : Element) (content : List Fragment) : List Fragment :=
  Fragment.table
    (written .none [("border", .text "0"), ("cellpadding", .text "0"), ("cellspacing", .text "0"),
      ("role", .text "presentation"), ("width", .text "100%")])
    (written (slots row e) [("style", .slot "gutter")])
    content

/-- The classes of a column. -/
def classes (e : Element) : String :=
  className (declaredWidth e) ++ " mj-outlook-group-fix" ++
    match e.attr? "css-class" with
    | some more => " " ++ more
    | none => ""

/-- Draws a column. -/
def draw (row : Float) (e : Element) (children : List Child) : List Fragment :=
  Fragment.element "div"
    (written (slots row e) [("class", .text (classes e)), ("style", .slot "div")])
    -- Border and background belong to the gutter if there is one, and else to the table.
    (if hasGutter e then gutter row e (inner row e children) else inner row e children)

/-- Notes on a column. -/
def notes (row : Float) (e : Element) : Notes :=
  let left := remaining row e
  { reports := if left < 0 then [.overflow e.tag left e.line] else []
    columns := [(className (declaredWidth e), (declaredWidth e).text)] }

end EmailMarkup.Body.Column
