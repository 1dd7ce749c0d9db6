import EmailMarkup.Body.Fragment

/-!
# Text blocks

The content is drawn as it is written, or cleaned if the options ask for it. A block with a height
gets a cell of that height in Outlook.
-/

namespace EmailMarkup.Body.Text

open EmailMarkup.Layout

/-- The styles of a text block. -/
def slots (e : Element) : Slots where
  entries := [("text",
    e.styleOf ["font-family", "font-size", "font-style", "font-weight", "letter-spacing",
      "line-height"] ++
    [("text-align", some (Keyword.name (e.keyword "align" Align.left)))] ++
    e.styleOf ["text-decoration", "text-transform", "color", "height"])]

/-- The cell that Outlook needs for a height. -/
def heightCell (height : String) : String :=
  "<td height=\"" ++ height ++ "\" style=\"vertical-align:top;height:" ++ height ++ ";\">"

/-- The attributes of the table around that cell. -/
def heightTable : List (String × Option String) :=
  [("role", some "presentation"), ("border", some "0"), ("cellpadding", some "0"),
    ("cellspacing", some "0")]

/-- Draws a text block. -/
def draw (o : Options) (e : Element) : List Fragment :=
  let block := Fragment.element "div" (written (slots e) [("style", .slot "text")])
    [.verbatim (e.contentHtml o)]
  match e.attr? "height" with
  | none => block
  | some height =>
    -- The cell is opened before the block and closed after it, in comments of their own.
    .outlook [.opening "table" heightTable, .bare "tr", .verbatim (heightCell height)] ::
      block ++ [.outlook [.closing "td", .closing "tr", .closing "table"]]

end EmailMarkup.Body.Text
