import EmailMarkup.Number.Numeral

/-!
# Layout values: edges, borders and widths

The three small languages of box values. A shorthand such as `10px 20px` gives one value to each
edge of a box, a border such as `1px solid red` has its width somewhere among its words, and a
width is a number with a unit. None of the readers fails: a value that makes no sense counts as
zero, and a width without a unit is in pixels.
-/

namespace EmailMarkup.Layout

open EmailMarkup.Text EmailMarkup.Number

/-- One edge of a box. -/
inductive Edge where
  | top
  | right
  | bottom
  | left
  deriving DecidableEq, Repr

/-- The name of an edge, as it ends the name of an attribute. -/
def Edge.name : Edge → String
  | .top => "top"
  | .right => "right"
  | .bottom => "bottom"
  | .left => "left"

/-- The integer at the start of a value, and zero without one. -/
def amount (value : String) : Int :=
  (leadingInteger? value).getD 0

/-- The value of one edge of a shorthand of up to four words. Two words give the vertical and the
horizontal edges, three add a bottom of its own, and words past the fourth are not looked at. -/
def edgeOf (value : String) (edge : Edge) : Int :=
  match words value with
  | [vertical, horizontal] =>
    match edge with
    | .top | .bottom => amount vertical
    | .left | .right => amount horizontal
  | [top, horizontal, bottom] =>
    match edge with
    | .top => amount top
    | .left | .right => amount horizontal
    | .bottom => amount bottom
  | top :: right :: bottom :: left :: _ =>
    match edge with
    | .top => amount top
    | .right => amount right
    | .bottom => amount bottom
    | .left => amount left
  -- One word is for all edges, and so is no word at all.
  | _ => amount value

/-- The first run of digits that stands at the start of a text or after a blank. `fresh` says
whether the text at hand stands there. -/
def freshDigits (fresh : Bool) : List Char → List Char
  | [] => []
  | c :: cs =>
    if fresh && isDecimalDigit c then c :: cs.takeWhile isDecimalDigit
    else freshDigits (isBlank c) cs

/-- The width in a border value, whichever word it is. -/
def borderWidth (value : String) : Int :=
  (word64? (freshDigits true value.toList)).getD 0

/-- A width: a number and its unit. -/
structure Width where
  value : Float
  unit : String

/-- Whether a width is a share of its container. -/
def Width.isPercent (w : Width) : Bool :=
  w.unit == "%"

/-- The text of a width. -/
def Width.text (w : Width) : String :=
  Number.text w.value ++ w.unit

/-- The unit of a width: what follows its last digit and the points and commas after that. -/
def unitOf (value : String) : String :=
  let tail := (value.toList.reverse.takeWhile fun c => !isDecimalDigit c).reverse
  String.ofList (tail.dropWhile fun c => c == '.' || c == ',')

/-- Reads a width. Percentages keep their fraction unless `whole` is set; every other unit counts
whole steps. -/
def widthOf (value : String) (whole : Bool) : Width :=
  let unit := unitOf value
  let number :=
    if unit == "%" && !whole then leadingFloat? value
    else (leadingInteger? value).map Float.ofInt
  { value := number.getD 0, unit := if unit.isEmpty then "px" else unit }

/-- A length in pixels. -/
def pixels (x : Float) : String :=
  Number.text x ++ "px"

end EmailMarkup.Layout
