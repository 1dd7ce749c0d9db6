import EmailMarkup.Markup.Node
import EmailMarkup.Sanitize.Profile

/-!
# Options of a compilation
-/

namespace EmailMarkup

/-- How strictly the attributes of elements are checked. -/
inductive Level where
  /-- A value of the wrong type ends the compilation. -/
  | strict
  /-- A value of the wrong type is reported and used. -/
  | soft
  /-- Nothing is checked. -/
  | skip
  deriving DecidableEq, Repr

namespace Level

/-- The name of a level. -/
def name : Level → String
  | .strict => "strict"
  | .soft => "soft"
  | .skip => "skip"

/-- The level of a name. -/
def ofName? (s : String) : Option Level :=
  [strict, soft, skip].find? fun l => l.name == s

end Level

/-- What can be chosen for a compilation. -/
structure Options where
  /-- Comments in the body are kept. -/
  keepComments : Bool := true
  level : Level := .strict
  /-- Web fonts by their names, besides the standard ones. -/
  fonts : OrderedMap String := ∅
  lang : String := "und"
  dir : String := "auto"
  /-- The schemes of addresses that are allowed. -/
  urlSchemes : List String := ["https", "http", "mailto", "tel"]
  /-- What the content of texts and buttons is cleaned with. -/
  sanitize : Option Sanitize.Profile := none
  /-- Blanks between tags are taken out of what only Outlook sees. -/
  minifyOutlook : Bool := true
  /-- The widths of columns are repeated for the web client of Outlook. -/
  forceOwaDesktop : Bool := false
  deriving Repr

namespace Options

/-- The web fonts that are always known. -/
def standardFonts : List (String × String) :=
  [("Open Sans", "https://fonts.googleapis.com/css?family=Open+Sans:300,400,500,700"),
    ("Droid Sans", "https://fonts.googleapis.com/css?family=Droid+Sans:300,400,500,700"),
    ("Lato", "https://fonts.googleapis.com/css?family=Lato:300,400,500,700"),
    ("Roboto", "https://fonts.googleapis.com/css?family=Roboto:300,400,500,700"),
    ("Ubuntu", "https://fonts.googleapis.com/css?family=Ubuntu:300,400,500,700")]

/-- All known web fonts: the chosen ones replace standard ones of their name. -/
def fontTable (o : Options) : OrderedMap String :=
  -- A chosen font of a standard name takes the place of that one; the others come after.
  (OrderedMap.ofList standardFonts).insertAll o.fonts.entries

end Options

end EmailMarkup
