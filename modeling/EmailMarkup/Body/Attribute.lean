import EmailMarkup.Html.Entity
import EmailMarkup.Number.Shortest

/-!
# Attributes of what is drawn

Components draw themselves with HTML tags, whose attributes are mostly optional and whose styles
have names, so that a parent can ask a child for one of its styles. `written` decides which
attributes are there, and `printAttributes` writes them.
-/

namespace EmailMarkup.Body

/-- Properties with their values, in order. A property without a value, or with an empty one, is
left out. -/
abbrev Style := List (String × Option String)

/-- Writes a style as declarations. -/
def Style.print (s : Style) : String :=
  String.join (s.map fun (property, value?) => match value? with
    -- An empty value would make a declaration that no program accepts.
    | some value => if value.isEmpty then "" else property ++ ":" ++ value ++ ";"
    | none => "")

/-- The styles of a component by their names. -/
structure Slots where
  entries : List (String × Style)
  deriving DecidableEq, Repr

/-- No styles. -/
def Slots.none : Slots :=
  { entries := [] }

/-- The first style of a name. -/
def Slots.get? (s : Slots) (name : String) : Option Style :=
  (s.entries.find? fun e => e.1 == name).map Prod.snd

/-- What an attribute is given. -/
inductive AttributeValue where
  /-- The attribute is not there. -/
  | absent
  /-- The attribute is there without a value, or not at all. -/
  | flag (on : Bool)
  | text (value : String)
  /-- One of the component's styles. -/
  | slot (name : String)
  | style (style : Style)
  deriving DecidableEq, Repr

namespace AttributeValue

/-- A text that may be missing. -/
def ofText? : Option String → AttributeValue
  | some value => .text value
  | none => .absent

/-- A number. -/
def ofFloat (x : Float) : AttributeValue :=
  .text (Number.text x)

/-- An integer. -/
def ofInt (n : Int) : AttributeValue :=
  .text (Number.integerText n)

/-- A style as a value. An empty one is left out. -/
def styled (s : Style) : Option (Option String) :=
  if s.print.isEmpty then none else some (some s.print)

/-- The value that is written: nothing if the attribute is left out, and `some none` if it is there
without a value. -/
def written (slots : Slots) : AttributeValue → Option (Option String)
  | .absent => none
  | .flag on => if on then some none else none
  | .text value => some (some value)
  -- A name that the component has no style for leaves the attribute out.
  | .slot name => (slots.get? name).bind styled
  | .style s => styled s

end AttributeValue

/-- The attributes that are there, with their values. -/
def written (slots : Slots) (attributes : List (String × AttributeValue)) :
    List (String × Option String) :=
  attributes.filterMap fun (name, value) => (value.written slots).map fun v => (name, v)

/-- Writes one attribute. -/
def printAttribute (a : String × Option String) : String :=
  match a.2 with
  | some value => " " ++ a.1 ++ "=\"" ++ Html.escapeAttribute value ++ "\""
  | none => " " ++ a.1

/-- Writes attributes, each after a space. -/
def printAttributes (attributes : List (String × Option String)) : String :=
  String.join (attributes.map printAttribute)

end EmailMarkup.Body
