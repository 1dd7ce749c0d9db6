import EmailMarkup.Yaml.Quoting

/-!
# Writing YAML

Data is written in block style: two columns further in for what stands in a mapping, and sequences
in the column of their key.
-/

namespace EmailMarkup.Yaml

/-- Data to be written. -/
inductive Data where
  | text (value : String)
  | natural (value : Nat)
  | sequence (items : List Data)
  | mapping (entries : List (String × Data))
  deriving Repr, Inhabited

/-- The longest key, in bytes, that is written on the line of its value. -/
def longestSimpleKey : Nat := 128

/-- The margin of a line. -/
def margin (indent : Nat) : String :=
  String.ofList (spaces indent)

/-- Ends a line, unless it has been ended. -/
def endLine (s : String) : String :=
  if s.toList.getLast?.any isBreak then s else s ++ "\n"

/-- A key in a column, up to and including the colon. A long one, or one of several lines, needs a
mark. -/
def keyText (indent : Nat) (key : String) : String :=
  if key.utf8ByteSize ≤ longestSimpleKey && !key.toList.any isBreak then
    quote (indent + 2) true key ++ ":"
  else "? " ++ endLine (quote (indent + 2) false key) ++ margin indent ++ ":"

mutual

/-- What follows the colon of a key in a column. -/
def Data.afterKey (indent : Nat) : Data → String
  | .text value => endLine (" " ++ quote (indent + 2) false value)
  | .natural value => " " ++ Number.naturalText value ++ "\n"
  | .sequence [] => " []\n"
  -- The dashes of a sequence stand in the column of its key.
  | .sequence (item :: items) => "\n" ++ itemsText indent true (item :: items)
  | .mapping [] => " \x7b\x7d\n"
  | .mapping (entry :: entries) => "\n" ++ entriesText (indent + 2) true (entry :: entries)

/-- What follows the dash of an item in a column. -/
def Data.afterDash (indent : Nat) : Data → String
  | .text value => endLine (" " ++ quote (indent + 2) false value)
  | .natural value => " " ++ Number.naturalText value ++ "\n"
  | .sequence [] => " []\n"
  | .sequence (item :: items) => " " ++ itemsText (indent + 2) false (item :: items)
  | .mapping [] => " \x7b\x7d\n"
  -- The first entry stands on the line of the dash.
  | .mapping (entry :: entries) => " " ++ entriesText (indent + 2) false (entry :: entries)

/-- Items in a column. The first one may be on a line that has been begun. -/
def itemsText (indent : Nat) (fresh : Bool) : List Data → String
  | [] => ""
  | item :: items =>
    (if fresh then margin indent else "") ++ "-" ++ item.afterDash indent ++
      itemsText indent true items

/-- Entries in a column. The first one may be on a line that has been begun. -/
def entriesText (indent : Nat) (fresh : Bool) : List (String × Data) → String
  | [] => ""
  | (key, value) :: entries =>
    (if fresh then margin indent else "") ++ keyText indent key ++ value.afterKey indent ++
      entriesText indent true entries

end

/-- Writes a mapping as a document. -/
def writeMapping (entries : List (String × Data)) : String :=
  entriesText 0 true entries

end EmailMarkup.Yaml
