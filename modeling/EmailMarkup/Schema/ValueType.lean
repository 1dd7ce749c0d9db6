import EmailMarkup.Text.Ascii
import EmailMarkup.Text.Blank
import EmailMarkup.Text.CodePoint
import EmailMarkup.Text.Search

/-!
# Types of attribute values

The attributes of a component are declared with types such as `enum(left,right)` or
`unit(px,%){1,4}`. Only integers, truth values and fixed choices are checked. Units and colours
are understood as far as possible where they are used, so any text passes for one.
-/

namespace EmailMarkup.Schema

open EmailMarkup.Text

/-- The type of an attribute. -/
inductive ValueType where
  | string
  | integer
  | boolean
  | color
  /-- A length in one of the units, or from `least` to `most` of them. -/
  | unit (units : List String) (negative : Bool) (least most : Nat)
  /-- One of the names. -/
  | choice (names : List String)
  deriving DecidableEq, Repr

/-- What a value that was refused should have been. -/
inductive Expectation where
  | integer
  | boolean
  | choice (names : List String)
  deriving DecidableEq, Repr

/-- The text of an expectation. -/
def Expectation.text : Expectation → String
  | .integer => "an integer"
  | .boolean => "'true' or 'false'"
  | .choice names => "one of: " ++ ", ".intercalate names

/-- The counts of a repeated unit, as in `{1,4}`. A count that is not a natural number of 64
bits is one. Nothing is written for a unit that comes once. -/
def readCounts? (cs : List Char) : Option (Nat × Nat) :=
  match cs with
  | [] => some (1, 1)
  | '\x7b' :: rest => do
    let (least, rest) ← splitAtMark? [','] rest
    let (most, rest) ← splitAtMark? ['\x7d'] rest
    let isCount (digits : List Char) := !digits.isEmpty && digits.all isDecimalDigit
    let count (digits : List Char) := (natural? (Nat.pow 2 64) digits).getD 1
    if rest.isEmpty && isCount least && isCount most then some (count least, count most) else none
  | _ => none

/-- The constructors that take a list in parentheses: whether they name a unit, and of which sign.
-/
inductive Former where
  | unit (negative : Bool)
  | choice
  deriving DecidableEq, Repr

/-- The words for them. -/
def Former.ofWord? (word : String) : Option Former :=
  if word = "unitWithNegative" then some (.unit true)
  else if word = "unit" then some (.unit false)
  else if word = "enum" then some .choice
  else none

/-- A type that takes a list in parentheses. -/
def readFormed? (cs : List Char) : Option ValueType := do
  let (word, rest) ← splitAtMark? ['('] cs
  let (list, rest) ← splitAtMark? [')'] rest
  let former ← Former.ofWord? (String.ofList word)
  -- A choice may have counts too, to no effect.
  let (least, most) ← readCounts? rest
  let names := ((splitWhere (· == ',') list).map trimChars).map String.ofList
  match former with
  | .unit negative => some (.unit names negative least most)
  | .choice => some (.choice names)

/-- Reads a type. Whatever is not understood stands for any text. -/
def ValueType.read (spec : String) : ValueType :=
  let spec := trim spec
  if spec = "string" then .string
  else if spec = "integer" then .integer
  else if spec = "boolean" then .boolean
  else if spec = "color" then .color
  else (readFormed? spec.toList).getD .string

/-- What a type expects instead of a value, and nothing if the value is good. -/
def ValueType.objection? (t : ValueType) (value : String) : Option Expectation :=
  match t with
  | .string | .color | .unit .. => none
  | .integer => if (word64? (trimChars value.toList)).isSome then none else some .integer
  | .boolean => if value = "true" ∨ value = "false" then none else some .boolean
  | .choice names => if names.contains value then none else some (.choice names)

end EmailMarkup.Schema
