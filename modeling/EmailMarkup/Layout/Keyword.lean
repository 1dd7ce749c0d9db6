/-!
# Alignments and directions

The attributes that take one of a few words. A word that is none of them is the concern of
validation; where the attribute is used, a default takes its place.
-/

namespace EmailMarkup.Layout

/-- A type whose values are named by words. -/
class Keyword (α : Type) where
  /-- All values, in the order in which they are listed to the user. -/
  all : List α
  /-- The word for a value. -/
  name : α → String

namespace Keyword

variable {α : Type} [Keyword α]

/-- The value that a word names. -/
def ofName? (word : String) : Option α :=
  all.find? fun a => name a == word

/-- The words for all values. -/
def names (α : Type) [Keyword α] : List String :=
  (all : List α).map name

end Keyword

/-- Where a text goes on its line. -/
inductive Align where
  | left
  | center
  | right
  | justify
  deriving DecidableEq, Repr

instance : Keyword Align where
  all := [.left, .center, .right, .justify]
  name
    | .left => "left"
    | .center => "center"
    | .right => "right"
    | .justify => "justify"

/-- Where a box goes in a row. -/
inductive VerticalAlign where
  | top
  | middle
  | bottom
  deriving DecidableEq, Repr

instance : Keyword VerticalAlign where
  all := [.top, .middle, .bottom]
  name
    | .top => "top"
    | .middle => "middle"
    | .bottom => "bottom"

/-- The direction in which text, and columns, run. -/
inductive Direction where
  | leftToRight
  | rightToLeft
  deriving DecidableEq, Repr

instance : Keyword Direction where
  all := [.leftToRight, .rightToLeft]
  name
    | .leftToRight => "ltr"
    | .rightToLeft => "rtl"

end EmailMarkup.Layout
