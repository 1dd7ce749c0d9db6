import EmailMarkup.Schema.Basic

/-!
# Component specifications

What a tag stands for: what is done with its elements, which attributes they take, and how their
content is read.
-/

namespace EmailMarkup.Component

open EmailMarkup.Markup EmailMarkup.Schema

/-- What an element of the head does. -/
inductive HeadKind where
  | title
  | preview
  | breakpoint
  | font
  | style
  | attributes
  | htmlAttributes
  deriving DecidableEq, Repr

/-- How an element of the body is drawn. -/
inductive BodyKind where
  /-- The body itself. -/
  | body
  /-- A row of columns. -/
  | row
  | column
  | text
  | image
  | button
  /-- Whatever stands in it. -/
  | raw
  deriving DecidableEq, Repr

/-- What is done with an element. -/
inductive Kind where
  /-- Nothing: it belongs to the document's frame, or its parent looks after it. -/
  | structural
  | head (kind : HeadKind)
  | body (kind : BodyKind)
  deriving DecidableEq, Repr

/-- Whether elements of a kind belong into the head. -/
def Kind.isHead : Kind → Bool
  | .head _ => true
  | _ => false

/-- Whether elements of a kind belong into the body. -/
def Kind.isBody : Kind → Bool
  | .body _ => true
  | _ => false

/-- A component. -/
structure Spec where
  tag : String
  kind : Kind := .structural
  types : OrderedMap ValueType := ∅
  defaults : Attributes := ∅
  /-- What stands in an element is text, even if it looks like tags. -/
  ending : Bool := false
  /-- The element goes into its parent as it is, without a cell around it. -/
  raw : Bool := false
  deriving Repr

namespace Spec

/-- The attributes that a component takes. -/
def schema (s : Spec) : Schema :=
  { tag := s.tag, types := s.types, defaults := s.defaults }

/-- Whether what stands in an element is kept as text. -/
def captures (s : Spec) : Bool :=
  s.ending || s.raw

end Spec

end EmailMarkup.Component
