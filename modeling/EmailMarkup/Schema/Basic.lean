import EmailMarkup.Markup.Node
import EmailMarkup.Schema.ValueType

/-!
# Schemas

The attributes that a component declares, with their types and defaults. Two attributes are
understood everywhere without being declared.
-/

namespace EmailMarkup

/-- The declared attributes of the component of a tag, and the values they have unless others are
given. -/
structure Schema where
  tag : String
  types : OrderedMap Schema.ValueType
  defaults : Markup.Attributes
  deriving Repr

namespace Schema

/-- Attributes of every component. -/
def universal : List String :=
  ["css-class", "mj-class"]

/-- What a schema says about a value for an attribute. -/
inductive Verdict where
  | valid
  | undeclared
  | invalid (expected : Expectation)
  deriving DecidableEq, Repr

/-- Checks a value for an attribute. -/
def check (s : Schema) (name value : String) : Verdict :=
  if universal.contains name then .valid
  else match s.types.get? name with
    -- Whether an undeclared attribute matters depends on where it was written.
    | none => .undeclared
    | some t => match t.objection? value with
      | none => .valid
      | some expected => .invalid expected

end Schema

end EmailMarkup
