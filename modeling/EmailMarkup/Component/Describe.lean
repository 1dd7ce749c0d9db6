import EmailMarkup.Component.Spec
import EmailMarkup.Text.Quoted

/-!
# Describing components

One line about a component, for reports on what a registry holds.
-/

namespace EmailMarkup.Component

open EmailMarkup.Text

/-- The word for a kind. -/
def Kind.name : Kind → String
  | .structural => "structural"
  | .head _ => "head"
  | .body _ => "body"

/-- A truth value as a word. -/
def truthWord (b : Bool) : String :=
  if b then "true" else "false"

/-- A component on one line: its tag, its kind, and how its content is read. -/
def Spec.describe (s : Spec) : String :=
  "ComponentSpec \x7b tag_name: " ++ quoted s.tag ++ ", kind: " ++ quoted s.kind.name ++
    ", ending_tag: " ++ truthWord s.ending ++ ", raw_element: " ++ truthWord s.raw ++ " \x7d"

end EmailMarkup.Component
