import EmailMarkup.Markup.Fault
import EmailMarkup.Markup.Node
import EmailMarkup.Number.Shortest
import EmailMarkup.Schema.ValueType

/-!
# Failures

What keeps markup from being compiled at all. Everything else that is wrong is reported beside the
compiled document, as a `Diagnostic`.
-/

namespace EmailMarkup

/-- Why there is no compiled document. -/
inductive Failure where
  | malformed (position : Markup.Position) (fault : Markup.Fault)
  | unknownTag (tag : String) (position : Markup.Position)
  | invalidValue (tag name value : String) (expected : Schema.Expectation)
  /-- Reading broke off where a text was to be cut inside a character. -/
  | brokenCharacter
  deriving DecidableEq, Repr

/-- A position as it is told to the user. -/
def Markup.Position.text (p : Markup.Position) : String :=
  "line " ++ Number.naturalText p.line ++ ", column " ++ Number.naturalText p.column

/-- The text of a failure. -/
def Failure.message : Failure → String
  | .malformed position fault => "Parse error at " ++ position.text ++ ": " ++ fault.message
  | .unknownTag tag position => "Unknown tag <" ++ tag ++ "> at " ++ position.text
  | .invalidValue tag name value expected =>
    "Invalid value '" ++ value ++ "' for attribute '" ++ name ++ "' on <" ++ tag ++
      ">. Expected " ++ expected.text
  | .brokenCharacter => "A character was to be cut in two"

end EmailMarkup
