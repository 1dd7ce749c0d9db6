import EmailMarkup.Number.Shortest
import EmailMarkup.Schema.ValueType
import EmailMarkup.Selector.Reader

/-!
# Diagnostics

What went wrong without keeping the document from being compiled. Each diagnostic names the tag that
it is about.
-/

namespace EmailMarkup

/-- A report on something that was left out, put right or let through. -/
inductive Diagnostic where
  /-- An attribute that the component does not have. -/
  | undeclared (tag name : String) (line : Nat)
  /-- A value that the type of its attribute does not take. -/
  | invalidValue (tag name value : String) (expected : Schema.Expectation)
  /-- Such a value set in the head, under the given heading. -/
  | invalidInherited (tag source name value : String) (expected : Schema.Expectation)
  /-- Paddings and borders leave a negative width. -/
  | overflow (tag : String) (width : Float) (line : Nat)
  /-- A selector of an inlined style sheet. -/
  | sheetSelector (fault : Selector.Fault)
  /-- A selector that attributes were to be set for. -/
  | attributeSelector (fault : Selector.Fault)
  | unknownElement (tag : String) (line : Nat)
  | notInBody (tag : String) (line : Nat)
  | notInDocument (tag : String) (line : Nat)
  | unknownHeadElement (tag : String)
  | notInHead (tag : String) (line : Nat)
  | missingBody
  /-- A link or an image whose address is not allowed. -/
  | unsafeUrl (tag name url : String)
  | unsafeFont (name url : String)
  deriving Repr

namespace Diagnostic

/-- The kinds of diagnostics. -/
inductive Kind where
  | unknownAttribute
  | invalidAttribute
  | negativeWidth
  | invalidSelector
  | misplacedElement
  | missingElement
  | unsafeUrl
  deriving DecidableEq, Repr

/-- The name of a kind. -/
def Kind.name : Kind → String
  | .unknownAttribute => "unknown-attribute"
  | .invalidAttribute => "invalid-attribute"
  | .negativeWidth => "negative-width"
  | .invalidSelector => "invalid-selector"
  | .misplacedElement => "misplaced-element"
  | .missingElement => "missing-element"
  | .unsafeUrl => "unsafe-url"

/-- The kind of a diagnostic. -/
def kind : Diagnostic → Kind
  | .undeclared .. => .unknownAttribute
  | .invalidValue .. => .invalidAttribute
  | .invalidInherited .. => .invalidAttribute
  | .overflow .. => .negativeWidth
  | .sheetSelector _ => .invalidSelector
  | .attributeSelector _ => .invalidSelector
  | .unknownElement .. => .misplacedElement
  | .notInBody .. => .misplacedElement
  | .notInDocument .. => .misplacedElement
  | .unknownHeadElement _ => .misplacedElement
  | .notInHead .. => .misplacedElement
  | .missingBody => .missingElement
  | .unsafeUrl .. => .unsafeUrl
  | .unsafeFont .. => .unsafeUrl

/-- The tag that a diagnostic is about. -/
def tag : Diagnostic → String
  | .undeclared tag .. => tag
  | .invalidValue tag .. => tag
  | .invalidInherited tag .. => tag
  | .overflow tag .. => tag
  | .sheetSelector _ => "mj-style"
  | .attributeSelector _ => "mj-selector"
  | .unknownElement tag _ => tag
  | .notInBody tag _ => tag
  | .notInDocument tag _ => tag
  | .unknownHeadElement tag => tag
  | .notInHead tag _ => tag
  | .missingBody => "mj-body"
  | .unsafeUrl tag .. => tag
  | .unsafeFont .. => "mj-font"

/-- A line as it ends a message. -/
def onLine (line : Nat) : String :=
  " (line " ++ Number.naturalText line ++ ")"

/-- What a diagnostic says. -/
def message : Diagnostic → String
  | .undeclared _ name line => "attribute '" ++ name ++ "' is not declared" ++ onLine line
  | .invalidValue _ name value expected =>
    "'" ++ value ++ "' is not a valid '" ++ name ++ "', expected " ++ expected.text
  | .invalidInherited _ source name value expected =>
    "'" ++ value ++ "' from " ++ source ++ " is not a valid '" ++ name ++ "', expected " ++
      expected.text
  | .overflow _ width line =>
    "paddings and borders exceed the available width (" ++ Number.text width ++
      "px), clamped to 0" ++ onLine line
  | .sheetSelector fault => fault.message
  | .attributeSelector fault => fault.message
  | .unknownElement _ line => "unknown element at line " ++ Number.naturalText line
  | .notInBody _ line => "cannot be used inside the body" ++ onLine line
  | .notInDocument _ line => "only mj-head and mj-body may appear in mjml" ++ onLine line
  | .unknownHeadElement _ => "unknown head element"
  | .notInHead _ line => "cannot be used inside mj-head" ++ onLine line
  | .missingBody => "document has no mj-body, rendering an empty one"
  | .unsafeUrl _ name url => "'" ++ url ++ "' in '" ++ name ++ "' is not an allowed URL"
  | .unsafeFont name url => "'" ++ url ++ "' for font '" ++ name ++ "' is not an allowed URL"

/-- A diagnostic with its tag, as it is told to the user. -/
def text (d : Diagnostic) : String :=
  "<" ++ d.tag ++ ">: " ++ d.message

end Diagnostic

end EmailMarkup
