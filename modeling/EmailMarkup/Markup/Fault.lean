/-!
# Faults of markup

Reading stops at the first fault of a text.
-/

namespace EmailMarkup.Markup

/-- Why a text is not a markup document. -/
inductive Fault where
  | textBeforeRoot
  | textAfterRoot
  | elementAfterRoot (tag : String)
  | missingRoot
  | unterminatedDeclaration
  | unterminatedComment
  | unterminatedTag (tag : String)
  | unterminatedClosingTag (tag : String)
  | unterminatedValue (name tag : String)
  | missingTagName
  | unexpectedCharacter (tag : String)
  | strayClosingTag (tag : String)
  | mismatchedClosingTag (tag expected : String)
  | neverClosed (tag : String)
  /-- The outermost element is not the one that documents have. -/
  | wrongRoot (tag : String)
  deriving DecidableEq, Repr

/-- The text of a fault. -/
def Fault.message : Fault → String
  | .textBeforeRoot => "text before the root element"
  | .textAfterRoot => "text after the root element"
  | .elementAfterRoot tag => "<" ++ tag ++ "> after the root element"
  | .missingRoot => "missing root element"
  | .unterminatedDeclaration => "unterminated declaration"
  | .unterminatedComment => "unterminated comment"
  | .unterminatedTag tag => "unterminated tag <" ++ tag ++ ">"
  | .unterminatedClosingTag tag => "unterminated closing tag </" ++ tag ++ ">"
  | .unterminatedValue name tag =>
    "unterminated value for '" ++ name ++ "' in <" ++ tag ++ ">"
  | .missingTagName => "expected a tag name after '<'"
  | .unexpectedCharacter tag => "unexpected character in <" ++ tag ++ ">"
  | .strayClosingTag tag => "stray closing tag </" ++ tag ++ ">"
  | .mismatchedClosingTag tag expected =>
    "mismatched closing tag </" ++ tag ++ ">, expected </" ++ expected ++ ">"
  | .neverClosed tag => "<" ++ tag ++ "> is never closed"
  | .wrongRoot tag => "root element must be <mjml>, found <" ++ tag ++ ">"

end EmailMarkup.Markup
