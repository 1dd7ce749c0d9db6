import EmailMarkup.Text.Ascii
import EmailMarkup.Text.Blank

/-!
# Which addresses a message may carry

A policy names the URL schemes that may occur. Addresses without a scheme are relative and always
pass. Some schemes run code or reach the reader's own files; they never pass, whatever a policy
names. Blanks and control characters are left out before the scheme is looked for, since a mail
reader leaves them out too.

A scheme begins with a letter. An address whose first visible character is a slash, a dot, a hash or
a question mark therefore has none, and needs no rule of its own.
-/

namespace EmailMarkup.Url

open EmailMarkup.Text

/-- Schemes that no policy lets through. -/
def deniedSchemes : List String :=
  ["javascript", "vbscript", "data", "file", "mhtml", "x-javascript"]

/-- The schemes a policy lets through, in lower case. -/
structure Policy where
  schemes : List String
  deriving DecidableEq, Repr

/-- Drops the colons at the end of a text. -/
def dropColons (cs : List Char) : List Char :=
  (cs.reverse.dropWhile (· == ':')).reverse

/-- The policy that lets through the given schemes, which may be written in either case, with
blanks around them and with their colon. -/
def Policy.ofSchemes (names : List String) : Policy :=
  let bare (name : String) : String :=
    String.ofList (lowerChars (dropColons (trimChars name.toList)))
  { schemes := (names.map bare).filter fun s => !s.isEmpty }

/-- The policy for links when nothing else is asked for. -/
def Policy.standard : Policy :=
  .ofSchemes ["https", "http", "mailto", "tel"]

/-- The policy that lets through encrypted web addresses only. -/
def Policy.secure : Policy :=
  .ofSchemes ["https"]

/-- A character of a scheme after its first letter. -/
def isSchemeChar (c : Char) : Bool :=
  c.isAlphanum || c == '+' || c == '.' || c == '-'

/-- What is left of an address without blanks and control characters. -/
def visible (url : String) : List Char :=
  url.toList.filter fun c => !isBlank c && !isControl c

/-- The scheme of an address in lower case: a letter and scheme characters before a colon. -/
def scheme? (url : String) : Option String :=
  match visible url with
  | [] => none
  | c :: cs =>
    if c.isAlpha then
      match cs.dropWhile isSchemeChar with
      -- Without the colon this is a path that begins like a scheme.
      | ':' :: _ => some (String.ofList (lowerChars (c :: cs.takeWhile isSchemeChar)))
      | _ => none
    else none

/-- Whether a policy lets an address through. -/
def Policy.accepts (p : Policy) (url : String) : Bool :=
  match scheme? url with
  | none => true
  -- A denied scheme stays denied even if the policy names it.
  | some scheme => !deniedSchemes.contains scheme && p.schemes.contains scheme

/-- The address, if the policy lets it through, and the empty text otherwise. -/
def Policy.clean (p : Policy) (url : String) : String :=
  if p.accepts url then url else ""

/-- An address that a policy turned away. -/
structure Rejected where
  url : String
  deriving DecidableEq, Repr

/-- The text of a rejection. -/
def Rejected.message (r : Rejected) : String :=
  "Unsafe URL '" ++ r.url ++ "'"

/-- Fails on an address that the policy does not let through. -/
def Policy.check (p : Policy) (url : String) : Except Rejected Unit :=
  if p.accepts url then .ok () else .error { url }

end EmailMarkup.Url
