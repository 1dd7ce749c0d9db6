/-!
# Places in a YAML text

YAML is read character by character with an eye on columns: they tell which lines belong together. A
cursor is the rest of a text together with the place where it begins.
-/

namespace EmailMarkup.Yaml

/-- Whether a character ends a line. -/
def isBreak (c : Char) : Bool :=
  c == '\n' || c == '\r' || c == '\u0085' || c == '\u2028' || c == '\u2029'

/-- Whether a character is a blank within a line. -/
def isSpace (c : Char) : Bool :=
  c == ' ' || c == '\t'

/-- Whether a character is a blank or ends a line. -/
def isGapChar (c : Char) : Bool :=
  isSpace c || isBreak c

/-- Whether a text is at its end, at a blank or at the end of a line. -/
def endsWord : List Char → Bool
  | [] => true
  | c :: _ => isGapChar c

/-- Whether a character may occur in a text at all. -/
def isAllowed (c : Char) : Bool :=
  let n := c.toNat
  c == '\t' || c == '\n' || c == '\r' || (0x20 ≤ n && n ≤ 0x7E) || n == 0x85 ||
    (0xA0 ≤ n && n ≤ 0xD7FF) || (0xE000 ≤ n && n ≤ 0xFFFD) || 0x10000 ≤ n

/-- Whether a text begins with one of the marks between documents. -/
def atDocumentMark : List Char → Bool
  | '-' :: '-' :: '-' :: rest => endsWord rest
  | '.' :: '.' :: '.' :: rest => endsWord rest
  | _ => false

/-- The rest of a text, and where it begins. -/
structure Cursor where
  rest : List Char
  /-- The number of bytes before it. -/
  index : Nat := 0
  line : Nat := 0
  column : Nat := 0
  deriving Repr

namespace Cursor

/-- Goes on by a character. A carriage return before a line feed takes no room. -/
def next (c : Cursor) : Cursor :=
  match c.rest with
  | [] => c
  -- The line feed will end the line for both.
  | '\r' :: '\n' :: rest => { c with rest := '\n' :: rest, index := c.index + 1 }
  | d :: rest =>
    let index := c.index + d.utf8Size
    if isBreak d then { rest, index, line := c.line + 1, column := 0 }
    else { c with rest, index, column := c.column + 1 }

/-- Goes on by a number of characters. -/
def advance (c : Cursor) : Nat → Cursor
  | 0 => c
  | n + 1 => c.next.advance n

/-- Goes on as long as characters are of a kind. -/
def skipWhile (c : Cursor) (p : Char → Bool) : Cursor :=
  c.advance (c.rest.takeWhile p).length

/-- Goes on past the end of a line, if the cursor is there. -/
def skipBreak (c : Cursor) : Cursor :=
  match c.rest with
  | '\r' :: '\n' :: _ => c.advance 2
  | d :: _ => if isBreak d then c.next else c
  | [] => c

end Cursor

end EmailMarkup.Yaml
