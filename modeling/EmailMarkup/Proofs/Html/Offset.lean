import EmailMarkup.Html.Reader
import EmailMarkup.Proofs.Html.Bytes
import EmailMarkup.Proofs.Markup.Offset

/-!
# Reading HTML by byte offsets

A document can also be read from a text that stays as it is, with a byte offset for the place that
reading has come to. Start tags are scanned byte by byte: names, values and blanks end at certain
ASCII characters, and a byte is compared with those alone. What was found is then cut out of the
text, and reading breaks off if there is no place to cut (`cut`). The end tag of raw text is looked
for in a copy in small letters, and its offset there is used in the text itself.

Two loops move the offset: one from piece to piece, and one from attribute to attribute. Nothing in
them says that they end, so they are given a number of steps to end in. Each notes the offsets at
which its passes begin, and the one at which the last of them ends.
-/

set_option autoImplicit false

namespace EmailMarkup.Html.Offset

open EmailMarkup.Text
open EmailMarkup.Markup.Offset (Run unfinished ended cut find?)
open String (utf8Len)

section
variable (input : List Char)

/-! ### Start tags -/

/-- A value in quotes, given the offset of the first quote, and the offset behind it. -/
def quoted (quote : Char) (i : Nat) : Run (List Char × Nat) := do
  let _ ← cut (bytesFrom? input (i + 1))
  let last := skipBytes input (· != quote) (i + 1)
  let value ← cut (between? input (i + 1) last)
  return (value, min (last + 1) (utf8Len input))

/-- A value at an offset, and the offset behind it. -/
def value (i : Nat) : Run (List Char × Nat) :=
  if byteAt? input i = some '"' then quoted input '"' i
  else if byteAt? input i = some '\'' then quoted input '\'' i
  else do
    let last := skipBytes input isUnquotedChar i
    let value ← cut (between? input i last)
    return (value, last)

/-- What follows the name of an attribute that ends at an offset, and the offset behind it. -/
def assigned (i : Nat) : Run (Option String × Nat) :=
  let j := skipBytes input isAsciiBlank i
  if byteAt? input j = some '=' then do
    let (value, next) ← value input (skipBytes input isAsciiBlank (j + 1))
    return (some (String.ofList value), next)
  else return (none, i)

/-- The passes of the loop over a start tag: the offsets at which they began, and the one at which
the last of them ended. -/
structure TagPasses where
  starts : List Nat
  stop : Nat

/-- What was read of a start tag behind its name, the offset behind the tag, and the offsets at
which the passes of the loop began. -/
structure TagReading where
  attributes : List Attribute
  selfClosing : Bool
  next : Nat
  passes : List Nat

/-- A tag of which one pass more was made. -/
def TagReading.after (r : TagReading) (start : Nat) (found : List Attribute) : TagReading :=
  { r with attributes := found ++ r.attributes, passes := start :: r.passes }

/-- The passes over a tag. The last one ends behind the tag. -/
def TagReading.tagPasses (r : TagReading) : TagPasses :=
  { starts := r.passes, stop := r.next }

/-- The attributes of a start tag from an offset on. -/
def attributes : Nat → Nat → Run TagReading
  | 0, _ => unfinished
  | steps + 1, start => do
    let i := skipBytes input isAsciiBlank start
    if utf8Len input ≤ i then
      return { attributes := [], selfClosing := false, next := i, passes := [start] }
    else if byteAt? input i = some '>' then
      return { attributes := [], selfClosing := false, next := i + 1, passes := [start] }
    else if byteAt? input i = some '/' then
      if byteAt? input (i + 1) = some '>' then
        return { attributes := [], selfClosing := true, next := i + 2, passes := [start] }
      else
        let more ← attributes steps (i + 1)
        return more.after start []
    else
      let last := skipBytes input isAttributeNameChar i
      let name ← cut (between? input i last)
      if name.isEmpty then
        let more ← attributes steps (last + 1)
        return more.after start []
      else
        let (value, next) ← assigned input last
        let more ← attributes steps next
        return more.after start [{ name := String.ofList name, value }]

/-- The number of bytes up to and including the next `>`, or of the whole text. -/
def throughBracket (cs : List Char) : Nat :=
  ((find? ['>'] cs).map (· + 1)).getD (utf8Len cs)

/-- The raw text at an offset, whether it has an end tag, and the offset behind that. -/
def rawContent (name : List Char) (pos : Nat) : Run (List Char × Bool × Nat) := do
  let rest ← cut (from? input pos)
  let last := (find? ("</".toList ++ lowerChars name) (lowerChars rest)).getD (utf8Len rest)
  let content ← cut (upTo? rest last)
  if pos + last < utf8Len input then
    let tail ← cut (from? input (pos + last))
    return (content, true, pos + last + throughBracket tail)
  else return (content, false, pos + last)

/-- The start tag at an offset with the content of its element if that is raw text, the offset
behind it, and the passes over the tag. -/
def startTag (steps pos : Nat) : Run (Piece × Nat × List TagPasses) := do
  let last := skipBytes input isTagNameChar (pos + 1)
  let name ← cut (between? input (pos + 1) last)
  let tag ← attributes input steps last
  let whole := Piece.startTag (String.ofList name) tag.attributes tag.selfClosing
  if tag.selfClosing || isVoid (String.ofList name) then return (whole, tag.next, [tag.tagPasses])
  else if isRawText (String.ofList name) then
    let (content, closed, next) ← rawContent input name tag.next
    return (.rawText (String.ofList name) tag.attributes (String.ofList content) closed, next,
      [tag.tagPasses])
  else return (whole, tag.next, [tag.tagPasses])

/-! ### Pieces -/

/-- The comment at an offset, and the offset behind it. -/
def comment (pos : Nat) : Run (Piece × Nat × List TagPasses) := do
  let body ← cut (from? input (pos + 4))
  match find? ['-', '-', '>'] body with
  | some length =>
    let content ← cut (between? input (pos + 4) (pos + 4 + length))
    return (.comment (String.ofList content), pos + 4 + length + 3, [])
  | none => return (.comment (String.ofList body), utf8Len input, [])

/-- The declaration at an offset, and the offset behind it. -/
def declaration (pos : Nat) : Run (Piece × Nat × List TagPasses) := do
  let rest ← cut (from? input pos)
  let content ← cut (upTo? rest (throughBracket rest))
  return (.declaration (String.ofList content), pos + throughBracket rest, [])

/-- The end tag at an offset, and the offset behind it. -/
def endTag (pos : Nat) : Run (Piece × Nat × List TagPasses) := do
  let rest ← cut (from? input pos)
  let body ← cut (between? rest 2 (throughBracket rest))
  let name := (body.reverse.dropWhile (· == '>')).reverse
  return (.endTag (String.ofList (trimChars name)), pos + throughBracket rest, [])

/-- The running text at an offset, and the offset behind it. -/
def text (pos : Nat) : Run (Piece × Nat × List TagPasses) := do
  let rest ← cut (from? input pos)
  -- A bracket that opens nothing is text.
  let skip := if beginsWith ['<'] rest then 1 else 0
  let tail ← cut (from? rest skip)
  let length := ((find? ['<'] tail).map (· + skip)).getD (utf8Len rest)
  let content ← cut (upTo? rest length)
  return (.text (String.ofList content), pos + length, [])

/-- Whether a text begins with a mark and then a letter. -/
def letterAfter (mark cs : List Char) : Run Bool :=
  if beginsWith mark cs then do
    let behind ← cut (from? cs (utf8Len mark))
    return behind.head?.any Char.isAlpha
  else return false

/-- The piece at an offset, the offset behind it, and the passes over the tag if it is one. -/
def piece (steps pos : Nat) : Run (Piece × Nat × List TagPasses) := do
  let rest ← cut (from? input pos)
  if beginsWith ['<', '!', '-', '-'] rest then comment input pos
  else if ← letterAfter ['<', '/'] rest then endTag input pos
  else if beginsWith ['<', '!'] rest || beginsWith ['<', '?'] rest then declaration input pos
  else if ← letterAfter ['<'] rest then startTag input steps pos
  else text input pos

/-- What was read of a document: the document in the making, the offsets at which the passes of the
loop began and, last, the one at which it ended, and the same for the loops over start tags. -/
structure Reading where
  builder : Builder
  passes : List Nat
  tagPasses : List TagPasses

/-- Reads the text from an offset to its end. -/
def scan : Nat → Builder → Nat → Run Reading
  | 0, _, _ => unfinished
  | steps + 1, b, pos =>
    if pos < utf8Len input then do
      let (found, next, tags) ← piece input steps pos
      let more ← scan steps (b.step found) next
      return { more with passes := pos :: more.passes, tagPasses := tags ++ more.tagPasses }
    else return { builder := b, passes := [pos], tagPasses := [] }

end

/-- Reads a document by byte offsets. No loop takes more steps than given. -/
def read (steps : Nat) (html : String) : Run Reading :=
  scan html.toList steps { top := [], stack := [] } 0

/-- The document that was read. -/
def Reading.document (r : Reading) : Document :=
  { children := (closeAll [] r.builder.top r.builder.stack).reverse }

end EmailMarkup.Html.Offset
