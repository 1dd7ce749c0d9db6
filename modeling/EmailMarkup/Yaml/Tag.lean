import EmailMarkup.Text.Ascii
import EmailMarkup.Text.CodePoint
import EmailMarkup.Yaml.Cursor

/-!
# Tags of YAML

A tag says what kind of node follows it. It is written as a handle, which stands for the beginning
of a longer name, and a suffix; or in full, between angle brackets. Octets may be escaped in it with
a percent sign, and the octets of a character then have to be written together. They need not make a
character all the same: a tag with such octets in it is well written but has no name.
-/

namespace EmailMarkup.Yaml

open EmailMarkup.Text

/-- A tag or a part of one, by its name, if its octets make a text. -/
structure Tag where
  name? : Option String
  deriving DecidableEq, Repr

namespace Tag

/-- The tag of a name. -/
def ofName (name : String) : Tag :=
  ⟨some name⟩

/-- A tag whose two parts are given. -/
def append (a b : Tag) : Tag :=
  ⟨a.name?.bind fun front => b.name?.map (front ++ ·)⟩

/-- The tag that is an exclamation mark alone. It is a tag like any other. -/
def unspecific : Tag :=
  ofName "!"

/-- The tag of the missing value. -/
def null : Tag :=
  ofName "tag:yaml.org,2002:null"

/-- The tag of truth values. -/
def bool : Tag :=
  ofName "tag:yaml.org,2002:bool"

/-- What stands after the exclamation mark of a tag that begins with one. -/
def localName? (t : Tag) : Option String :=
  match t.name?.map String.toList with
  | some ('!' :: rest) => some (String.ofList rest)
  | _ => none

end Tag

/-! ### Escaped octets -/

/-- A character of which some octets have been read. -/
structure Unfinished where
  /-- How many octets are still to come. -/
  missing : Nat
  /-- What the octets so far amount to. -/
  code : Nat
  /-- The least code point that is written with so many octets. -/
  least : Nat

namespace Unfinished

/-- The character that begins with an octet, which tells how many octets it has. -/
def start? (octet : Nat) : Option Unfinished :=
  if octet < 0x80 then some ⟨0, octet, 0⟩
  else if octet < 0xC0 then none
  else if octet < 0xE0 then some ⟨1, octet - 0xC0, 0x80⟩
  else if octet < 0xF0 then some ⟨2, octet - 0xE0, 0x800⟩
  else if octet < 0xF8 then some ⟨3, octet - 0xF0, 0x10000⟩
  else none

/-- Goes on by an octet, which has to be one that begins no character. -/
def add? (p : Unfinished) (octet : Nat) : Option Unfinished :=
  if 0x80 ≤ octet && octet < 0xC0 then
    some { p with missing := p.missing - 1, code := p.code * 64 + (octet - 0x80) }
  else none

/-- The character of all octets. There is none if fewer octets would do. -/
def char? (p : Unfinished) : Option Char :=
  if p.least ≤ p.code then charOfCode? p.code else none

end Unfinished

/-- The characters that a text with escapes stands for, with `none` for octets that make none. If
octets of a character are missing, the text is not well written. -/
def unescape? (pending? : Option Unfinished) : List Char → Option (List (Option Char))
  | [] => if pending?.isSome then none else some []
  | '%' :: a :: b :: rest => do
    let octet := (← hexValue? a) * 16 + (← hexValue? b)
    let p ← match pending? with
      | some p => p.add? octet
      | none => Unfinished.start? octet
    if p.missing = 0 then return p.char? :: (← unescape? none rest)
    else unescape? (some p) rest
  | c :: rest =>
    if c == '%' || pending?.isSome then none else (unescape? none rest).map (some c :: ·)

/-- The tag, or the part of one, that characters spell. A null character ends it. -/
def Tag.ofEscaped? (cs : List Char) : Option Tag :=
  (unescape? none cs).map fun spelled =>
    ⟨((spelled.takeWhile (· != some '\x00')).mapM id).map String.ofList⟩

/-! ### Tags as they are written -/

/-- Characters of anchors and handles. -/
def isWordChar (c : Char) : Bool :=
  c.isAlphanum || c == '_' || c == '-'

/-- Characters of tags. In a tag between angle brackets, some more are allowed. -/
def isUriChar (verbatim : Bool) (c : Char) : Bool :=
  isWordChar c || ";/?:@&=+$.%!~*'()".toList.contains c ||
    (verbatim && (c == ',' || c == '[' || c == ']'))

/-- A tag as it is written. The handle is empty if the suffix is the whole tag. -/
structure WrittenTag where
  handle : String
  suffix : Tag
  deriving DecidableEq, Repr

namespace WrittenTag

/-- What handles stand for unless a directive says otherwise. -/
def standardHandles : List (String × Tag) :=
  [("", .ofName ""), ("!", .ofName "!"), ("!!", .ofName "tag:yaml.org,2002:")]

/-- The tag in full, where some handles have been given a meaning. -/
def resolve? (t : WrittenTag) (handles : List (String × Tag)) : Option Tag :=
  ((handles ++ standardHandles).lookup t.handle).map (·.append t.suffix)

/-- The handle at the start of a text: an exclamation mark, or a word between two. -/
def handleOf (cs : List Char) : List Char :=
  match cs with
  | '!' :: rest =>
    let word := rest.takeWhile isWordChar
    -- Without a second mark the word belongs to the suffix.
    match rest.drop word.length with
    | '!' :: _ => '!' :: word ++ ['!']
    | _ => ['!']
  | _ => []

/-- The tag at the start of a text, and how many characters it takes. -/
def readLength? (cs : List Char) : Option (WrittenTag × Nat) :=
  match cs with
  | '!' :: '<' :: rest =>
    let uri := rest.takeWhile (isUriChar true)
    match rest.drop uri.length with
    | '>' :: _ =>
      if uri.isEmpty then none
      else (Tag.ofEscaped? uri).map fun suffix => (⟨"", suffix⟩, uri.length + 3)
    | _ => none
  | _ => do
    let handle := handleOf cs
    let written := (cs.drop handle.length).takeWhile (isUriChar false)
    -- Only the mark alone may do without a suffix.
    if written.isEmpty && handle.length != 1 then failure
    let suffix ← Tag.ofEscaped? written
    let length := handle.length + written.length
    if handle.length == 1 && suffix = .ofName "" then return (⟨"", .unspecific⟩, length)
    else return (⟨String.ofList handle, suffix⟩, length)

/-- Reads a tag from its mark on, and where it ends: at a blank, or at a comma in a flow
collection. -/
def read? (flow : Bool) (c : Cursor) : Option (WrittenTag × Cursor) := do
  let (tag, length) ← readLength? c.rest
  let after := c.advance length
  if endsWord after.rest || (flow && after.rest.head? == some ',') then return (tag, after)
  else failure

end WrittenTag

end EmailMarkup.Yaml
