import EmailMarkup.Proofs.ByteOffset
import EmailMarkup.Proofs.Markup.Position
import EmailMarkup.Proofs.Markup.Scan
import EmailMarkup.Proofs.Markup.Spelling

/-!
# Reading by byte offsets

A document can also be read from a text that stays as it is, with a byte offset for the place that
reading has come to. Offsets are then added up from the lengths of what was found, every piece that
is looked at is cut out of the text, and reading breaks off if a cut is asked for where there is no
place to cut (`cut`). Nothing in the loops of such a reader says that they end, so they are given a
number of steps to end in.
-/

set_option autoImplicit false

namespace EmailMarkup.Markup.Offset

open EmailMarkup.Text EmailMarkup.Component
open String (utf8Len)

/-! ### Runs -/

/-- A run of the reader, which may fail, and which may not have ended yet. -/
abbrev Run (α : Type) := ExceptT Failure Option α

/-- A run that has not ended. -/
def unfinished {α : Type} : Run α :=
  ExceptT.mk none

/-- A run that ended. -/
def ended {α : Type} (result : Except Failure α) : Run α :=
  ExceptT.mk (some result)

/-- A piece that is cut out of a text. Reading breaks off if there is no such piece. -/
def cut {α : Type} : Option α → Run α
  | some piece => pure piece
  | none => throw .brokenCharacter

section
variable {α β : Type}

@[simp]
theorem pure_eq (a : α) : (pure a : Run α) = ended (.ok a) := rfl

@[simp]
theorem ended_ok_bind (a : α) (f : α → Run β) : ended (.ok a) >>= f = f a := rfl

@[simp]
theorem cut_some (a : α) : cut (some a) = ended (.ok a) := rfl

end

/-! ### The reader -/

/-- The byte offset of the first occurrence of a mark. -/
def find? (mark cs : List Char) : Option Nat :=
  (splitAtMark? mark cs).map fun parts => utf8Len parts.1

/-- The number of bytes before the first character of a kind, or of the whole text. -/
def bytesBefore (p : Char → Bool) (cs : List Char) : Nat :=
  utf8Len (cs.takeWhile fun c => !p c)

/-- What follows the last line end, or the whole text. -/
def lastLine (cs : List Char) : List Char :=
  (cs.reverse.takeWhile (· ≠ '\n')).reverse

/-- The byte offset of the last line end. -/
def lastLineEnd? (cs : List Char) : Option Nat :=
  if '\n' ∈ cs then some (utf8Len cs - utf8Len (lastLine cs) - 1) else none

section
variable (input : List Char)

/-- The line and column of a byte offset. -/
def position (offset : Nat) : Run Position := do
  let before ← cut (upTo? input offset)
  let line := before.count '\n' + 1
  match lastLineEnd? before with
  | some lineEnd =>
    let last ← cut (from? before (lineEnd + 1))
    return { line, column := last.length + 1 }
  | none => return { line, column := before.length + 1 }

/-- Fails with a fault at a byte offset. -/
def failAt {α : Type} (offset : Nat) (fault : Fault) : Run α := do
  let position ← position input offset
  throw (.malformed position fault)

/-- The offset behind blanks. -/
def skipBlanks (pos : Nat) : Run Nat := do
  let rest ← cut (from? input pos)
  return utf8Len input - utf8Len (trimLeft rest)

/-- The name at an offset, and the offset behind it. -/
def name (pos : Nat) : Run (List Char × Nat) := do
  let rest ← cut (from? input pos)
  let length := bytesBefore (fun c => !isNameChar c) rest
  let name ← cut (upTo? rest length)
  return (name, pos + length)

/-- A value in quotes, and the offset behind it. -/
def quoted (tag name : String) (quote : Char) (rest : List Char) (pos : Nat) :
    Run (String × Nat) := do
  let inner ← cut (from? rest 1)
  match find? [quote] inner with
  | none => failAt input pos (.unterminatedValue name tag)
  | some length =>
    let value ← cut (between? rest 1 (length + 1))
    return (Html.unescape (String.ofList value), pos + length + 2)

/-- The value of an attribute at an offset, and the offset behind it. -/
def value (tag name : String) (pos : Nat) : Run (String × Nat) := do
  let rest ← cut (from? input pos)
  match rest with
  | '"' :: _ => quoted input tag name '"' rest pos
  | '\'' :: _ => quoted input tag name '\'' rest pos
  | _ =>
    let length := bytesBefore endsBareValue rest
    let value ← cut (upTo? rest length)
    return (Html.unescape (String.ofList value), pos + length)

/-- What follows the name of an attribute. -/
def assigned (tag name : String) (pos : Nat) : Run (String × Nat) := do
  let rest ← cut (from? input pos)
  if beginsWith ['='] rest then
    let pos ← skipBlanks input (pos + 1)
    value input tag name pos
  else return (name, pos)

/-- The attributes of a tag that begins at `start`, from an offset on. -/
def attributes (start : Nat) (tag : String) :
    Nat → Attributes → Nat → Run ((Attributes × Bool) × Nat)
  | 0, _, _ => unfinished
  | steps + 1, before, pos => do
    let pos ← skipBlanks input pos
    let rest ← cut (from? input pos)
    if rest.isEmpty then failAt input start (.unterminatedTag tag)
    else if beginsWith ['/', '>'] rest then return ((before, true), pos + 2)
    else if beginsWith ['>'] rest then return ((before, false), pos + 1)
    else
      let (cs, next) ← name input pos
      if cs.isEmpty then failAt input next (.unexpectedCharacter tag)
      else
        let next ← skipBlanks input next
        let (value, next) ← assigned input tag (String.ofList cs) next
        attributes start tag steps (before.insert (String.ofList cs) value) next

/-- Whether a text begins with the start of a tag and the name in it ends there. -/
def beginsTag (mark cs : List Char) : Run Bool :=
  if beginsWith mark cs then do
    let behind ← cut (from? cs (utf8Len mark))
    return behind.head?.any endsBareValue
  else return false

/-- The content of an element whose tag begins at `start` and ends at `first`, and the offset behind
its closing tag. Up to `cursor`, `depth` elements of the name are open. -/
def content (start : Nat) (tag : List Char) (first : Nat) :
    Nat → Nat → Nat → Run (List Char × Nat)
  | 0, _, _ => unfinished
  | steps + 1, depth, cursor => do
    let text ← cut (from? input cursor)
    match find? ['<'] text with
    | none => failAt input start (.neverClosed (String.ofList tag))
    | some bracket =>
      let here := cursor + bracket
      let rest ← cut (from? input here)
      if ← beginsTag ('<' :: '/' :: tag) rest then
        match find? ['>'] rest with
        | none => failAt input here (.unterminatedClosingTag (String.ofList tag))
        | some last =>
          if depth = 1 then
            let content ← cut (between? input first here)
            return (content, here + last + 1)
          else content start tag first steps (depth - 1) (here + last + 1)
      else if ← beginsTag ('<' :: tag) rest then
        -- A tag without an end is taken to end with the last byte of the text.
        let last := (find? ['>'] rest).getD (utf8Len rest - 1)
        let inside ← cut (upTo? rest last)
        content start tag first steps (if inside.getLast? == some '/' then depth else depth + 1)
          (here + last + 1)
      else content start tag first steps depth (here + 1)

/-- The comment at an offset, and the offset behind it. -/
def comment (pos : Nat) : Run (Option Item × Nat) := do
  let rest ← cut (from? input pos)
  let inner ← cut (from? rest 4)
  match find? ['-', '-', '>'] inner with
  | none => failAt input pos .unterminatedComment
  | some length =>
    let last := pos + 4 + length + 3
    let source ← cut (between? input pos last)
    return (some (.comment (String.ofList source)), last)

/-- The offset behind a declaration, which ends with a mark. -/
def declaration (mark : List Char) (pos : Nat) : Run (Option Item × Nat) := do
  let rest ← cut (from? input pos)
  match find? mark rest with
  | none => failAt input pos .unterminatedDeclaration
  | some length => return (none, pos + length + utf8Len mark)

/-- The closing tag at an offset, and the offset behind it. -/
def closing (pos : Nat) : Run (Option Item × Nat) := do
  let (cs, next) ← name input (pos + 2)
  let next ← skipBlanks input next
  let rest ← cut (from? input next)
  if beginsWith ['>'] rest then return (some (.closing (String.ofList cs)), next + 1)
  else failAt input pos (.unterminatedClosingTag (String.ofList cs))

variable (registry : Registry)

/-- The tag at an offset, with the content of its element if that is kept as text, and the offset
behind it. -/
def opening (steps pos : Nat) : Run (Option Item × Nat) := do
  let start ← position input pos
  let (cs, next) ← name input (pos + 1)
  if cs.isEmpty then failAt input pos .missingTagName
  else
    let tag := String.ofList cs
    let ((attributes, single), next) ← attributes input pos tag steps ∅ next
    match registry.get? tag with
    | none => throw (.unknownTag tag start)
    | some spec =>
      if single then return (some (.whole tag attributes ""), next)
      else if spec.captures then
        let (content, next) ← content input pos cs next steps 1 next
        return (some (.whole tag attributes (String.ofList (trimChars content))), next)
      else return (some (.opening tag attributes), next)

/-- What begins with a bracket at an offset, and the offset behind it. -/
def marked (steps pos : Nat) : Run (Option Item × Nat) := do
  let rest ← cut (from? input pos)
  if beginsWith ['<', '!', '-', '-'] rest then comment input pos
  else if beginsWith ['<', '?'] rest then declaration input ['?', '>'] pos
  else if beginsWith ['<', '!'] rest then declaration input ['>'] pos
  else if beginsWith ['<', '/'] rest then closing input pos
  else opening input registry steps pos

/-- Takes in the text at an offset. -/
def addText (p : Progress) (text : List Char) (pos : Nat) : Run Progress :=
  if text.all isBlank then return p
  else do
    let start ← position input (pos + (utf8Len text - utf8Len (trimLeft text)))
    ended (p.addText (String.ofList text) start)

variable (keep : Bool)

/-- Reads the text from an offset to its end. -/
def scan : Nat → Progress → Nat → Run Node
  | 0, _, _ => unfinished
  | steps + 1, p, pos =>
    if pos < utf8Len input then do
      let rest ← cut (from? input pos)
      match find? ['<'] rest with
      | none =>
        let p ← addText input p rest pos
        ended p.finish
      | some length =>
        let text ← cut (upTo? rest length)
        let p ← addText input p text pos
        let start ← position input (pos + length)
        let (item?, next) ← marked input registry steps (pos + length)
        let p ← ended (p.take keep (item?.map fun item => { item, position := start }))
        scan steps p next
    else ended p.finish

end

/-- Reads a document by byte offsets. No loop takes more steps than given. -/
def read (registry : Registry) (keepComments : Bool) (steps : Nat) (markup : String) : Run Node :=
  scan markup.toList registry (keepComments && registry.has "mj-raw") steps .before 0

end EmailMarkup.Markup.Offset
