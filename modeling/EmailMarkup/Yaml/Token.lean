import EmailMarkup.Yaml.Scalar
import EmailMarkup.Yaml.Tag

/-!
# Tokens of YAML

A text is cut into tokens, among them tokens for where blocks begin and end, which follow from the
indentation. Whether a scalar is a key shows only at the colon after it, so its place among the
tokens is remembered for as long as it may become one: to the end of its line.
-/

namespace EmailMarkup.Yaml

open EmailMarkup.Text

/-- A token. -/
inductive Token where
  | version (major minor : Nat)
  | tagHandle (handle : String) (meaning : Tag)
  | documentStart
  | documentEnd
  | blockSequence
  | blockMapping
  | blockEnd
  | flowSequence
  | flowSequenceEnd
  | flowMapping
  | flowMappingEnd
  | blockEntry
  | flowEntry
  | key
  | value
  | alias (name : String)
  | anchor (name : String)
  | tag (written : WrittenTag)
  | scalar (style : Style) (text : String)
  deriving DecidableEq, Repr

/-- A place at which a key may have begun. -/
structure PossibleKey where
  /-- The number of tokens before it. -/
  token : Nat
  index : Nat
  line : Nat
  column : Nat
  /-- It stands where a key has to stand. -/
  required : Bool
  deriving Repr

/-- How far a text has been cut. -/
structure Scanner where
  cursor : Cursor
  /-- The tokens so far, last first. -/
  tokens : List Token := []
  /-- How many flow collections are open. -/
  flow : Nat := 0
  /-- The column of the innermost open block, and `-1` outside of all blocks. -/
  indent : Int := -1
  /-- Those of the blocks around it. -/
  outer : List Int := []
  /-- A key may begin here. -/
  keyAllowed : Bool := true
  /-- The possible key of the innermost flow collection, or of the block. -/
  possible : Option PossibleKey := none
  /-- Those of the collections around it. -/
  possibleOuter : List (Option PossibleKey) := []
  deriving Repr

namespace Scanner

/-- Adds a token. -/
def emit (s : Scanner) (t : Token) : Scanner :=
  { s with tokens := t :: s.tokens }

/-- Adds a token that takes a number of characters. -/
def emitAt (s : Scanner) (t : Token) (length : Nat) : Scanner :=
  { s with tokens := t :: s.tokens, cursor := s.cursor.advance length }

/-- Puts a token after a number of tokens. -/
def insertAfter (s : Scanner) (count : Nat) (t : Token) : Scanner :=
  let later := s.tokens.length - count
  { s with tokens := s.tokens.take later ++ t :: s.tokens.drop later }

/-- Opens a block at a column, unless one is open there or the text is in a flow collection. Its
token goes after a number of tokens. -/
def openBlock (s : Scanner) (column count : Nat) (t : Token) : Scanner :=
  if s.flow = 0 ∧ s.indent < column then
    let s := s.insertAfter count t
    { s with indent := column, outer := s.indent :: s.outer }
  else s

/-- Closes blocks that are further in than a column. -/
def closeBlocks (column : Int) (s : Scanner) : List Int → Scanner
  | [] => s
  | around :: outer =>
    if s.flow = 0 ∧ column < s.indent then
      closeBlocks column { s.emit .blockEnd with indent := around, outer } outer
    else s

/-- Closes blocks that are further in than a column. -/
def unindent (s : Scanner) (column : Int) : Scanner :=
  closeBlocks column s s.outer

/-- Gives up the possible key, which may not be one that is required. -/
def dropKey (s : Scanner) : Option Scanner :=
  if s.possible.any PossibleKey.required then none else some { s with possible := none }

/-- Remembers that a key may begin here. -/
def noteKey (s : Scanner) : Option Scanner :=
  if s.keyAllowed then do
    let s ← s.dropKey
    let k : PossibleKey :=
      { token := s.tokens.length
        index := s.cursor.index
        line := s.cursor.line
        column := s.cursor.column
        required := s.flow = 0 && s.indent = s.cursor.column }
    return { s with possible := some k }
  else some s

/-- Whether a key cannot be completed any more: it has to end on its line and within 1024
bytes. -/
def isStale (c : Cursor) (k : PossibleKey) : Bool :=
  k.line < c.line || k.index + 1024 < c.index

/-- Gives up keys that cannot be completed any more. -/
def dropStale (s : Scanner) : Option Scanner :=
  let keep (k : Option PossibleKey) : Option (Option PossibleKey) :=
    match k with
    -- Where a key has to stand, one that is never completed is a fault.
    | some k =>
      if !isStale s.cursor k then some (some k) else if k.required then none else some none
    | none => some none
  do
    let possible ← keep s.possible
    let possibleOuter ← s.possibleOuter.mapM keep
    return { s with possible, possibleOuter }

/-- Passes over blanks, comments and line ends. After the end of a line, outside of flow
collections, a key may begin; where one may, a tab is no blank. At the start of a line, a byte order
mark is a blank, too. -/
def skipBlank (s : Scanner) : Nat → Scanner
  | 0 => s
  | fuel + 1 =>
    let isBlank (d : Char) : Bool := d == ' ' || (d == '\t' && (s.flow != 0 || !s.keyAllowed))
    let c := s.cursor
    let c := if c.column == 0 && c.rest.head? == some '\ufeff' then c.next else c
    let c := c.skipWhile isBlank
    let c := if c.rest.head? == some '#' then c.skipWhile fun d => !isBreak d else c
    if c.rest.head?.any isBreak then
      { s with cursor := c.skipBreak, keyAllowed := s.keyAllowed || s.flow == 0 }.skipBlank fuel
    else { s with cursor := c }

/-! ### Names and directives -/

/-- What may follow the name of an anchor. -/
def endsAnchor : List Char → Bool
  | [] => true
  | c :: _ => isGapChar c || "?:,]\x7d%@`".toList.contains c

/-- The name after the mark of an anchor or an alias. -/
def readAnchor? (c : Cursor) : Option (String × Cursor) :=
  let name := c.next.rest.takeWhile isWordChar
  let after := c.next.advance name.length
  if name.isEmpty || !endsAnchor after.rest then none else some (String.ofList name, after)

/-- Where a directive ends: at the end of its line, perhaps after a comment. -/
def endDirective? (c : Cursor) : Option Cursor :=
  let c := c.skipWhile isSpace
  let c := if c.rest.head? == some '#' then c.skipWhile fun d => !isBreak d else c
  if c.rest.isEmpty || c.rest.head?.any isBreak then some c.skipBreak else none

/-- A number of a version, which has at most nine digits. -/
def versionNumber? (digits : List Char) : Option Nat :=
  if digits.length ≤ 9 then natural? (Nat.pow 10 9) digits else none

/-- Reads a directive from its mark on. -/
def readDirective? (c : Cursor) : Option (Token × Cursor) := do
  let c := c.next
  let name := c.rest.takeWhile isWordChar
  let c := c.advance name.length
  if name.isEmpty || !endsWord c.rest then failure
  let c := c.skipWhile isSpace
  match String.ofList name with
  | "YAML" =>
    let major := c.rest.takeWhile Char.isDigit
    let c := c.advance major.length
    if c.rest.head? != some '.' then failure
    let c := c.next
    let minor := c.rest.takeWhile Char.isDigit
    let token := Token.version (← versionNumber? major) (← versionNumber? minor)
    return (token, ← endDirective? (c.advance minor.length))
  | "TAG" =>
    let handle := WrittenTag.handleOf c.rest
    let c := c.advance handle.length
    if handle.isEmpty || !c.rest.head?.any isSpace then failure
    let c := c.skipWhile isSpace
    let uri := c.rest.takeWhile (isUriChar true)
    let c := c.advance uri.length
    if uri.isEmpty || !endsWord c.rest then failure
    return (.tagHandle (String.ofList handle) (← Tag.ofEscaped? uri), ← endDirective? c)
  | _ => failure

/-! ### Tokens -/

/-- A mark between documents, or a directive: all blocks end here, and no key may begin. -/
def breakOff (s : Scanner) : Option Scanner := do
  let s ← (s.unindent (-1)).dropKey
  return { s with keyAllowed := false }

/-- Opens a flow collection. -/
def openFlow (s : Scanner) (t : Token) : Option Scanner := do
  let s ← s.noteKey
  return { s.emitAt t 1 with
    flow := s.flow + 1
    keyAllowed := true
    possible := none
    possibleOuter := s.possible :: s.possibleOuter }

/-- Closes a flow collection. -/
def closeFlow (s : Scanner) (t : Token) : Option Scanner := do
  let s ← s.dropKey
  let s := { s.emitAt t 1 with keyAllowed := false }
  match s.possibleOuter with
  | possible :: possibleOuter => return { s with flow := s.flow - 1, possible, possibleOuter }
  | [] => return s

/-- Goes on to the next entry of a flow collection. -/
def nextFlowEntry (s : Scanner) : Option Scanner := do
  let s ← s.dropKey
  return { s.emitAt .flowEntry 1 with keyAllowed := true }

/-- Begins a part of a block, such as an entry of a sequence, at the cursor. -/
def beginPart (s : Scanner) (block part : Token) (keyAllowed : Bool) : Option Scanner := do
  if s.flow = 0 && !s.keyAllowed then failure
  let s ← (s.openBlock s.cursor.column s.tokens.length block).dropKey
  return { s.emitAt part 1 with keyAllowed }

/-- A colon. If a key may have come before it, then that was one. -/
def addValue (s : Scanner) : Option Scanner :=
  match s.possible with
  | some k =>
    -- Both tokens go before the key, the opening of the mapping first.
    let s := (s.insertAfter k.token .key).openBlock k.column k.token .blockMapping
    some { s.emitAt .value 1 with possible := none, keyAllowed := false }
  | none =>
    if s.flow = 0 then
      if s.keyAllowed then
        let s := s.openBlock s.cursor.column s.tokens.length .blockMapping
        some { s.emitAt .value 1 with keyAllowed := true }
      else none
    else some { s.emitAt .value 1 with keyAllowed := false }

/-- Adds a token that may be the start of a key, and where it ends. -/
def addNode (s : Scanner) (read : Cursor → Option (Token × Cursor)) : Option Scanner := do
  let s ← s.noteKey
  let (token, cursor) ← read s.cursor
  return { s.emit token with cursor, keyAllowed := false }

/-- Adds a scalar that may be a key. -/
def addScalar (s : Scanner) (style : Style) (read : Cursor → Option Scanned) :
    Option Scanner := do
  let s ← s.noteKey
  let scanned ← read s.cursor
  return { s.emit (.scalar style (String.ofList scanned.text)) with
    cursor := scanned.cursor
    keyAllowed := scanned.crossed }

/-- Adds a block of lines. -/
def addBlock (s : Scanner) (literal : Bool) : Option Scanner := do
  let s ← s.dropKey
  let scanned ← readBlock literal s.indent s.cursor
  let style := if literal then Style.literal else Style.folded
  return { s.emit (.scalar style (String.ofList scanned.text)) with
    cursor := scanned.cursor
    keyAllowed := true }

/-- Whether a plain scalar may begin with a character. -/
def startsPlain (flow : Bool) (c : Char) (rest : List Char) : Bool :=
  !(isGapChar c || "-?:,[]\x7b\x7d#&*!|>'\"%@`".toList.contains c) ||
    (!endsWord rest && (c == '-' || (!flow && (c == '?' || c == ':'))))

/-- Adds the token at the cursor, which begins with a character. -/
def addToken (s : Scanner) (c : Char) (rest : List Char) : Option Scanner :=
  let flow := s.flow != 0
  let first := s.cursor.column == 0
  -- Marks between documents and directives count in the first column only.
  if first && c == '%' then do
    let s ← s.breakOff
    let (token, cursor) ← readDirective? s.cursor
    return { s.emit token with cursor }
  else if first && atDocumentMark (c :: rest) then do
    let s ← s.breakOff
    return s.emitAt (if c == '-' then .documentStart else .documentEnd) 3
  else if c == '[' then s.openFlow .flowSequence
  else if c == '\x7b' then s.openFlow .flowMapping
  else if c == ']' then s.closeFlow .flowSequenceEnd
  else if c == '\x7d' then s.closeFlow .flowMappingEnd
  else if c == ',' then s.nextFlowEntry
  else if c == '-' && endsWord rest then s.beginPart .blockSequence .blockEntry true
  else if c == '?' && (flow || endsWord rest) then s.beginPart .blockMapping .key (!flow)
  else if c == ':' && (flow || endsWord rest) then s.addValue
  else if c == '*' then s.addNode fun c => (readAnchor? c).map fun (n, c) => (.alias n, c)
  else if c == '&' then s.addNode fun c => (readAnchor? c).map fun (n, c) => (.anchor n, c)
  else if c == '!' then
    s.addNode fun c => (WrittenTag.read? flow c).map fun (t, c) => (.tag t, c)
  else if c == '|' && !flow then s.addBlock true
  else if c == '>' && !flow then s.addBlock false
  else if c == '\'' || c == '"' then s.addScalar .quoted (readQuoted c)
  else if startsPlain flow c rest then s.addScalar .plain (readPlain flow (s.indent + 1))
  else none

/-- Cuts a text to its end. -/
def run (s : Scanner) : Nat → Option Scanner
  | 0 => none
  | fuel + 1 => do
    let s ← (s.skipBlank (s.cursor.rest.length + 1)).dropStale
    -- Blocks end where a line begins further out than they do.
    let s := s.unindent s.cursor.column
    match s.cursor.rest with
    | [] => (s.unindent (-1)).dropKey
    | c :: rest => (← s.addToken c rest).run fuel

end Scanner

/-- Cuts a text into tokens. -/
def tokens? (text : List Char) : Option (List Token) :=
  if text.all isAllowed then
    ((Scanner.run { cursor := { rest := text } } (text.length + 1)).map Scanner.tokens).map
      List.reverse
  else none

end EmailMarkup.Yaml
