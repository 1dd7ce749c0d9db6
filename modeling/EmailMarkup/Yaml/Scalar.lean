import EmailMarkup.Text.Ascii
import EmailMarkup.Text.CodePoint
import EmailMarkup.Yaml.Cursor

/-!
# Scalars of YAML

The texts in a YAML document: plain ones, ones in quotes, and blocks of lines. In plain and quoted
texts the end of a line is folded into a space. A scalar that is not well written is none.
-/

namespace EmailMarkup.Yaml

open EmailMarkup.Text

/-- How a scalar is written. -/
inductive Style where
  | plain
  | quoted
  | literal
  | folded
  deriving DecidableEq, Repr

/-! ### Folding -/

/-- The blanks and line ends at the start of a text. -/
def gapOf (cs : List Char) : List Char :=
  cs.takeWhile isGapChar

/-- The line ends in a gap. All of them but the separators of lines and paragraphs are line
feeds. -/
def breaksIn : List Char → List Char
  | [] => []
  | '\r' :: '\n' :: rest => '\n' :: breaksIn rest
  | c :: rest =>
    if c == '\n' || c == '\r' || c == '\u0085' then '\n' :: breaksIn rest
    else if isBreak c then c :: breaksIn rest
    else breaksIn rest

/-- What a gap between two words stands for: itself within a line, a space at the end of a line, and
line feeds for empty lines. -/
def foldGap (gap : List Char) : List Char :=
  match breaksIn gap with
  | [] => gap
  | ['\n'] => [' ']
  | '\n' :: more => more
  | breaks => breaks

/-- Whether a tab stands in a gap, after the end of a line, before a column. -/
def hasTabBefore (limit : Int) (started : Bool) (column : Nat) : List Char → Bool
  | [] => false
  | c :: rest =>
    if isBreak c then hasTabBefore limit true 0 rest
    else (started && c == '\t' && (column : Int) < limit) ||
      hasTabBefore limit started (column + 1) rest

/-! ### Plain scalars -/

/-- Whether a character has a meaning in flow collections. -/
def isFlowMark (c : Char) : Bool :=
  c == ',' || c == '[' || c == ']' || c == '\x7b' || c == '\x7d'

/-- The part of a plain scalar up to the next gap or mark. In a flow collection a colon has to be
followed by something else than a mark. -/
def plainRun (flow : Bool) : List Char → Option (List Char)
  | [] => some []
  | c :: rest =>
    let next := rest.head?
    if isGapChar c then some []
    else if flow && c == ':' && next.any (fun d => isFlowMark d || d == '?') then none
    else if c == ':' && endsWord rest then some []
    else if flow && isFlowMark c then some []
    else (plainRun flow rest).map (c :: ·)

/-- A scalar that has been read: its text, where it ends, and whether the end of a line has been
passed since its last character. -/
structure Scanned where
  text : List Char
  cursor : Cursor
  crossed : Bool := false
  deriving Repr

/-- The rest of a plain scalar, given its text so far and the gap before the cursor. In a block its
lines have to begin at a column. -/
def plainFrom (flow : Bool) (indent : Int) (text gap : List Char) (c : Cursor) :
    Nat → Option Scanned
  | 0 => none
  | fuel + 1 => do
    let crossed := !(breaksIn gap).isEmpty
    -- At this point a gap has just been passed, or nothing at all, so a number sign begins a
    -- comment.
    if (c.column == 0 && atDocumentMark c.rest) || c.rest.head? == some '#' then
      return { text, cursor := c, crossed }
    let run ← plainRun flow c.rest
    if run.isEmpty then return { text, cursor := c, crossed }
    let text := text ++ foldGap gap ++ run
    let c := c.advance run.length
    let gap := gapOf c.rest
    if gap.isEmpty then return { text, cursor := c }
    -- A tab may separate words, but cannot indent a line.
    if hasTabBefore indent false 0 gap then failure
    let c := c.advance gap.length
    -- A line that begins further out is no part of the scalar.
    if !flow && (c.column : Int) < indent then
      return { text, cursor := c, crossed := !(breaksIn gap).isEmpty }
    plainFrom flow indent text gap c fuel

/-- Reads a plain scalar. -/
def readPlain (flow : Bool) (indent : Int) (c : Cursor) : Option Scanned :=
  plainFrom flow indent [] [] c (c.rest.length + 1)

/-! ### Quoted scalars -/

/-- The part of a quoted scalar up to the next gap: its text, how many characters it takes, and
whether it ends with the end of a line that is escaped. -/
structure Run where
  text : List Char := []
  length : Nat := 0
  escapedBreak : Bool := false
  deriving Repr

/-- Puts a character before a run, written with a number of characters. -/
def Run.cons (c : Char) (length : Nat) (r : Run) : Run :=
  { r with text := c :: r.text, length := length + r.length }

/-- A run in single quotes. A quote in it is written twice. -/
def singleRun : List Char → Run
  | [] => {}
  | '\'' :: '\'' :: rest => (singleRun rest).cons '\'' 2
  | c :: rest => if c == '\'' || isGapChar c then {} else (singleRun rest).cons c 1

/-- The character that a number of hexadecimal digits at the start of a text stand for. -/
def hexChar? (digits : Nat) (cs : List Char) : Option Char := do
  let code ← (cs.take digits).foldlM (fun n c => (hexValue? c).map fun d => n * 16 + d) 0
  if (cs.take digits).length < digits then failure
  charOfCode? code

/-- The characters that have escapes of one letter. -/
def escapes : List (Char × Char) :=
  [('0', '\x00'), ('a', '\x07'), ('b', '\x08'), ('t', '\t'), ('\t', '\t'), ('n', '\n'),
    ('v', '\x0b'), ('f', '\x0c'), ('r', '\r'), ('e', '\x1b'), (' ', ' '), ('"', '"'), ('/', '/'),
    ('\\', '\\'), ('N', '\u0085'), ('_', '\u00a0'), ('L', '\u2028'), ('P', '\u2029')]

/-- The character of an escape, and how many characters it takes after the backslash. -/
def escape? : List Char → Option (Char × Nat)
  | [] => none
  | 'x' :: rest => (hexChar? 2 rest).map fun c => (c, 3)
  | 'u' :: rest => (hexChar? 4 rest).map fun c => (c, 5)
  | 'U' :: rest => (hexChar? 8 rest).map fun c => (c, 9)
  | c :: _ => (escapes.lookup c).map fun d => (d, 1)

/-- A run in double quotes. -/
def doubleRun (cs : List Char) : Nat → Option Run
  | 0 => none
  | fuel + 1 =>
    match cs with
    | [] => some {}
    | '\\' :: '\r' :: '\n' :: _ => some { length := 3, escapedBreak := true }
    | '\\' :: rest =>
      if rest.head?.any isBreak then some { length := 2, escapedBreak := true }
      else do
        let (c, n) ← escape? rest
        let run ← doubleRun (rest.drop n) fuel
        return run.cons c (n + 1)
    | c :: rest =>
      if c == '"' || isGapChar c then some {}
      else (doubleRun rest fuel).map (Run.cons c 1)

/-- The rest of a quoted scalar, given its text so far. -/
def quotedFrom (quote : Char) (text : List Char) (c : Cursor) : Nat → Option Scanned
  | 0 => none
  | fuel + 1 => do
    if c.column == 0 && atDocumentMark c.rest then failure
    if c.rest.isEmpty then failure
    let run ← if quote == '\'' then some (singleRun c.rest)
      else doubleRun c.rest (c.rest.length + 1)
    let text := text ++ run.text
    let c := c.advance run.length
    if c.rest.head? == some quote then return { text, cursor := c.next }
    let gap := gapOf c.rest
    -- After an escaped line end nothing is folded into a space; empty lines still count.
    let folded := if run.escapedBreak then breaksIn gap else foldGap gap
    quotedFrom quote (text ++ folded) (c.advance gap.length) fuel

/-- Reads a quoted scalar from its quote on. -/
def readQuoted (quote : Char) (c : Cursor) : Option Scanned :=
  quotedFrom quote [] c.next (c.rest.length + 1)

/-! ### Blocks of lines -/

/-- What becomes of the line ends at the end of a block. -/
inductive Chomping where
  | strip
  | clip
  | keep
  deriving DecidableEq, Repr

/-- The header of a block: its chomping, its indentation relative to its parent if it is given, and
how many characters it takes. -/
structure BlockHeader where
  chomping : Chomping := .clip
  increment? : Option Nat := none
  length : Nat := 0
  deriving Repr

/-- The chomping that a character stands for. -/
def chomping? : Char → Option Chomping
  | '+' => some .keep
  | '-' => some .strip
  | _ => none

/-- Reads the header of a block. An indentation of zero is none. -/
def readHeader (cs : List Char) : Option BlockHeader :=
  match cs with
  | a :: rest =>
    match chomping? a, digitValue? a with
    | some chomping, _ =>
      match rest.head?.bind digitValue? with
      | some 0 => none
      | some n => some { chomping, increment? := some n, length := 2 }
      | none => some { chomping, length := 1 }
    | none, some 0 => none
    | none, some n =>
      match rest.head?.bind chomping? with
      | some chomping => some { chomping, increment? := some n, length := 2 }
      | none => some { increment? := some n, length := 1 }
    | none, none => some {}
  | [] => some {}

/-- Empty lines of a block before one that is not: the line ends, the indentation, which the first
line decides if it is not known, and where the line begins. -/
structure BlockGap where
  breaks : List Char
  indent : Nat
  cursor : Cursor
  deriving Repr

/-- Passes over empty lines. `widest` is the widest indentation among them so far, and `least` is
the least one that the block may have. A tab is no indentation. -/
def skipEmptyLines (indent? : Option Nat) (least widest : Nat) (breaks : List Char) (c : Cursor) :
    Nat → Option BlockGap
  | 0 => none
  | fuel + 1 =>
    let spaces := (c.rest.takeWhile (· == ' ')).length
    let c := match indent? with
      | some indent => c.advance (min spaces (indent - c.column))
      | none => c.advance spaces
    let widest := max widest c.column
    let unsettled := match indent? with
      | some indent => decide (c.column < indent)
      | none => true
    if unsettled && c.rest.head? == some '\t' then none
    else if c.rest.head?.any isBreak then
      let after := c.skipBreak
      let one := breaksIn (c.rest.take (c.rest.length - after.rest.length))
      skipEmptyLines indent? least widest (breaks ++ one) after fuel
    else some { breaks, indent := indent?.getD (max widest least), cursor := c }

/-- The lines of a block, given its text so far, the end of its last line, whether that line began
with a blank, and the empty lines since. -/
def blockLines (literal : Bool) (chomping : Chomping) (text ending : List Char) (blank : Bool)
    (gap : BlockGap) : Nat → Option Scanned
  | 0 => none
  | fuel + 1 =>
    let c := gap.cursor
    if c.column == gap.indent && !c.rest.isEmpty then do
      let startsBlank := c.rest.head?.any isSpace
      -- Two lines of a folded block are joined by a space, unless empty lines stand between them or
      -- one of them begins with a blank.
      let joined :=
        if !literal && ending == ['\n'] && !blank && !startsBlank then
          if gap.breaks.isEmpty then [' '] else []
        else ending
      let line := c.rest.takeWhile fun d => !isBreak d
      let c := c.advance line.length
      let after := c.skipBreak
      let ending := breaksIn (c.rest.take (c.rest.length - after.rest.length))
      let next ← skipEmptyLines (some gap.indent) 1 0 [] after (after.rest.length + 1)
      let text := text ++ joined ++ gap.breaks ++ line
      blockLines literal chomping text ending startsBlank next fuel
    else
      let ending := if chomping = .strip then [] else ending
      let trailing := if chomping = .keep then gap.breaks else []
      some { text := text ++ ending ++ trailing, cursor := c }

/-- Reads a block of lines from its mark on. `parent` is the column of what it belongs to, and `-1`
outside of everything. -/
def readBlock (literal : Bool) (parent : Int) (c : Cursor) : Option Scanned := do
  let c := c.next
  let header ← readHeader c.rest
  let c := (c.advance header.length).skipWhile isSpace
  let c := if c.rest.head? == some '#' then c.skipWhile fun d => !isBreak d else c
  if !(c.rest.isEmpty || c.rest.head?.any isBreak) then failure
  let c := c.skipBreak
  let indent? := header.increment?.map fun n => (max parent 0).toNat + n
  let gap ← skipEmptyLines indent? (max (parent + 1) 1).toNat 0 [] c (c.rest.length + 1)
  blockLines literal header.chomping [] [] false gap (c.rest.length + 1)

end EmailMarkup.Yaml
