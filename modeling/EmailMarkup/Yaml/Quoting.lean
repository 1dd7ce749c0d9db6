import EmailMarkup.Number.Numeral
import EmailMarkup.Yaml.Options

/-!
# How a text is written in YAML

A text is written plain if that would be read as the same text. It is quoted if it would be read as
something else, such as a number, or not at all; and a text of several lines is written as a block.
-/

namespace EmailMarkup.Yaml

open EmailMarkup.Number EmailMarkup.Text

/-! ### Texts that would be read as something else -/

/-- Whether characters are digits of a base that make a number of up to 128 bits. -/
def isWide (base : Nat) (digit? : Char → Option Nat) (negative : Bool) (cs : List Char) : Bool :=
  !cs.isEmpty && match numeral? base digit? 0 cs with
    | some n => if negative then n ≤ Nat.pow 2 127 else n < Nat.pow 2 128
    | none => false

/-- The value of a digit below a base. -/
def digitBelow? (base : Nat) (c : Char) : Option Nat :=
  (hexValue? c).filter (· < base)

/-- Whether a text without its sign is an integer in base 16, 8 or 2. -/
def isBasedInteger (negative : Bool) : List Char → Bool
  | '0' :: 'x' :: digits => isWide 16 (digitBelow? 16) negative digits
  | '0' :: 'o' :: digits => isWide 8 (digitBelow? 8) negative digits
  | '0' :: 'b' :: digits => isWide 2 (digitBelow? 2) negative digits
  | _ => false

/-- The decimal number that a whole text is, without a sign. -/
def decimal? (cs : List Char) : Option Numeral :=
  let whole := cs.takeWhile Char.isDigit
  let rest := cs.dropWhile Char.isDigit
  let (fraction, rest) := match rest with
    | '.' :: more => (more.takeWhile Char.isDigit, more.dropWhile Char.isDigit)
    | _ => ([], rest)
  let (exponentNegative, exponent, ended) := match rest with
    | [] => (false, [], true)
    | e :: more =>
      let (negative, digits) := takeSign more
      (negative, digits, (e == 'e' || e == 'E') && !digits.isEmpty && digits.all Char.isDigit)
  if ended && !(whole.isEmpty && fraction.isEmpty) then
    some { negative := false, whole, fraction, exponentNegative, exponent }
  else none

/-- Whether a text without its sign is a decimal number that is not too large. -/
def isDecimal (cs : List Char) : Bool :=
  ((decimal? cs).bind Numeral.toFloat?).any fun x => x - x == 0

/-- Whether a text is a number. -/
def isNumberText (s : String) : Bool :=
  let (negative, body) := takeSign s.toList
  isBasedInteger negative body || isDecimal body ||
    [".inf", ".Inf", ".INF"].contains (String.ofList body) || [".nan", ".NaN", ".NAN"].contains s

/-- Whether a plain text would be read as something else than a text. -/
def isAmbiguous (s : String) : Bool :=
  s.isEmpty || isNullWord s || (boolOfText? s).isSome || isNumberText s

/-! ### Texts that cannot be written in every way -/

/-- Whether a character is written as it is. -/
def isPrintable (c : Char) : Bool :=
  let n := c.toNat
  c == '\n' || (0x20 ≤ n && n ≤ 0x7E) || (0xA0 ≤ n && n ≤ 0xFFFD && n != 0xFEFF) || 0x10000 ≤ n

/-- Whether two characters of two kinds stand side by side in a text. -/
def haveNeighbours (p q : Char → Bool) : List Char → Bool
  | a :: b :: rest => (p a && q b) || haveNeighbours p q (b :: rest)
  | _ => false

/-- Whether a text has a mark in it, after its first character, that means something in a block: a
colon at the end of a word, or a number sign at the start of one. -/
def hasInnerMark : List Char → Bool
  | a :: b :: rest =>
    (b == ':' && endsWord rest) || (b == '#' && isGapChar a) || hasInnerMark (b :: rest)
  | _ => false

/-- Whether a text begins like a mark between documents. -/
def startsWithDivider : List Char → Bool
  | '-' :: '-' :: '-' :: _ => true
  | '.' :: '.' :: '.' :: _ => true
  | _ => false

/-- Whether a text begins with a mark that means something in a block. -/
def startsWithMark (cs : List Char) : Bool :=
  match cs with
  | [] => false
  | c :: rest =>
    "#,[]\x7b\x7d&*!|>'\"%@`".toList.contains c ||
      ((c == '?' || c == ':' || c == '-') && endsWord rest) || startsWithDivider cs

/-- Whether a character other than a tab is a blank within a line. -/
def isPlainSpace (c : Char) : Bool := c == ' '

/-- Whether a text may be written in double quotes only. -/
def needsEscapes (cs : List Char) : Bool :=
  !cs.all isPrintable || haveNeighbours isPlainSpace isBreak cs

/-- Whether a text begins or ends with a character of a kind. -/
def hasAtEdge (p : Char → Bool) (cs : List Char) : Bool :=
  cs.head?.any p || cs.getLast?.any p

/-- Whether a text may be written plain. -/
def allowsPlain (cs : List Char) : Bool :=
  !needsEscapes cs && !cs.any isBreak && !hasAtEdge isPlainSpace cs && !startsWithMark cs &&
    !hasInnerMark cs

/-- Whether a text may be written in single quotes. -/
def allowsSingle (cs : List Char) : Bool :=
  !needsEscapes cs && !haveNeighbours isBreak isPlainSpace cs

/-- Whether a text may be written as a block. -/
def allowsBlock (cs : List Char) : Bool :=
  !needsEscapes cs && !cs.getLast?.any isPlainSpace && !cs.isEmpty

/-! ### Writing -/

/-- A number of spaces. -/
def spaces (n : Nat) : List Char :=
  List.replicate n ' '

/-- Lines with an indentation: after the end of a line the next one begins further in, unless it is
empty. `fresh` says whether a line begins here. -/
def indented (indent : Nat) (fresh : Bool) : List Char → List Char
  | [] => []
  | c :: rest =>
    if isBreak c then c :: indented indent true rest
    else (if fresh then spaces indent else []) ++ c :: indented indent false rest

/-- A text in single quotes. The last quote counts as a part of the last line. -/
def singleQuoted (indent : Nat) (cs : List Char) : List Char :=
  let doubled := cs.flatMap fun c => if c == '\'' then ['\'', '\''] else [c]
  '\'' :: indented indent false (doubled ++ ['\''])

/-- A number of hexadecimal digits. -/
def hexDigits (digits n : Nat) : List Char :=
  (List.range digits).reverse.map fun k =>
    "0123456789ABCDEF".toList.getD (n / Nat.pow 16 k % 16) '0'

/-- Characters that have escapes of their own. -/
def shortEscapes : List (Char × Char) :=
  [('\x00', '0'), ('\x07', 'a'), ('\x08', 'b'), ('\t', 't'), ('\n', 'n'), ('\x0b', 'v'),
    ('\x0c', 'f'), ('\r', 'r'), ('\x1b', 'e'), ('"', '"'), ('\\', '\\'), ('\u0085', 'N'),
    ('\u00a0', '_'), ('\u2028', 'L'), ('\u2029', 'P')]

/-- A character in double quotes. -/
def doubleQuotedChar (c : Char) : List Char :=
  if isPrintable c && !isBreak c && c != '"' && c != '\\' then [c]
  else match shortEscapes.lookup c with
    | some letter => ['\\', letter]
    | none =>
      let n := c.toNat
      if n ≤ 0xFF then '\\' :: 'x' :: hexDigits 2 n
      else if n ≤ 0xFFFF then '\\' :: 'u' :: hexDigits 4 n
      else '\\' :: 'U' :: hexDigits 8 n

/-- A text in double quotes. -/
def doubleQuoted (cs : List Char) : List Char :=
  '"' :: cs.flatMap doubleQuotedChar ++ ['"']

/-- The header of a block for a text: an indentation if the text does not show it, and what becomes
of the line ends at its end. -/
def blockHeader (cs : List Char) : List Char :=
  -- A first line that begins with a blank does not show where the block begins.
  let indentation := if cs.head?.any fun c => c == ' ' || isBreak c then ['2'] else []
  let chomping := match cs.reverse with
    | [] => ['-']
    | [c] => if isBreak c then ['+'] else ['-']
    | c :: d :: _ => if !isBreak c then ['-'] else if isBreak d then ['+'] else []
  '|' :: indentation ++ chomping

/-- A text as a block of lines. -/
def blockText (indent : Nat) (cs : List Char) : List Char :=
  blockHeader cs ++ '\n' :: indented indent true cs

/-- A text as it is written, with what belongs to it on further lines indented. A key of a mapping
is not written as a block. -/
def quote (indent : Nat) (isKey : Bool) (s : String) : String :=
  let cs := s.toList
  String.ofList <|
    -- A text of several lines is a block wherever that is possible.
    if cs.contains '\n' then
      if allowsBlock cs && !isKey then blockText indent cs else doubleQuoted cs
    else if allowsPlain cs && !isAmbiguous s then cs
    else if allowsSingle cs then singleQuoted indent cs
    else doubleQuoted cs

end EmailMarkup.Yaml
