/-!
# ASCII letters, digits and blanks

Markup, HTML and CSS compare names without regard to the case of ASCII letters and leave every
other character alone. This file holds that folding, the blanks that separate the parts of an
HTML tag, and the readers of whole numbers, which take ASCII digits only.

Core's `Char.isAlpha`, `Char.isDigit` and `Char.toLower` know ASCII only, which is what is wanted
here; the wider classes have modules of their own (`Text.Blank`, `Text.Digit`, `Text.Letter`).
-/

namespace EmailMarkup.Text

/-- A blank inside an HTML tag: space, tab, line feed, form feed or carriage return. -/
def isAsciiBlank (c : Char) : Bool :=
  c == ' ' || c == '\t' || c == '\n' || c == '\x0c' || c == '\r'

/-- Folds the ASCII capitals of a text to small letters. -/
def lowerChars (cs : List Char) : List Char :=
  cs.map Char.toLower

/-- Folds the ASCII capitals of a text to small letters. -/
def lower (s : String) : String :=
  String.ofList (lowerChars s.toList)

/-- Equality of names up to the case of ASCII letters. -/
def sameName (a b : String) : Bool :=
  lowerChars a.toList == lowerChars b.toList

/-- The value of a decimal digit, and nothing for another character. -/
def digitValue? (c : Char) : Option Nat :=
  if c.isDigit then some (c.toNat - '0'.toNat) else none

/-- The value of a hexadecimal digit of either case. -/
def hexValue? (c : Char) : Option Nat :=
  if c.isDigit then some (c.toNat - '0'.toNat)
  else if 'a' ≤ c ∧ c ≤ 'f' then some (c.toNat - 'a'.toNat + 10)
  else if 'A' ≤ c ∧ c ≤ 'F' then some (c.toNat - 'A'.toNat + 10)
  else none

/-- Reads a numeral in a base: every character has to be a digit of it. The empty text reads as the
number read so far. -/
def numeral? (base : Nat) (digit? : Char → Option Nat) : Nat → List Char → Option Nat
  | n, [] => some n
  | n, c :: cs => (digit? c).bind fun d => numeral? base digit? (n * base + d) cs

/-- A natural number below `limit`, written with at least one digit and perhaps a leading `+`. -/
def naturalIn? (base : Nat) (digit? : Char → Option Nat) (limit : Nat) (cs : List Char) :
    Option Nat :=
  let digits := match cs with
    | '+' :: rest => rest
    | _ => cs
  if digits.isEmpty then none
  else (numeral? base digit? 0 digits).filter (· < limit)

/-- A natural number below `limit` in decimal. -/
def natural? (limit : Nat) (cs : List Char) : Option Nat :=
  naturalIn? 10 digitValue? limit cs

/-- A natural number below `limit` in hexadecimal. -/
def hexadecimal? (limit : Nat) (cs : List Char) : Option Nat :=
  naturalIn? 16 hexValue? limit cs

/-- An integer from `-bound` up to, but not including, `bound`, with an optional sign. -/
def integer? (bound : Nat) (cs : List Char) : Option Int :=
  match cs with
  | '-' :: digits =>
    if digits.isEmpty then none
    -- The range reaches one further down than up.
    else ((numeral? 10 digitValue? 0 digits).filter (· ≤ bound)).map fun n => -(n : Int)
  | _ => (natural? bound cs).map fun n => (n : Int)

/-- An integer that fits a signed word of 64 bits. -/
def word64? (cs : List Char) : Option Int :=
  integer? (Nat.pow 2 63) cs

/-- An integer that fits a signed word of 32 bits. -/
def word32? (cs : List Char) : Option Int :=
  integer? (Nat.pow 2 31) cs

end EmailMarkup.Text
