import EmailMarkup.Number.Shortest
import EmailMarkup.Text.Ascii
import EmailMarkup.Text.Blank
import EmailMarkup.Text.CodePoint

/-!
# Numbers at the start of a text

Layout values such as `10px` or `33.5%` begin with a number. A numeral is looked for with the
decimal digits of every script and is then read with ASCII digits alone: a numeral with a digit of
another script has no value.
-/

namespace EmailMarkup.Number

open EmailMarkup.Text

/-- A sign that may stand before the digits. -/
def takeSign : List Char → Bool × List Char
  | '-' :: cs => (true, cs)
  | '+' :: cs => (false, cs)
  | cs => (false, cs)

/-- A decimal numeral with its parts as written. -/
structure Numeral where
  negative : Bool
  whole : List Char
  fraction : List Char
  exponentNegative : Bool
  exponent : List Char

/-- An exponent: the letter, a sign and at least one digit. -/
def takeExponent (cs : List Char) : Bool × List Char :=
  match cs with
  | e :: rest =>
    if e == 'e' || e == 'E' then
      let (negative, digits) := takeSign rest
      -- Without digits there is no exponent, and an `e` begins the unit, as in `2em`.
      (negative, digits.takeWhile isDecimalDigit)
    else (false, [])
  | [] => (false, [])

/-- The numeral at the start of a text, after blanks: digits with an optional fraction, or a point
followed by digits. -/
def takeNumeral? (cs : List Char) : Option Numeral :=
  let (negative, body) := takeSign (trimLeft cs)
  let whole := body.takeWhile isDecimalDigit
  let rest := body.dropWhile isDecimalDigit
  -- A point that no digit follows is taken all the same, as in `10.px`.
  let (fraction, rest) := match rest with
    | '.' :: more => (more.takeWhile isDecimalDigit, more.dropWhile isDecimalDigit)
    | _ => ([], rest)
  if whole.isEmpty && fraction.isEmpty then none
  else
    let (exponentNegative, exponent) := takeExponent rest
    some { negative, whole, fraction, exponentNegative, exponent }

/-- The number nearest to `digits * 10 ^ exponent`. Exponents far out of range are settled without
computing the power: nothing above `10 ^ 310` is finite, and everything below `10 ^ -330` rounds
to zero. -/
def scaled (digits : Nat) (exponent : Int) : Float :=
  if digits = 0 then 0
  else
    let magnitude := ((digitsOf digits).length : Int) + exponent
    if 310 < magnitude then Float.ofBits 0x7FF0000000000000
    else if magnitude < -330 then 0
    else Float.ofScientific digits (decide (exponent < 0)) exponent.natAbs

/-- The value of a numeral, if all its digits are ASCII digits. -/
def Numeral.toFloat? (n : Numeral) : Option Float := do
  let digits ← numeral? 10 digitValue? 0 (n.whole ++ n.fraction)
  let size ← numeral? 10 digitValue? 0 n.exponent
  let exponent : Int := (if n.exponentNegative then -(size : Int) else size) - n.fraction.length
  let magnitude := scaled digits exponent
  return if n.negative then -magnitude else magnitude

/-- The number at the start of a text. -/
def leadingFloat? (s : String) : Option Float :=
  (takeNumeral? s.toList).bind Numeral.toFloat?

/-- The integer at the start of a text, after blanks: an optional sign and digits. It has to fit a
signed word of 64 bits. -/
def leadingInteger? (s : String) : Option Int :=
  let (negative, body) := takeSign (trimLeft s.toList)
  let digits := body.takeWhile isDecimalDigit
  if digits.isEmpty then none
  else word64? (if negative then '-' :: digits else digits)

end EmailMarkup.Number
