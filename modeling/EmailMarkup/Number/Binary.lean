/-!
# Double precision numbers taken apart

Widths are double precision numbers. Printing them and cutting off their fractions both start from
the exact value `mantissa * 2 ^ exponent`, which `parts` reads off the bits; everything after
that is arithmetic on `Nat` and `Int`.
-/

namespace EmailMarkup.Number

/-- The largest magnitude a signed word of 64 bits reaches on its negative side. -/
def wordBound : Nat := Nat.pow 2 63

/-- Two signed words of 64 bits that are added up. -/
structure Addends where
  first : Int
  second : Int
  deriving DecidableEq, Repr

/-- The sum as a word. Past either end of the range it goes on from the other end. -/
def Addends.sum (a : Addends) : Int :=
  (Int64.ofInt a.first + Int64.ofInt a.second).toInt

/-- Whether the sum is in the range of words, so that it does not wrap around. -/
def Addends.fit (a : Addends) : Bool :=
  -(wordBound : Int) ≤ a.first + a.second && a.first + a.second < wordBound

/-- What the bits of a double precision number say. -/
inductive Parts where
  | notANumber
  | infinite (negative : Bool)
  /-- The value `mantissa * 2 ^ exponent`, with its sign. -/
  | finite (negative : Bool) (mantissa : Nat) (exponent : Int)

/-- Takes a number apart. Numbers whose exponent field is zero have no hidden leading bit. -/
def parts (x : Float) : Parts :=
  let bits := x.toBits.toNat
  let negative := decide (Nat.pow 2 63 ≤ bits)
  let biased : Nat := bits / Nat.pow 2 52 % Nat.pow 2 11
  let fraction := bits % Nat.pow 2 52
  if biased = 2047 then
    if fraction = 0 then .infinite negative else .notANumber
  -- The numbers next to zero are all spaced by the smallest step.
  else if biased = 0 then .finite negative fraction (-1074)
  else .finite negative (fraction + Nat.pow 2 52) ((biased : Int) - 1075)

/-- The whole part of `mantissa * 2 ^ exponent`. -/
def wholePart (mantissa : Nat) (exponent : Int) : Nat :=
  if 0 ≤ exponent then mantissa * Nat.pow 2 exponent.toNat
  else mantissa / Nat.pow 2 (-exponent).toNat

/-- Cuts off the fraction, toward zero. A negative fraction leaves a negative zero. -/
def truncate (x : Float) : Float :=
  match parts x with
  | .finite negative mantissa exponent =>
    if 0 ≤ exponent then x
    else
      let whole := Float.ofNat (wholePart mantissa exponent)
      if negative then -whole else whole
  | _ => x

/-- The nearest signed word of 64 bits to the whole part: values out of range stop at the ends, and
what is not a number counts as zero. -/
def toWord (x : Float) : Int :=
  match parts x with
  | .notANumber => 0
  | .infinite true => -(wordBound : Int)
  | .infinite false => (wordBound : Int) - 1
  | .finite negative mantissa exponent =>
    let whole := wholePart mantissa exponent
    if negative then -((min whole wordBound : Nat) : Int)
    else ((min whole (wordBound - 1) : Nat) : Int)

/-- The number itself when it is positive, and zero otherwise. -/
def atLeastZero (x : Float) : Float :=
  if 0 < x then x else 0

/-- The smaller of two numbers; next to what is not a number, the other one. -/
def lesser (a b : Float) : Float :=
  if a < b || b != b then a else b

end EmailMarkup.Number
