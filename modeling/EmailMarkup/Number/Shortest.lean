import EmailMarkup.Number.Binary

/-!
# The shortest decimal that reads back

A double precision number stands for every real that rounds to it. Of the decimals in that
interval the text of a number is one with the fewest digits, and among those the nearest to the
value. The search goes from coarse to fine grids of multiples of a power of ten: the first grid
with a point in the interval has the fewest digits, and if it has any point there, then one of
the two neighbours of the value is one.

Numbers are written positionally, without an exponent and without a fraction of zeros.
-/

namespace EmailMarkup.Number

/-- The reals that round to one number, as numerators over a common `unit`. The ends belong to the
interval when the mantissa is even. -/
structure Interval where
  lower : Nat
  value : Nat
  upper : Nat
  unit : Nat
  closed : Bool

/-- The interval of `mantissa * 2 ^ exponent`: half a step to each side, but only a quarter of a
step below a power of two, where the steps become finer. -/
def interval (mantissa : Nat) (exponent : Int) : Interval :=
  -- The smallest normal number is followed downward by numbers spaced as widely as itself.
  let below := if mantissa = Nat.pow 2 52 ∧ -1074 < exponent then 1 else 2
  let quarter := exponent - 2
  let scale := if 0 ≤ quarter then Nat.pow 2 quarter.toNat else 1
  { lower := (4 * mantissa - below) * scale
    value := 4 * mantissa * scale
    upper := (4 * mantissa + 2) * scale
    unit := if 0 ≤ quarter then 1 else Nat.pow 2 (-quarter).toNat
    closed := mantissa % 2 == 0 }

/-- Whether a point, given as a numerator, lies in the interval. -/
def Interval.holds (i : Interval) (point : Nat) : Bool :=
  if i.closed then i.lower ≤ point && point ≤ i.upper
  else i.lower < point && point < i.upper

/-- The same interval over the unit of the grid of multiples of `10 ^ grid`. -/
def Interval.onGrid (i : Interval) (grid : Int) : Interval :=
  if 0 ≤ grid then { i with unit := i.unit * Nat.pow 10 grid.toNat }
  else
    let finer := Nat.pow 10 (-grid).toNat
    { i with lower := i.lower * finer, value := i.value * finer, upper := i.upper * finer }

/-- The point of the unit's grid that is nearest to the value among those in the interval. Of two
points equally near, the upper one. -/
def Interval.nearest? (i : Interval) : Option Nat :=
  let k := i.value / i.unit
  let low := k * i.unit
  let high := (k + 1) * i.unit
  match i.holds low, i.holds high with
  -- Both neighbours read back as the value, and have the same number of places.
  | true, true => some (if i.value - low < high - i.value then k else k + 1)
  | true, false => some k
  | false, true => some (k + 1)
  | false, false => none

/-- The digits and the grid of the first hit, from the grid `10 ^ grid` downward. -/
def coarsest (i : Interval) : Nat → Int → Nat × Int
  | 0, grid => ((i.onGrid grid).value / (i.onGrid grid).unit, grid)
  | steps + 1, grid =>
    match (i.onGrid grid).nearest? with
    | some digits => (digits, grid)
    | none => coarsest i steps (grid - 1)

/-- The decimal digits of a natural number. -/
def digitsOf (n : Nat) : List Char :=
  Nat.toDigits 10 n

/-- The shortest decimal `digits * 10 ^ grid` for a positive value. The search starts above the
value and needs no grid finer than the value's own last bit. -/
def shortest (mantissa : Nat) (exponent : Int) : Nat × Int :=
  let start := (digitsOf (wholePart mantissa exponent)).length
  coarsest (interval mantissa exponent) (start + 1080) start

/-- Writes `digits * 10 ^ grid` positionally. -/
def positional (digits : Nat) (grid : Int) : List Char :=
  let ds := digitsOf digits
  if 0 ≤ grid then ds ++ List.replicate grid.toNat '0'
  else
    let places := (-grid).toNat
    -- There is always a digit before the point.
    let padded := List.replicate (places + 1 - ds.length) '0' ++ ds
    padded.take (padded.length - places) ++ '.' :: padded.drop (padded.length - places)

/-- The text of a number: fewest digits, positional, with the sign of a negative zero. -/
def text (x : Float) : String :=
  match parts x with
  | .notANumber => "NaN"
  | .infinite negative => if negative then "-inf" else "inf"
  | .finite negative mantissa exponent =>
    let digits :=
      if mantissa = 0 then ['0']
      else
        let (digits, grid) := shortest mantissa exponent
        positional digits grid
    String.ofList (if negative then '-' :: digits else digits)

/-- The text of an integer. -/
def integerText (n : Int) : String :=
  match n with
  | .ofNat k => String.ofList (digitsOf k)
  | .negSucc k => String.ofList ('-' :: digitsOf (k + 1))

/-- The text of a natural number. -/
def naturalText (n : Nat) : String :=
  String.ofList (digitsOf n)

end EmailMarkup.Number
