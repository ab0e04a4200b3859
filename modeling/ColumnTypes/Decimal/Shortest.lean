namespace ColumnTypes.Decimal

/-!
# Shortest decimals

Among the decimals that round to a given binary number, the one with the fewest
digits, and of those the nearest; a tie goes away from zero.
-/

/-- The numbers `low / unit … high / unit` that round to `middle / unit`, the two ends
included when `closed`. -/
structure RoundingInterval where
  low : Nat
  middle : Nat
  high : Nat
  unit : Nat
  closed : Bool

namespace RoundingInterval

def contains (i : RoundingInterval) (n d : Nat) : Bool :=
  if i.closed then i.low * d ≤ n * i.unit && n * i.unit ≤ i.high * d
  else i.low * d < n * i.unit && n * i.unit < i.high * d

/-- The interval of `mantissa * 2 ^ exponent`. Below a power of two the neighbours lie half as
far apart, the least exponent excepted. Everything is counted in quarters of the last place. -/
def ofBinary (mantissa : Nat) (exponent : Int) : RoundingInterval :=
  let scale := Nat.pow 2 exponent.toNat
  let below := if mantissa = 0x10000000000000 ∧ exponent ≠ -1074 then 1 else 2
  { low := (4 * mantissa - below) * scale
    middle := 4 * mantissa * scale
    high := (4 * mantissa + 2) * scale
    unit := 4 * Nat.pow 2 (-exponent).toNat
    closed := mantissa % 2 = 0 }

/-- The point of the grid of step `10 ^ step` that is chosen, counted in steps, if the interval
holds one of the two neighbours of its middle. -/
def onGrid (i : RoundingInterval) (step : Int) : Option Nat :=
  let up := Nat.pow 10 step.toNat
  let down := Nat.pow 10 (-step).toNat
  let num := i.middle * down
  let den := i.unit * up
  let floor := num / den
  let twice := 2 * (num % den)
  let lower := i.contains (floor * up) down
  let upper := i.contains ((floor + 1) * up) down
  if lower && !(upper && den ≤ twice) then some floor
  else if upper then some (floor + 1)
  else none

def search (i : RoundingInterval) : (tries : Nat) → (step : Int) → Nat × Int
  | 0, step => (i.middle * Nat.pow 10 (-step).toNat / (i.unit * Nat.pow 10 step.toNat), step)
  | tries + 1, step =>
      match i.onGrid step with
      | some n => (n, step)
      | none => i.search tries (step - 1)

end RoundingInterval

/-- A power of ten at or above which `num / den` has no whole digit, found from the lengths of both
numbers: starting one place too high does no harm. -/
def topPlace (num den : Nat) : Int :=
  (Nat.toDigits 10 num).length - (Nat.toDigits 10 den).length + 1

/-- The digits and the power of ten of the shortest decimal that rounds to
`mantissa * 2 ^ exponent`. Twenty grids hold more than the seventeen digits that always suffice. -/
def shortest (mantissa : Nat) (exponent : Int) : Nat × Int :=
  let i := RoundingInterval.ofBinary mantissa exponent
  i.search 20 (topPlace i.middle i.unit)

end ColumnTypes.Decimal
