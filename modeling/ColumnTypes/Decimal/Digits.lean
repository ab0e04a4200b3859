namespace ColumnTypes.Decimal

/-!
# Positional decimal text

The digits of a natural number, with a point set a given number of places
before the end. No exponent is ever written.
-/

/-- A leading zero stands before the point when the number has no whole part. -/
def withPoint (n places : Nat) : List Char :=
  let digits := Nat.toDigits 10 n
  let padded := List.replicate (places + 1 - digits.length) '0' ++ digits
  if places = 0 then padded
  else padded.take (padded.length - places) ++ '.' :: padded.drop (padded.length - places)

def positional (digits : Nat) (exponent : Int) : List Char :=
  if 0 ≤ exponent then Nat.toDigits 10 (digits * Nat.pow 10 exponent.toNat)
  else withPoint digits (-exponent).toNat

end ColumnTypes.Decimal
