import ColumnTypes.Binary64
import ColumnTypes.Decimal.Digits
import ColumnTypes.Decimal.Shortest

namespace ColumnTypes.Binary64

/-!
# Text of double precision numbers

Either the shortest digits that read back, or a fixed number of decimals of the
exact value, a half going to the even last digit. The sign of zero is kept.
-/

def signText (x : Binary64) : List Char := if x.isNegative then ['-'] else []

def display (x : Binary64) : String :=
  match x.magnitude with
  | .nan => "NaN"
  | .infinite => String.ofList (x.signText ++ "inf".toList)
  | .finite 0 _ => String.ofList (x.signText ++ ['0'])
  | .finite mantissa exponent =>
      let (digits, place) := Decimal.shortest mantissa exponent
      String.ofList (x.signText ++ Decimal.positional digits place)

/-- The value in units of the last of `places` decimals, rounded. -/
def scaled (mantissa : Nat) (exponent : Int) (places : Nat) : Nat :=
  roundHalfEven (mantissa * Nat.pow 2 exponent.toNat * Nat.pow 10 places)
    (Nat.pow 2 (-exponent).toNat)

def fixed (places : Nat) (x : Binary64) : String :=
  match x.magnitude with
  | .finite mantissa exponent =>
      String.ofList (x.signText ++ Decimal.withPoint (scaled mantissa exponent places) places)
  | _ => x.display

end ColumnTypes.Binary64
