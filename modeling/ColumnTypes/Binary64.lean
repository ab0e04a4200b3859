import ColumnTypes.Rounding

namespace ColumnTypes

/-!
# Double precision numbers

A number is its sixty-four bits, so that payloads and signed zeros are never
lost. A finite one is `mantissa * 2 ^ exponent` up to its sign.
-/

structure Binary64 where
  bits : UInt64
deriving DecidableEq, Inhabited

namespace Binary64

inductive Magnitude where
  | nan
  | infinite
  | finite (mantissa : Nat) (exponent : Int)
deriving DecidableEq

def signWeight : Nat := 0x8000000000000000

def exponentWeight : Nat := 0x10000000000000

def isNegative (x : Binary64) : Bool := signWeight ≤ x.bits.toNat

/-- The bits without the sign. On numbers of one sign they grow with the magnitude. -/
def absBits (x : Binary64) : Nat := x.bits.toNat % signWeight

def exponentField (x : Binary64) : Nat := x.absBits / exponentWeight

def fractionField (x : Binary64) : Nat := x.absBits % exponentWeight

def magnitude (x : Binary64) : Magnitude :=
  if x.exponentField = 2047 then
    if x.fractionField = 0 then .infinite else .nan
  else if x.exponentField = 0 then .finite x.fractionField (-1074)
  else .finite (exponentWeight + x.fractionField) (x.exponentField - 1075)

/-- Position in the total order of all bit patterns: negative numbers by falling
magnitude, then the others by rising magnitude. -/
def position (x : Binary64) : Int :=
  if x.isNegative then -(x.absBits : Int) - 1 else x.absBits

/-- The bits of the number nearest to `n` that is not above `2 ^ 1023`, a tie going to
the even mantissa. A mantissa that rounds up to `2 ^ 53` carries into the exponent. -/
def natBits (n : Nat) : Nat :=
  if n = 0 then 0
  else
    let top := n.log2
    (top + 1022) * exponentWeight + roundHalfEven (n * exponentWeight) (Nat.pow 2 top)

def ofInt (i : Int) : Binary64 :=
  ⟨UInt64.ofNat ((if i < 0 then signWeight else 0) + natBits i.natAbs)⟩

end Binary64

end ColumnTypes
