namespace ColumnTypes.Text

/-!
# Counts

A count is written with ASCII digits, a plus sign allowed in front. It is read as
a 64-bit number.
-/

def digit? (c : Char) : Option Nat :=
  if '0' ≤ c ∧ c ≤ '9' then some (c.toNat - '0'.toNat) else none

def digits? : List Char → Nat → Option Nat
  | [], acc => some acc
  | c :: cs, acc => (digit? c).bind fun d => digits? cs (10 * acc + d)

def unsigned (cs : List Char) : List Char :=
  match cs with
  | '+' :: rest => rest
  | _ => cs

def count? (cs : List Char) : Option Nat :=
  match unsigned cs with
  | [] => none
  | ds => (digits? ds 0).filter (· < UInt64.size)

end ColumnTypes.Text
