namespace ColumnTypes.Text

/-!
# Hexadecimal digits

Written in lower case, read in either case.
-/

def hexDigit? (c : Char) : Option Nat :=
  if '0' ≤ c ∧ c ≤ '9' then some (c.toNat - '0'.toNat)
  else if 'a' ≤ c ∧ c ≤ 'f' then some (c.toNat - 'a'.toNat + 10)
  else if 'A' ≤ c ∧ c ≤ 'F' then some (c.toNat - 'A'.toNat + 10)
  else none

theorem hexDigit?_digitChar (n : Fin 16) : hexDigit? (Nat.digitChar n.val) = some n.val := by
  revert n
  decide

end ColumnTypes.Text
