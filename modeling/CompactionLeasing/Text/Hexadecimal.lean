/-!
# Hexadecimal numerals
-/

namespace CompactionLeasing.Text

def hexDigit? (c : Char) : Option Nat :=
  if '0' ≤ c ∧ c ≤ '9' then some (c.toNat - 48)
  else if 'a' ≤ c ∧ c ≤ 'f' then some (c.toNat - 87)
  else if 'A' ≤ c ∧ c ≤ 'F' then some (c.toNat - 55)
  else none

/-- The number that a row of hexadecimal digits denotes when it continues the digits of `acc`. -/
def hexFrom? (acc : Nat) : List Char → Option Nat
  | [] => some acc
  | c :: cs =>
    match hexDigit? c with
    | none => none
    | some d => hexFrom? (acc * 16 + d) cs

end CompactionLeasing.Text
