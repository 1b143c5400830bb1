/-!
# The range of binary floating point

Decimal numerals that are larger than every finite double, by two rules. By the exact one, a numeral
is compared as a whole. By the factored one, its digits and the power of ten are rounded first, each on
its own, so that numerals close to the limit may fall on the other side of it. Both are computed
exactly.
-/

namespace CompactionLeasing.Text

/-- The least magnitude that rounds to no finite double: half a unit above the largest of them. -/
def floatLimit : Nat := Nat.pow 2 1024 - Nat.pow 2 970

/-- Whether `digits · 10 ^ exponent` rounds to no finite double. Only numbers of 309 digits before
the point need to be compared with the limit; the number of digits settles the others. -/
def exceedsFloat (digits : Nat) (exponent : Int) : Bool :=
  let width := (Nat.toDigits 10 digits).length + exponent
  if digits = 0 || width < 309 then false
  else if 309 < width then true
  else if 0 ≤ exponent then floatLimit ≤ digits * Nat.pow 10 exponent.toNat
  else floatLimit * Nat.pow 10 (-exponent).toNat ≤ digits

/-- The multiple of a unit that is nearest to a number; of two that are equally near, the even one. -/
def roundTo (unit n : Nat) : Nat :=
  let floor := n / unit
  let rest := 2 * (n % unit)
  if unit < rest ∨ (unit = rest ∧ floor % 2 = 1) then (floor + 1) * unit else floor * unit

/-- Rounding moves a number by half a unit at most. -/
theorem roundTo_near {unit : Nat} (h : 0 < unit) (n : Nat) :
    2 * n ≤ 2 * roundTo unit n + unit ∧ 2 * roundTo unit n ≤ 2 * n + unit := by
  have hn := Nat.div_add_mod' n unit
  have hr := Nat.mod_lt n h
  unfold roundTo
  dsimp only
  split
  · rw [Nat.add_mul]
    omega
  · omega

/-- The double that is nearest to a number, as far as doubles reach: one of 53 binary digits with zeros
after them. -/
def roundFloat (n : Nat) : Nat := roundTo (Nat.pow 2 (n.log2 - 52)) n

/-- Whether the product of the doubles of `digits` and `10 ^ exponent` is no finite double. With a
negative exponent the digits are divided, and stay in the range. -/
def exceedsFloatFactored (digits : Nat) (exponent : Int) : Bool :=
  if digits = 0 || exponent < 0 then false
  else if 308 < exponent then true
  else floatLimit ≤ roundFloat digits * roundFloat (Nat.pow 10 exponent.toNat)

end CompactionLeasing.Text
