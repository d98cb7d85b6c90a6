/-
The binary floating-point format of sixty-four bits.

Only whole numbers are looked at: `roundToBinary64` is the number of the format that a
natural number rounds to, as long as that is within the range of the format, and
`overflowThreshold` is where the range ends.
-/

namespace ClassicalPlanning

/-- The number of bits of a significand. -/
def significandBits : Nat := 53

/-- The greatest power of ten within the range of the format. -/
def greatestDecimalExponent : Nat := 308

/-- The least number that rounds to infinity. -/
def overflowThreshold : Nat :=
  Nat.pow 2 1024 - Nat.pow 2 970

/-- The distance between neighbours of the format around `n`. -/
def binary64Unit (n : Nat) : Nat :=
  Nat.pow 2 (n.log2 + 1 - significandBits)

/-- The multiple of the unit that is nearest to `n`; of two that are equally near, the one
with the even significand. -/
def roundToBinary64 (n : Nat) : Nat :=
  let unit := binary64Unit n
  let significand := n / unit
  let rest := 2 * (n % unit)
  if rest < unit ∨ (rest = unit ∧ significand % 2 = 0) then unit * significand
  else unit * (significand + 1)

theorem binary64Unit_pos (n : Nat) : 0 < binary64Unit n :=
  Nat.pow_pos (by decide)

/-- Rounding moves a number by half a unit at most. -/
theorem roundToBinary64_near (n : Nat) :
    2 * n ≤ 2 * roundToBinary64 n + binary64Unit n ∧
      2 * roundToBinary64 n ≤ 2 * n + binary64Unit n := by
  have hdiv := Nat.div_add_mod n (binary64Unit n)
  have hmod := Nat.mod_lt n (binary64Unit_pos n)
  simp only [roundToBinary64]
  split
  next h => omega
  next h =>
    rw [Nat.mul_add, Nat.mul_one]
    omega

end ClassicalPlanning
