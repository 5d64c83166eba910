/-
Quotients with a fixed number of places.

A quotient is rounded to the nearest point of the grid, and to the even one where two
are equally near.
-/

set_option autoImplicit false

namespace CodeAtlas.Decimal

/-- `num / den`, rounded to the nearest number, a half to the even neighbour. -/
def roundDiv (num den : Nat) : Nat :=
  let below := num / den
  let rest := num % den
  if 2 * rest < den then below
  else if den < 2 * rest then below + 1
  else below + below % 2

/-- The number with its lowest bits rounded away, so that fifty-three are left. -/
def toFiftyThreeBits (n : Nat) : Nat :=
  let shift := n.log2 - 52
  roundDiv n (Nat.pow 2 shift) * Nat.pow 2 shift

/-- `num / den` with one place. -/
def onePlace (num den : Nat) : String :=
  let tenths := roundDiv (10 * num) den
  toString (tenths / 10) ++ "." ++ toString (tenths % 10)

/-- The rounded quotient is at most half a unit away from the exact one. -/
theorem roundDiv_near {num den : Nat} (h : 0 < den) :
    2 * (roundDiv num den * den) ≤ 2 * num + den ∧
      2 * num ≤ 2 * (roundDiv num den * den) + den := by
  have hm := Nat.div_add_mod num den
  have hc : den * (num / den) = num / den * den := Nat.mul_comm _ _
  have hlt := Nat.mod_lt num h
  simp only [roundDiv]
  split
  · omega
  · split
    · rw [Nat.add_mul]
      omega
    · rcases Nat.mod_two_eq_zero_or_one (num / den) with h2 | h2 <;> rw [h2]
      · simp only [Nat.add_zero]
        omega
      · rw [Nat.add_mul]
        omega

end CodeAtlas.Decimal
