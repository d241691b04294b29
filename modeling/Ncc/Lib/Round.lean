import Mathlib

/-! Rounding to multiples, as offsets and sizes are rounded to an alignment. -/

namespace Ncc.Round

/-- The largest multiple of `b` up to `a`. -/
def roundDown (a b : ℕ) : ℕ := a / b * b

/-- The smallest multiple of `b` from `a` on. -/
def roundUp (a b : ℕ) : ℕ := (a + (b - 1)) / b * b

theorem dvd_roundDown (a b : ℕ) : b ∣ roundDown a b := Nat.dvd_mul_left _ _

theorem dvd_roundUp (a b : ℕ) : b ∣ roundUp a b := Nat.dvd_mul_left _ _

theorem roundDown_add_mod (a b : ℕ) : roundDown a b + a % b = a := by
  rw [roundDown, mul_comm]
  exact Nat.div_add_mod a b

/-- What is rounded down to the same multiple lies in the same stretch of length `b`. -/
theorem mod_add_lt_of_roundDown {a n b : ℕ} (hb : 0 < b) (h : roundDown a b = roundDown (a + n) b) :
    a % b + n < b := by
  have ha := roundDown_add_mod a b
  have hn := roundDown_add_mod (a + n) b
  have hlt := Nat.mod_lt (a + n) hb
  omega

theorem le_roundUp {b : ℕ} (hb : 0 < b) (a : ℕ) : a ≤ roundUp a b := by
  have hlt := Nat.lt_div_mul_add hb (a := a + (b - 1))
  rw [roundUp]
  omega

theorem roundUp_lt {b : ℕ} (hb : 0 < b) (a : ℕ) : roundUp a b < a + b := by
  have hle := Nat.div_mul_le_self (a + (b - 1)) b
  rw [roundUp]
  omega

/-- It is the smallest one. -/
theorem roundUp_le {a b c : ℕ} (hb : 0 < b) (hac : a ≤ c) (hc : b ∣ c) : roundUp a b ≤ c := by
  obtain ⟨k, rfl⟩ := hc
  have hk : roundUp a b < b * k + b := lt_of_lt_of_le (roundUp_lt hb a) (by omega)
  obtain ⟨j, hj⟩ := dvd_roundUp a b
  rw [hj, ← Nat.mul_succ] at hk
  rw [hj]
  exact Nat.mul_le_mul_left b (Nat.lt_succ_iff.mp (Nat.lt_of_mul_lt_mul_left hk))

end Ncc.Round
