import Mathlib

/-!
# Long division with two digits

The next digit of a quotient is estimated from the leading digit of the divisor alone. With `u` the dividend so far,
`d` its next digit and `v1 * b + v0` the divisor, the estimate `u / v1` is never too small (`digit_le_estimate`) and
for a divisor whose leading digit is at least half the base too large by two at most (`estimate_le`). An estimate `q`
with remainder `r` is too large exactly if `q * v0` exceeds `b * r + d` (`digit_lt`, `le_digit`).

The upper half of a product comes from the products of the halves (`mul_div_square`). A double word is divided by a
double word with half of the dividend and the leading word of the divisor (`half_estimate`): that estimate is right or
too large by one.
-/

namespace HashingArchive.Library.LongDivision

/-! ### One digit -/

section
variable {b v1 v0 u d q r : ℕ} (hsplit : q * v1 + r = u)
include hsplit

/-- The product with the estimate, digit by digit. -/
theorem mul_divisor (b v0 : ℕ) : q * (v1 * b + v0) + b * r = u * b + q * v0 := by
  calc q * (v1 * b + v0) + b * r = (q * v1 + r) * b + q * v0 := by ring
    _ = u * b + q * v0 := by rw [hsplit]

/-- An estimate that fails the test is too large. -/
theorem digit_lt (hv : 0 < v1 * b + v0) (h : b * r + d < q * v0) : (u * b + d) / (v1 * b + v0) < q := by
  have hmul := mul_divisor hsplit b v0
  rw [Nat.div_lt_iff_lt_mul hv]
  omega

/-- An estimate that passes it is not. -/
theorem le_digit (hv : 0 < v1 * b + v0) (h : q * v0 ≤ b * r + d) : q ≤ (u * b + d) / (v1 * b + v0) := by
  have hmul := mul_divisor hsplit b v0
  rw [Nat.le_div_iff_mul_le hv]
  omega

end

theorem digit_le_estimate {b v1 : ℕ} (v0 u : ℕ) {d : ℕ} (hv1 : 0 < v1) (hd : d < b) :
    (u * b + d) / (v1 * b + v0) ≤ u / v1 := by
  have hb : 0 < b := Nat.zero_lt_of_lt hd
  calc (u * b + d) / (v1 * b + v0) ≤ (u * b + d) / (v1 * b) :=
        Nat.div_le_div_left (Nat.le_add_right _ _) (Nat.mul_pos hv1 hb)
    _ = u / v1 := by
        rw [Nat.mul_comm v1, ← Nat.div_div_eq_div_mul, Nat.mul_comm u, Nat.mul_add_div hb, Nat.div_eq_of_lt hd,
          Nat.add_zero]

section
variable {b v1 v0 u d : ℕ} (hu : u < v1 * b + v0)
include hu

/-- A quotient digit is a digit. -/
theorem digit_lt_base (hd : d < b) : (u * b + d) / (v1 * b + v0) < b := by
  rw [Nat.div_lt_iff_lt_mul (by omega)]
  calc u * b + d < (u + 1) * b := by rw [Nat.add_one_mul]; exact Nat.add_lt_add_left hd _
    _ ≤ b * (v1 * b + v0) := by rw [Nat.mul_comm]; exact Nat.mul_le_mul_left b hu

theorem estimate_le (hv0 : v0 < b) (hhalf : b ≤ 2 * v1) : u / v1 ≤ b + 1 := by
  have hv1 : 0 < v1 := by omega
  rw [← Nat.lt_succ_iff, Nat.div_lt_iff_lt_mul hv1]
  calc u < v1 * b + v0 := hu
    _ ≤ v1 * b + 2 * v1 := by omega
    _ = (b + 1 + 1) * v1 := by ring

end

/-! ### Two digits -/

section
variable {b v u d1 d0 : ℕ}

/-- The dividend without its first quotient digit. -/
theorem two_digits_eq :
    u * (b * b) + d1 * b + d0 = ((u * b + d1) % v * b + d0) + v * ((u * b + d1) / v * b) := by
  calc u * (b * b) + d1 * b + d0 = (v * ((u * b + d1) / v) + (u * b + d1) % v) * b + d0 := by
        rw [Nat.div_add_mod]
        ring
    _ = ((u * b + d1) % v * b + d0) + v * ((u * b + d1) / v * b) := by ring

theorem two_digits_div (hv : 0 < v) :
    (u * (b * b) + d1 * b + d0) / v = (u * b + d1) / v * b + ((u * b + d1) % v * b + d0) / v := by
  rw [two_digits_eq, Nat.add_mul_div_left _ _ hv, Nat.add_comm]

theorem two_digits_mod : (u * (b * b) + d1 * b + d0) % v = ((u * b + d1) % v * b + d0) % v := by
  rw [two_digits_eq, Nat.add_mul_mod_self_left]

end

/-- The upper half of a product of two digits by two, from the four products of their digits. -/
theorem mul_div_square {b x1 x0 y1 y0 : ℕ} (hb : 0 < b) : (x1 * b + x0) * (y1 * b + y0) / (b * b) =
    x1 * y1 + (x1 * y0 + x0 * y0 / b) / b + ((x1 * y0 + x0 * y0 / b) % b + x0 * y1) / b := by
  have hfirst : (x1 * b + x0) * (y1 * b + y0) / b = x1 * y1 * b + (x1 * y0 + x0 * y0 / b) + x0 * y1 := by
    have hsplit : (x1 * b + x0) * (y1 * b + y0) = (x1 * y1 * b + x1 * y0 + x0 * y1) * b + x0 * y0 := by ring
    rw [hsplit, Nat.add_comm, Nat.add_mul_div_right _ _ hb]
    ring
  have hsecond : x1 * y1 * b + (x1 * y0 + x0 * y0 / b) + x0 * y1 =
      ((x1 * y0 + x0 * y0 / b) % b + x0 * y1) + (x1 * y1 + (x1 * y0 + x0 * y0 / b) / b) * b := by
    have hdigit := Nat.div_add_mod (x1 * y0 + x0 * y0 / b) b
    rw [Nat.add_mul, Nat.mul_comm (_ / b) b]
    omega
  rw [← Nat.div_div_eq_div_mul, hfirst, hsecond, Nat.add_mul_div_right _ _ hb, Nat.add_comm]

/-! ### Double words -/

/-- The quotient by the leading word `v1` of `v1 * K + rest`, put in place, is right or too large by one. -/
theorem half_estimate {B K v1 rest u : ℕ} (hrest : rest < K) (hv1 : B ≤ v1) (hu : u < 4 * (B * B)) :
    u / (v1 * K) ≤ u / (v1 * K + rest) + 1 := by
  have hB : 0 < B := by
    by_contra h
    rw [Nat.eq_zero_of_not_pos h] at hu
    omega
  have hpos : 0 < v1 * K := Nat.mul_pos (hB.trans_le hv1) (by omega)
  have hup : u < (u / (v1 * K + rest) + 1) * (v1 * K + rest) := Nat.lt_mul_of_div_lt (Nat.lt_succ_self _) (by omega)
  generalize u / (v1 * K + rest) = q at hup ⊢
  refine Nat.le_of_lt_succ ((Nat.div_lt_iff_lt_mul hpos).mpr (?_ : u < (q + 2) * (v1 * K)))
  by_contra hge
  obtain ⟨k, rfl⟩ : ∃ k, K = k + 1 := ⟨K - 1, by omega⟩
  -- Two more than the quotient would need a dividend with more than two words.
  have hlarge : (q + 2) * (k + 1) < 4 * B := by
    refine Nat.lt_of_mul_lt_mul_right (a := B) ?_
    calc (q + 2) * (k + 1) * B = (q + 2) * (B * (k + 1)) := by ring
      _ ≤ (q + 2) * (v1 * (k + 1)) := Nat.mul_le_mul_left _ (Nat.mul_le_mul_right _ hv1)
      _ ≤ u := not_lt.mp hge
      _ < 4 * B * B := by rwa [Nat.mul_assoc]
  have hsmall : B * (k + 1) < (q + 1) * k := by
    have hle : B * (k + 1) ≤ v1 * (k + 1) := Nat.mul_le_mul_right _ hv1
    have hrest' : (q + 1) * rest ≤ (q + 1) * k := Nat.mul_le_mul_left _ (by omega)
    rw [Nat.mul_add] at hup
    have hsum : (q + 2) * (v1 * (k + 1)) = (q + 1) * (v1 * (k + 1)) + v1 * (k + 1) := by ring
    omega
  have hsquare : 4 * k * 1 ≤ (k + 1) ^ 2 := four_mul_le_sq_add k 1
  have hle : (q + 2) * (4 * k) ≤ (q + 2) * ((k + 1) * (k + 1)) := by
    apply Nat.mul_le_mul_left
    rwa [Nat.mul_one, Nat.pow_two] at hsquare
  have hlt : (q + 2) * ((k + 1) * (k + 1)) < (q + 2) * (4 * k) := by
    calc (q + 2) * ((k + 1) * (k + 1)) = (q + 2) * (k + 1) * (k + 1) := by ring
      _ ≤ 4 * B * (k + 1) := Nat.mul_le_mul_right _ hlarge.le
      _ = 4 * (B * (k + 1)) := by ring
      _ < 4 * ((q + 1) * k) := by omega
      _ = (q + 1) * (4 * k) := by ring
      _ ≤ (q + 2) * (4 * k) := Nat.mul_le_mul_right _ (by omega)
  omega

end HashingArchive.Library.LongDivision
