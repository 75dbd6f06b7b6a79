import Mathlib

/-!
# Division by multiplication

A multiplier `m` just above `P / d` divides by `d`: `m * n / P = n / d` for every `n < W`, as long as `m * d` is above
`P` by at most a `W`-th part of `P` (`Magic.mul_div`). The multiplier of choice is `P / d + 1`, whose excess is what the
remainder lacks to `d` (`magic_succ`). It is computed for `P` or, from quotient and remainder, for `2 * P`
(`two_mul_div`), and it still knows the divisor (`div_succ_div`). Powers of two are the numbers that share no bit with
their predecessor (`and_sub_one_eq_zero_iff`).
-/

namespace HashingArchive.Library

/-- The product with `m`, divided by `P`, is the quotient by `d` of every number below `W`. -/
structure Magic (W P d m : ℕ) : Prop where
  le : P ≤ m * d
  excess : (m * d - P) * W ≤ P

theorem Magic.mul_div {W P d m n : ℕ} (h : Magic W P d m) (hP : 0 < P) (hd : 0 < d) (hn : n < W) :
    m * n / P = n / d := by
  obtain ⟨e, he⟩ := Nat.exists_eq_add_of_le h.le
  have hexcess : e * W ≤ P := by
    have := h.excess
    rwa [he, Nat.add_sub_cancel_left] at this
  have hsmall : e * n < P := by
    rcases Nat.eq_zero_or_pos e with rfl | hpos
    · rwa [Nat.zero_mul]
    · exact (Nat.mul_lt_mul_of_pos_left hn hpos).trans_le hexcess
  have hlow : n / d * d ≤ n := Nat.div_mul_le_self n d
  have hup : n + 1 ≤ (n / d + 1) * d := Nat.lt_mul_of_div_lt (Nat.lt_succ_self _) hd
  apply Nat.div_eq_of_lt_le
  · calc n / d * P ≤ n / d * (m * d) := Nat.mul_le_mul_left _ h.le
      _ = m * (n / d * d) := by ring
      _ ≤ m * n := Nat.mul_le_mul_left m hlow
  · refine Nat.lt_of_mul_lt_mul_right (a := d) ?_
    calc m * n * d = P * n + e * n := by rw [Nat.mul_right_comm, he, Nat.add_mul]
      _ < P * (n + 1) := by rw [Nat.mul_add_one]; exact Nat.add_lt_add_left hsmall _
      _ ≤ P * ((n / d + 1) * d) := Nat.mul_le_mul_left P hup
      _ = (n / d + 1) * P * d := by ring

section
variable {P d : ℕ} (hd : 0 < d)
include hd

/-- The multiplier above the quotient exceeds `P` by what the remainder lacks to the divisor. -/
theorem succ_div_mul (P : ℕ) : (P / d + 1) * d = P + (d - P % d) := by
  have hsplit := Nat.div_add_mod P d
  have hlt := Nat.mod_lt P hd
  rw [Nat.add_mul, Nat.one_mul, Nat.mul_comm]
  omega

theorem magic_succ {W : ℕ} (h : (d - P % d) * W ≤ P) : Magic W P d (P / d + 1) where
  le := by
    rw [succ_div_mul hd]
    exact Nat.le_add_right _ _
  excess := by
    rwa [succ_div_mul hd, Nat.add_sub_cancel_left]

/-- The quotient of twice as much, from quotient and remainder. -/
theorem two_mul_div (P : ℕ) : 2 * P / d = 2 * (P / d) + if d ≤ 2 * (P % d) then 1 else 0 := by
  have hlt := Nat.mod_lt P hd
  have hsplit : 2 * P = 2 * (P % d) + d * (2 * (P / d)) := by
    calc 2 * P = 2 * (d * (P / d) + P % d) := by rw [Nat.div_add_mod]
      _ = 2 * (P % d) + d * (2 * (P / d)) := by ring
  have hdigit : 2 * (P % d) / d = if d ≤ 2 * (P % d) then 1 else 0 := by
    split_ifs with hle
    · exact Nat.div_eq_of_lt_le (by omega) (by omega)
    · exact Nat.div_eq_of_lt (by omega)
  rw [hsplit, Nat.add_mul_div_left _ _ hd, hdigit, Nat.add_comm]

/-- The multiplier knows the divisor, if the divisor is not too large for it. -/
theorem div_succ_div (h : d - P % d ≤ P / d + 1) : P / (P / d + 1) + 1 = d := by
  have hmul := succ_div_mul hd P
  have hlt := Nat.mod_lt P hd
  have hquot : P / (P / d + 1) = d - 1 := by
    apply Nat.div_eq_of_lt_le
    · calc (d - 1) * (P / d + 1) = (P / d + 1) * d - (P / d + 1) := by
            rw [Nat.sub_mul, Nat.one_mul, Nat.mul_comm]
        _ ≤ P := by omega
    · rw [Nat.sub_add_cancel hd, Nat.mul_comm, hmul]
      omega
  omega

end

/-- Half a sum, without the sum. -/
theorem half_add {n q : ℕ} (h : q ≤ n) : (n - q) / 2 + q = (n + q) / 2 := by omega

/-! ### Powers of two -/

theorem testBit_of_log {d k : ℕ} (hlow : 2 ^ k ≤ d) (hup : d < 2 ^ (k + 1)) : d.testBit k = true := by
  have hdiv : d / 2 ^ k = 1 := by
    rw [Nat.pow_succ'] at hup
    exact Nat.div_eq_of_lt_le (by omega) (by omega)
  rw [Nat.testBit_eq_decide_div_mod_eq, hdiv]
  rfl

theorem and_sub_one_eq_zero_iff {d k : ℕ} (hlow : 2 ^ k ≤ d) (hup : d < 2 ^ (k + 1)) :
    d &&& (d - 1) = 0 ↔ d = 2 ^ k := by
  constructor
  · intro hzero
    by_contra hne
    have hbit : (d &&& (d - 1)).testBit k = true := by
      rw [Nat.testBit_and, testBit_of_log hlow hup, testBit_of_log (by omega) (by omega), Bool.and_self]
    rw [hzero, Nat.zero_testBit] at hbit
    exact Bool.false_ne_true hbit
  · rintro rfl
    rw [Nat.and_two_pow_sub_one_eq_mod, Nat.mod_self]

end HashingArchive.Library
