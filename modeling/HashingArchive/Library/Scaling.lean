import Mathlib

/-!
# Scaling the unit interval to a range of numbers

`scale n v` is the place of `v` among `0`, …, `n` when the unit interval is cut into `n + 1` equal parts, with what is
below or above the interval moved to its ends. Scaling keeps the order; and the order of two values shows in the
places as soon as `n` is large enough (`forall_scale_le_iff`).
-/

namespace HashingArchive.Library

def scale (n : ℕ) (v : ℚ) : ℕ := min n ⌊((n : ℚ) + 1) * v⌋₊

theorem scale_le (n : ℕ) (v : ℚ) : scale n v ≤ n := min_le_left _ _

theorem scale_mono (n : ℕ) {v w : ℚ} (h : v ≤ w) : scale n v ≤ scale n w := by
  have hn : (0 : ℚ) ≤ (n : ℚ) + 1 := by positivity
  exact min_le_min le_rfl (Nat.floor_mono (mul_le_mul_of_nonneg_left h hn))

/-- The clamp as a program does it: below zero, above `n`, and the whole part in between. -/
theorem clamp_eq_scale (n : ℕ) (v : ℚ) :
    (if ((n : ℚ) + 1) * v < 0 then 0 else if (n : ℚ) < ((n : ℚ) + 1) * v then n else ⌊((n : ℚ) + 1) * v⌋₊) =
      scale n v := by
  unfold scale
  split_ifs with hneg hlarge
  · rw [Nat.floor_of_nonpos hneg.le, Nat.min_zero]
  · exact (min_eq_left (Nat.le_floor hlarge.le)).symm
  · exact (min_eq_right (Nat.floor_le_of_le (not_lt.mp hlarge))).symm

theorem scale_of_one_le {n : ℕ} {v : ℚ} (h : 1 ≤ v) : scale n v = n := by
  refine min_eq_left (Nat.le_floor ?_)
  have hn : (0 : ℚ) ≤ n := n.cast_nonneg
  nlinarith

theorem scale_of_nonpos {n : ℕ} {v : ℚ} (h : v ≤ 0) : scale n v = 0 := by
  have hn : (0 : ℚ) ≤ (n : ℚ) + 1 := by positivity
  rw [scale, Nat.floor_of_nonpos (mul_nonpos_of_nonneg_of_nonpos hn h), Nat.min_zero]

/-- A value that is smaller, also after both are moved into the interval, gets a smaller place for some `n`. -/
theorem exists_scale_lt {v w : ℚ} (hw : 0 ≤ w) (hlt : w < v) (hone : w < 1) : ∃ n, scale n w < scale n v := by
  have hgap : 0 < min v 1 - w := sub_pos.mpr (lt_min hlt hone)
  obtain ⟨n, hn⟩ := exists_nat_gt (1 / (min v 1 - w))
  have hn1 : (0 : ℚ) < (n : ℚ) + 1 := by positivity
  have hstep : ((n : ℚ) + 1) * w + 1 < ((n : ℚ) + 1) * min v 1 := by
    rw [div_lt_iff₀ hgap] at hn
    nlinarith
  have hfloor : (⌊((n : ℚ) + 1) * w⌋₊ : ℚ) ≤ ((n : ℚ) + 1) * w := Nat.floor_le (by positivity)
  have hv : ((n : ℚ) + 1) * min v 1 ≤ ((n : ℚ) + 1) * v := mul_le_mul_of_nonneg_left (min_le_left _ _) hn1.le
  have hunit : ((n : ℚ) + 1) * min v 1 ≤ (n : ℚ) + 1 := by
    have hle := mul_le_mul_of_nonneg_left (min_le_right v 1) hn1.le
    rwa [mul_one] at hle
  refine ⟨n, (min_le_right _ _).trans_lt (lt_min ?_ ?_)⟩
  · have hlt' : (⌊((n : ℚ) + 1) * w⌋₊ : ℚ) < n := by linarith
    exact_mod_cast hlt'
  · refine Nat.lt_of_succ_le (Nat.le_floor ?_)
    push_cast
    linarith

theorem forall_scale_le_iff {v w : ℚ} (hw : 0 ≤ w) : (∀ n, scale n v ≤ scale n w) ↔ v ≤ w ∨ 1 ≤ w := by
  constructor
  · intro h
    by_contra hnot
    rw [not_or, not_le, not_le] at hnot
    obtain ⟨n, hn⟩ := exists_scale_lt hw hnot.1 hnot.2
    exact absurd (h n) (not_le.mpr hn)
  · intro h n
    rcases h with h | h
    · exact scale_mono n h
    · rw [scale_of_one_le h]
      exact scale_le n v

end HashingArchive.Library
