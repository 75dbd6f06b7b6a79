import Mathlib

/-!
# Squeezing a range of numbers into a smaller one

`x ↦ x * N / W` maps `0`, …, `W - 1` to `0`, …, `N - 1`. The numbers that go to `r` are those between two multiples
of `W / N`, rounded up (`mul_div_eq_iff`), so they are as many for every `r`, but for one (`card_fiber_le_succ`). If
`N ≤ W` no `r` is left out on the way up to the image of any `x` (`exists_mul_div_eq`).
-/

namespace HashingArchive.Library

section
variable {W N : ℕ} (hN : 0 < N)
include hN

theorem mul_div_lt (hW : 0 < W) {x : ℕ} (hx : x < W) : x * N / W < N := by
  rw [Nat.div_lt_iff_lt_mul hW, Nat.mul_comm N W]
  exact Nat.mul_lt_mul_of_pos_right hx hN

theorem mul_div_eq_iff (hW : 0 < W) (x r : ℕ) :
    x * N / W = r ↔ r * W ⌈/⌉ N ≤ x ∧ x < (r + 1) * W ⌈/⌉ N := by
  rw [Nat.div_eq_iff hW, ceilDiv_le_iff_le_mul hN, ← not_le, ceilDiv_le_iff_le_mul hN, Nat.mul_comm N x, Nat.add_mul,
    Nat.one_mul]
  omega

/-- How many numbers below `W` go to `r`. -/
theorem card_fiber (hW : 0 < W) {r : ℕ} (hr : r < N) :
    ((Finset.range W).filter fun x => x * N / W = r).card = (r + 1) * W ⌈/⌉ N - r * W ⌈/⌉ N := by
  have hfiber : ((Finset.range W).filter fun x => x * N / W = r) = Finset.Ico (r * W ⌈/⌉ N) ((r + 1) * W ⌈/⌉ N) := by
    ext x
    rw [Finset.mem_filter, Finset.mem_range, Finset.mem_Ico, mul_div_eq_iff hN hW]
    refine and_iff_right_of_imp fun h => h.2.trans_le ?_
    rw [ceilDiv_le_iff_le_mul hN]
    exact Nat.mul_le_mul_right W hr
  rw [hfiber, Nat.card_Ico]

/-- With `W = q * N + m` a multiple of `W / N` is one of `q` and a rest. -/
theorem mul_ceilDiv_eq (r : ℕ) : r * W ⌈/⌉ N = r * (W / N) + r * (W % N) ⌈/⌉ N := by
  have hsplit : r * W = N * (r * (W / N)) + r * (W % N) := by
    calc r * W = r * (N * (W / N) + W % N) := by rw [Nat.div_add_mod]
      _ = N * (r * (W / N)) + r * (W % N) := by ring
  apply le_antisymm
  · rw [ceilDiv_le_iff_le_mul hN, hsplit, Nat.mul_add]
    exact Nat.add_le_add_left (le_smul_ceilDiv hN) _
  · have hle : r * W ≤ N * (r * W ⌈/⌉ N) := le_smul_ceilDiv hN
    have hq : r * (W / N) ≤ r * W ⌈/⌉ N := by
      refine Nat.le_of_mul_le_mul_left ?_ hN
      omega
    obtain ⟨d, hd⟩ := Nat.exists_eq_add_of_le hq
    rw [hd]
    apply Nat.add_le_add_left
    rw [ceilDiv_le_iff_le_mul hN]
    rw [hd, Nat.mul_add] at hle
    omega

theorem fiber_length (r : ℕ) :
    W / N ≤ (r + 1) * W ⌈/⌉ N - r * W ⌈/⌉ N ∧ (r + 1) * W ⌈/⌉ N - r * W ⌈/⌉ N ≤ W / N + 1 := by
  have hm : W % N < N := Nat.mod_lt W hN
  have hup : (r + 1) * (W % N) ⌈/⌉ N ≤ r * (W % N) ⌈/⌉ N + 1 := by
    rw [ceilDiv_le_iff_le_mul hN]
    have hle : r * (W % N) ≤ N * (r * (W % N) ⌈/⌉ N) := le_smul_ceilDiv hN
    rw [Nat.add_mul, Nat.mul_add]
    omega
  have hdown : r * (W % N) ⌈/⌉ N ≤ (r + 1) * (W % N) ⌈/⌉ N := by
    rw [ceilDiv_le_iff_le_mul hN]
    exact (Nat.mul_le_mul_right _ (Nat.le_succ r)).trans (le_smul_ceilDiv hN)
  rw [mul_ceilDiv_eq hN r, mul_ceilDiv_eq hN (r + 1), Nat.add_mul r 1]
  omega

/-- Below the image of `y` every number is the image of some `x ≤ y`. -/
theorem exists_mul_div_eq (hle : N ≤ W) {y r : ℕ} (hr : r ≤ y * N / W) : ∃ x ≤ y, x * N / W = r := by
  have hW : 0 < W := hN.trans_le hle
  have hstep : r * W ⌈/⌉ N < (r + 1) * W ⌈/⌉ N := by
    have hpos : 0 < W / N := Nat.div_pos hle hN
    have hlen := (fiber_length (W := W) hN r).1
    omega
  refine ⟨r * W ⌈/⌉ N, ?_, (mul_div_eq_iff hN hW _ _).mpr ⟨le_rfl, hstep⟩⟩
  rw [ceilDiv_le_iff_le_mul hN, Nat.mul_comm N y]
  exact (Nat.le_div_iff_mul_le hW).mp hr

/-- All numbers below `W` go to every number below `N`. -/
theorem range_mul_div (hle : N ≤ W) : (fun x => x * N / W) '' Set.Iio W = Set.Iio N := by
  have hW : 0 < W := hN.trans_le hle
  ext r
  constructor
  · rintro ⟨x, hx, rfl⟩
    exact mul_div_lt hN hW hx
  · intro hr
    have hlast : r ≤ (W - 1) * N / W := by
      rw [Nat.le_div_iff_mul_le hW, Nat.sub_mul, Nat.one_mul]
      have hmul : (r + 1) * W ≤ N * W := Nat.mul_le_mul_right W hr
      rw [Nat.add_mul, Nat.one_mul, Nat.mul_comm N W] at hmul
      omega
    obtain ⟨x, hx, hxr⟩ := exists_mul_div_eq hN hle hlast
    exact ⟨x, show x < W by omega, hxr⟩

/-- Half of the numbers below `W` are not enough, unless there is only one number to reach. -/
theorem range_mul_div_half_iff {P : ℕ} (hP : 0 < P) (hhalf : 2 * P ≤ W) :
    (fun x => x * N / W) '' Set.Iio P = Set.Iio N ↔ N = 1 := by
  have hW : 0 < W := by omega
  constructor
  · intro honto
    obtain ⟨x, hx, hlast⟩ : N - 1 ∈ (fun x => x * N / W) '' Set.Iio P := by
      rw [honto]
      exact Nat.sub_lt hN Nat.one_pos
    by_contra hne
    have hreach : (N - 1) * W ≤ x * N := by
      rw [← hlast]
      exact Nat.div_mul_le_self _ _
    -- `N ≤ 2 * (N - 1)`, and `x < P` is at most half of `W`
    have hfar : N * P ≤ (N - 1) * W := by
      calc N * P ≤ 2 * (N - 1) * P := Nat.mul_le_mul_right P (by omega)
        _ = (N - 1) * (2 * P) := by ring
        _ ≤ (N - 1) * W := Nat.mul_le_mul_left _ hhalf
    have hnear : x * N < N * P := by
      rw [Nat.mul_comm]
      exact Nat.mul_lt_mul_of_pos_left hx hN
    omega
  · rintro rfl
    ext r
    rw [Set.mem_Iio, Nat.lt_one_iff]
    constructor
    · rintro ⟨x, hx, rfl⟩
      have hxP : x < P := hx
      exact Nat.div_eq_of_lt (by omega)
    · rintro rfl
      exact ⟨0, hP, by simp⟩

end

end HashingArchive.Library
