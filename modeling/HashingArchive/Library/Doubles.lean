import HashingArchive.Library.Rounding

/-!
# Floating point numbers

A floating point operation is the exact one with its result rounded. `Rounds rnd p` says what is used of a rounding to
`p` bits: integers of up to `p` bits stay as they are, and the relative error is at most `2⁻ᵖ`. The exact arithmetic
rounds so to any number of bits, and `binary64`, to the nearest with ties to even, to 53; its exponents have no bounds,
so it says nothing of overflow and of subnormal numbers.
-/

namespace HashingArchive.Library

structure Rounds (rnd : ℚ → ℚ) (p : ℕ) : Prop where
  exact : ∀ z : ℤ, |z| ≤ 2 ^ p → rnd z = z
  near : ∀ x, |rnd x - x| ≤ |x| / 2 ^ p

namespace Rounds

variable {rnd : ℚ → ℚ} {p : ℕ}

theorem id (p : ℕ) : Rounds id p where
  exact _ _ := rfl
  near x := by simpa using by positivity

theorem natCast (h : Rounds rnd p) {n : ℕ} (hn : n ≤ 2 ^ p) : rnd n = n := by
  have hz := h.exact n (by rw [Nat.abs_cast]; exact_mod_cast hn)
  simpa using hz

theorem zero (h : Rounds rnd p) : rnd 0 = 0 := by
  simpa using h.natCast (Nat.zero_le _)

theorem le (h : Rounds rnd p) {x : ℚ} (hx : 0 ≤ x) : rnd x ≤ x + x / 2 ^ p := by
  have hnear := (abs_le.mp (h.near x)).2
  rw [abs_of_nonneg hx] at hnear
  linarith

theorem ge (h : Rounds rnd p) {x : ℚ} (hx : 0 ≤ x) : x - x / 2 ^ p ≤ rnd x := by
  have hnear := (abs_le.mp (h.near x)).1
  rw [abs_of_nonneg hx] at hnear
  linarith

theorem nonneg (h : Rounds rnd p) {x : ℚ} (hx : 0 ≤ x) : 0 ≤ rnd x := by
  have hge := h.ge hx
  have hle : x / 2 ^ p ≤ x := div_le_self hx (one_le_pow₀ (by norm_num))
  linarith

end Rounds

/-! ### Double precision -/

theorem abs_roundEven_sub_le (x : ℚ) : |(roundEven x : ℚ) - x| ≤ 1 / 2 := by
  have hsplit := Int.floor_add_fract x
  have hnonneg := Int.fract_nonneg x
  have hlt := Int.fract_lt_one x
  unfold roundEven
  split_ifs with hlow hhigh
  · rw [abs_le]
    constructor <;> linarith
  · rw [abs_le]
    push_cast
    constructor <;> linarith
  · have hhalf : Int.fract x = 1 / 2 := le_antisymm (not_lt.mp hhigh) (not_lt.mp hlow)
    rw [abs_le]
    rcases Int.emod_two_eq_zero_or_one ⌊x⌋ with hmod | hmod
    · rw [hmod]
      push_cast
      constructor <;> linarith
    · rw [hmod]
      push_cast
      constructor <;> linarith

/-- The distance of the doubles around `x`. -/
def ulp (x : ℚ) : ℚ := 2 ^ (Int.log 2 |x| - 52)

/-- The double nearest to `x`, the even one of two. -/
def binary64 (x : ℚ) : ℚ := if x = 0 then 0 else roundEven (x / ulp x) * ulp x

theorem ulp_pos (x : ℚ) : 0 < ulp x := by
  unfold ulp
  positivity

/-- An ulp is at most `2⁻⁵²` of the number. -/
theorem ulp_le {x : ℚ} (hx : x ≠ 0) : ulp x ≤ |x| / 2 ^ 52 := by
  have hlog := Int.zpow_log_le_self (b := 2) (r := |x|) (by norm_num) (abs_pos.mpr hx)
  rw [le_div_iff₀ (by norm_num), ulp, zpow_sub₀ (by norm_num)]
  push_cast at hlog
  have hpow : (2 : ℚ) ^ (52 : ℤ) = 2 ^ 52 := by norm_cast
  rw [hpow, div_mul_cancel₀ _ (by norm_num)]
  exact hlog

/-- An integer of up to 53 bits is a multiple of its ulp. -/
theorem exists_mul_ulp {z : ℤ} (hz : z ≠ 0) (hle : |z| ≤ 2 ^ 53) : ∃ k : ℤ, (z : ℚ) = k * ulp z := by
  have hpos : (0 : ℚ) < |(z : ℚ)| := abs_pos.mpr (by exact_mod_cast hz)
  have hlow := Int.zpow_log_le_self (b := 2) (r := |(z : ℚ)|) (by norm_num) hpos
  have hle' : |(z : ℚ)| ≤ 2 ^ 53 := by exact_mod_cast hle
  push_cast at hlow
  generalize hlog : Int.log 2 |(z : ℚ)| = e at hlow
  have he : e ≤ 53 := by
    have hpow : (2 : ℚ) ^ e ≤ 2 ^ (53 : ℤ) := hlow.trans (by exact_mod_cast hle')
    exact (zpow_le_zpow_iff_right₀ (by norm_num)).mp hpow
  rw [ulp, hlog]
  rcases eq_or_lt_of_le he with rfl | hlt
  · -- only the power of two itself is left
    have habs : |(z : ℚ)| = 2 ^ 53 := le_antisymm hle' (by exact_mod_cast hlow)
    have hz53 : |z| = 2 ^ 53 := by exact_mod_cast habs
    rcases abs_eq (by norm_num) |>.mp hz53 with rfl | rfl
    · exact ⟨2 ^ 52, by norm_num⟩
    · exact ⟨-2 ^ 52, by norm_num⟩
  · refine ⟨z * 2 ^ (52 - e).toNat, ?_⟩
    have hexp : (e - 52 : ℤ) = -((52 - e).toNat : ℤ) := by omega
    rw [hexp, zpow_neg, zpow_natCast]
    push_cast
    rw [mul_assoc, mul_inv_cancel₀ (by positivity), mul_one]

/-- **`binary64` rounds to 53 bits.** -/
theorem rounds_binary64 : Rounds binary64 53 where
  exact z hle := by
    by_cases hz : z = 0
    · simp [hz, binary64]
    · obtain ⟨k, hk⟩ := exists_mul_ulp hz hle
      have hdiv : (z : ℚ) / ulp z = k := by
        rw [div_eq_iff (ulp_pos z).ne']
        exact hk
      rw [binary64, if_neg (by exact_mod_cast hz), hdiv, roundEven_intCast, ← hk]
  near x := by
    by_cases hx : x = 0
    · simp [hx, binary64]
    · have hround := abs_roundEven_sub_le (x / ulp x)
      have hfactor : (roundEven (x / ulp x) : ℚ) * ulp x - x = ((roundEven (x / ulp x) : ℚ) - x / ulp x) * ulp x := by
        rw [sub_mul, div_mul_cancel₀ _ (ulp_pos x).ne']
      have hulp := ulp_le hx
      have hpos := ulp_pos x
      rw [binary64, if_neg hx, hfactor, abs_mul, abs_of_pos hpos]
      calc |(roundEven (x / ulp x) : ℚ) - x / ulp x| * ulp x ≤ 1 / 2 * ulp x := by gcongr
        _ ≤ 1 / 2 * (|x| / 2 ^ 52) := by gcongr
        _ = |x| / 2 ^ 53 := by ring

/-! ### The bytes of a double -/

/-- The bits of a normal double: the sign, the exponent and the fraction. -/
def doubleBits (x : ℚ) : ℕ :=
  (if x < 0 then 2 ^ 63 else 0) +
    if x = 0 then 0
    else (Int.log 2 |x| + 1023).toNat * 2 ^ 52 + ⌊(|x| / 2 ^ Int.log 2 |x| - 1) * 2 ^ 52⌋₊

/-- The number with these bits; infinities and numbers that are none are not told apart. -/
def doubleValue (bits : ℕ) : ℚ :=
  let exponent : ℕ := bits / 2 ^ 52 % 2 ^ 11
  let fraction : ℕ := bits % 2 ^ 52
  (if bits / 2 ^ 63 % 2 = 1 then -1 else 1) *
    if exponent = 0 then (fraction : ℚ) / 2 ^ 1074 else (1 + (fraction : ℚ) / 2 ^ 52) * 2 ^ ((exponent : ℤ) - 1023)

/-- The bits of a number of up to 53 bits: its length, and what comes after its first bit. -/
theorem doubleBits_natCast {n : ℕ} (hpos : 0 < n) (hn : n < 2 ^ 53) :
    doubleBits n = (Nat.log 2 n + 1023) * 2 ^ 52 + (n - 2 ^ Nat.log 2 n) * 2 ^ (52 - Nat.log 2 n) := by
  have hlog : Nat.log 2 n ≤ 52 := Nat.lt_succ_iff.mp (Nat.log_lt_of_lt_pow hpos.ne' hn)
  have hle : 2 ^ Nat.log 2 n ≤ n := Nat.pow_log_le_self 2 hpos.ne'
  have hnq : (n : ℚ) ≠ 0 := by exact_mod_cast hpos.ne'
  have hexp : Int.log 2 (n : ℚ) = Nat.log 2 n := Int.log_natCast 2 n
  rw [doubleBits, if_neg (not_lt.mpr n.cast_nonneg), if_neg hnq, Nat.abs_cast, hexp, Nat.zero_add]
  congr 1
  have hfraction : ((n : ℚ) / 2 ^ (Nat.log 2 n : ℤ) - 1) * 2 ^ 52 =
      (((n - 2 ^ Nat.log 2 n) * 2 ^ (52 - Nat.log 2 n) : ℕ) : ℚ) := by
    have hsplit : (2 : ℚ) ^ 52 = 2 ^ Nat.log 2 n * 2 ^ (52 - Nat.log 2 n) := by
      rw [← pow_add, Nat.add_sub_cancel' hlog]
    push_cast [Nat.cast_sub hle]
    rw [zpow_natCast, hsplit]
    field_simp
  rw [hfraction, Nat.floor_natCast]

theorem fraction_lt {n : ℕ} (hpos : 0 < n) (hn : n < 2 ^ 53) :
    (n - 2 ^ Nat.log 2 n) * 2 ^ (52 - Nat.log 2 n) < 2 ^ 52 := by
  have hlog : Nat.log 2 n ≤ 52 := Nat.lt_succ_iff.mp (Nat.log_lt_of_lt_pow hpos.ne' hn)
  have hlt : n < 2 ^ (Nat.log 2 n + 1) := Nat.lt_pow_succ_log_self one_lt_two n
  have hrest : n - 2 ^ Nat.log 2 n < 2 ^ Nat.log 2 n := by
    rw [pow_succ] at hlt
    omega
  calc (n - 2 ^ Nat.log 2 n) * 2 ^ (52 - Nat.log 2 n)
    _ < 2 ^ Nat.log 2 n * 2 ^ (52 - Nat.log 2 n) := Nat.mul_lt_mul_of_pos_right hrest (by positivity)
    _ = 2 ^ 52 := by rw [← pow_add, Nat.add_sub_cancel' hlog]

theorem doubleBits_lt {n : ℕ} (hn : n < 2 ^ 53) : doubleBits n < 2 ^ 63 := by
  rcases n.eq_zero_or_pos with rfl | hpos
  · simp [doubleBits]
  · have hlog : Nat.log 2 n ≤ 52 := Nat.lt_succ_iff.mp (Nat.log_lt_of_lt_pow hpos.ne' hn)
    have hfraction := fraction_lt hpos hn
    rw [doubleBits_natCast hpos hn]
    omega

/-- **A number of up to 53 bits** is read back from its bits. -/
theorem doubleValue_doubleBits {n : ℕ} (hn : n < 2 ^ 53) : doubleValue (doubleBits n) = n := by
  rcases n.eq_zero_or_pos with rfl | hpos
  · simp [doubleBits, doubleValue]
  · have hlog : Nat.log 2 n ≤ 52 := Nat.lt_succ_iff.mp (Nat.log_lt_of_lt_pow hpos.ne' hn)
    have hle : 2 ^ Nat.log 2 n ≤ n := Nat.pow_log_le_self 2 hpos.ne'
    have hfraction := fraction_lt hpos hn
    have hlt := doubleBits_lt hn
    have hbits := doubleBits_natCast hpos hn
    have hexponent : doubleBits n / 2 ^ 52 % 2 ^ 11 = Nat.log 2 n + 1023 := by
      rw [hbits]
      omega
    have hrest : doubleBits n % 2 ^ 52 = (n - 2 ^ Nat.log 2 n) * 2 ^ (52 - Nat.log 2 n) := by
      rw [hbits]
      omega
    have hsign : doubleBits n / 2 ^ 63 % 2 = 0 := by omega
    have hsplit : (2 : ℚ) ^ 52 = 2 ^ Nat.log 2 n * 2 ^ (52 - Nat.log 2 n) := by
      rw [← pow_add, Nat.add_sub_cancel' hlog]
    rw [doubleValue, hexponent, hrest, hsign, if_neg (by norm_num), if_neg (by omega), one_mul,
      show ((Nat.log 2 n + 1023 : ℕ) : ℤ) - 1023 = (Nat.log 2 n : ℤ) by push_cast; ring, zpow_natCast]
    push_cast [Nat.cast_sub hle]
    rw [hsplit]
    field_simp
    ring

end HashingArchive.Library
