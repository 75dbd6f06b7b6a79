import HashingArchive.Library.LongDivision
import HashingArchive.Library.Loop
import HashingArchive.Reduction.LibdivideRecover

/-!
# libdivide without the instructions of the processor

Where the compiler has no 128 bit integers and no `div` instruction to offer, `libdivide.h` computes with words alone:
the upper word of a product from four products of half words (`mullhiU64_eq`), and the quotient of a double word by a
word digit by digit (`div128By64_eq_native`), whose estimates are corrected at most twice (`correctBound`).
-/

namespace HashingArchive.Reduction.Libdivide.Portable

open HashingArchive.Library HashingArchive.Library.LongDivision HashingArchive.Loop

/-! ### The code -/

/-- `libdivide_mullhi_u64` from products of half words. -/
def mullhiU64 (x y : BitVec 64) : BitVec 64 :=
  let mask := 0xFFFFFFFF#64
  let x0 := (x &&& mask).setWidth 32
  let x1 := (x >>> 32).setWidth 32
  let y0 := (y &&& mask).setWidth 32
  let y1 := (y >>> 32).setWidth 32
  let x0y0Hi := mullhiU32 x0 y0
  let x0y1 := x0.setWidth 64 * y1.setWidth 64
  let x1y0 := x1.setWidth 64 * y0.setWidth 64
  let x1y1 := x1.setWidth 64 * y1.setWidth 64
  let temp := x1y0 + x0y0Hi.setWidth 64
  let tempLo := temp &&& mask
  let tempHi := temp >>> 32
  x1y1 + tempHi + ((tempLo + x0y1) >>> 32)

/-- `libdivide_64_div_32_to_32` with 64 bit division: the quotient and the remainder. -/
def div64By32 (u1 u0 v : BitVec 32) : Except Fault (BitVec 32 × BitVec 32) :=
  let n := u1.setWidth 64 <<< 32 ||| u0.setWidth 64
  if v = 0#32 then .error .divideError
  else
    let result := (n / v.setWidth 64).setWidth 32
    .ok (result, (n - result.setWidth 64 * v.setWidth 64).setWidth 32)

/-- The number base `b` of `libdivide_128_div_64_to_64`. -/
def base : BitVec 64 := 1#64 <<< 32

/-- A quotient digit, `q1` or `q0`, and `rhat`. -/
structure Estimate where
  q : BitVec 64
  rhat : BitVec 64

/-- A round of the loop that corrects the estimate of a digit. -/
def correctBody (vn1 vn0 un : BitVec 64) (s : Estimate) : Pass Estimate Estimate :=
  if base ≤ s.q ∨ base * s.rhat + un < s.q * vn0 then
    let s' : Estimate := { q := s.q - 1#64, rhat := s.rhat + vn1 }
    if base ≤ s'.rhat then .leave s' else .again s'
  else .leave s

/-- The most rounds that a digit takes. -/
def correctBound : ℕ := 2

/-- A digit of the quotient. -/
def digit (un64 vn1 vn0 un : BitVec 64) : Option (BitVec 64) :=
  let q := un64 / vn1
  (run (correctBody vn1 vn0 un) correctBound { q, rhat := un64 - q * vn1 }).map (·.q)

/-- The dividend shifted with the divisor. -/
def normalize (s : ℕ) (u1 u0 : BitVec 64) : BitVec 64 × BitVec 64 :=
  if 0 < s then (u1 <<< s ||| u0 >>> (64 - s), u0 <<< s) else (u1, u0)

/-- `libdivide_128_div_64_to_64` with two digits: the quotient and the remainder. -/
def div128By64 (u1 u0 v : BitVec 64) : Option (BitVec 64 × BitVec 64) :=
  if v ≤ u1 then some (BitVec.allOnes 64, BitVec.allOnes 64)
  else
    let s := v.clz.toNat
    let v := v <<< s
    let un64 := (normalize s u1 u0).1
    let un10 := (normalize s u1 u0).2
    let vn1 := v >>> 32
    let vn0 := v &&& 0xFFFFFFFF#64
    let un1 := un10 >>> 32
    let un0 := un10 &&& 0xFFFFFFFF#64
    (digit un64 vn1 vn0 un1).bind fun q1 =>
      let un21 := un64 * base + un1 - q1 * v
      (digit un21 vn1 vn0 un0).map fun q0 => (q1 * base + q0, (un21 * base + un0 - q0 * v) >>> s)

/-! ### Half words -/

theorem toNat_base : base.toNat = 2 ^ 32 := rfl

theorem toNat_low (x : BitVec 64) : (x &&& 0xFFFFFFFF#64).toNat = x.toNat % 2 ^ 32 := by
  rw [BitVec.toNat_and]
  exact Nat.and_two_pow_sub_one_eq_mod x.toNat 32

theorem toNat_high (x : BitVec 64) : (x >>> 32).toNat = x.toNat / 2 ^ 32 := by
  rw [BitVec.toNat_ushiftRight, Nat.shiftRight_eq_div_pow]

theorem toNat_high_lt (x : BitVec 64) : (x >>> 32).toNat < 2 ^ 32 := by
  rw [toNat_high]
  omega

theorem halves (x : BitVec 64) : (x >>> 32).toNat * 2 ^ 32 + (x &&& 0xFFFFFFFF#64).toNat = x.toNat := by
  rw [toNat_high, toNat_low]
  omega

/-! ### The upper word of a product -/

theorem toNat_half_mul (x y : BitVec 32) : (x.setWidth 64 * y.setWidth 64).toNat = x.toNat * y.toNat := by
  have hprod : x.toNat * y.toNat < 2 ^ 32 * 2 ^ 32 := Nat.mul_lt_mul'' x.isLt y.isLt
  rw [BitVec.toNat_mul, BitVec.toNat_setWidth_of_le (by decide), BitVec.toNat_setWidth_of_le (by decide),
    Nat.mod_eq_of_lt (hprod.trans_eq (by norm_num))]

theorem mullhiU64_eq (x y : BitVec 64) : mullhiU64 x y = Libdivide.mullhiU64 x y := by
  have hhalf (z : BitVec 64) :
      z.toNat = ((z >>> 32).setWidth 32).toNat * 2 ^ 32 + ((z &&& 0xFFFFFFFF#64).setWidth 32).toNat := by
    rw [BitVec.toNat_setWidth, BitVec.toNat_setWidth, Nat.mod_eq_of_lt (toNat_high_lt z),
      Nat.mod_eq_of_lt (by rw [toNat_low]; omega), halves]
  have hx := hhalf x
  have hy := hhalf y
  simp only [mullhiU64]
  generalize (x >>> 32).setWidth 32 = x1, (x &&& 0xFFFFFFFF#64).setWidth 32 = x0 at hx ⊢
  generalize (y >>> 32).setWidth 32 = y1, (y &&& 0xFFFFFFFF#64).setWidth 32 = y0 at hy ⊢
  have htemp : (x1.setWidth 64 * y0.setWidth 64 + (mullhiU32 x0 y0).setWidth 64).toNat =
      x1.toNat * y0.toNat + x0.toNat * y0.toNat / 2 ^ 32 := by
    have hprod : x1.toNat * y0.toNat ≤ (2 ^ 32 - 1) * (2 ^ 32 - 1) := Nat.mul_le_mul (by omega) (by omega)
    rw [BitVec.toNat_add, toNat_half_mul, BitVec.toNat_setWidth_of_le (by decide), mullhiU32, toNat_mullhi]
    apply Nat.mod_eq_of_lt
    have hhigh := (mullhi x0 y0).isLt
    rw [toNat_mullhi] at hhigh
    omega
  generalize x1.setWidth 64 * y0.setWidth 64 + (mullhiU32 x0 y0).setWidth 64 = temp at htemp ⊢
  have hlow : ((temp &&& 0xFFFFFFFF#64) + x0.setWidth 64 * y1.setWidth 64).toNat =
      temp.toNat % 2 ^ 32 + x0.toNat * y1.toNat := by
    have hprod : x0.toNat * y1.toNat ≤ (2 ^ 32 - 1) * (2 ^ 32 - 1) := Nat.mul_le_mul (by omega) (by omega)
    rw [BitVec.toNat_add, toNat_half_mul, toNat_low]
    omega
  apply BitVec.eq_of_toNat_eq
  have htop : (mullhi x y).toNat = (x1.setWidth 64 * y1.setWidth 64).toNat + (temp >>> 32).toNat +
      (((temp &&& 0xFFFFFFFF#64) + x0.setWidth 64 * y1.setWidth 64) >>> 32).toNat := by
    rw [toNat_mullhi, hx, hy, show (2 : ℕ) ^ 64 = 2 ^ 32 * 2 ^ 32 by norm_num, mul_div_square (by norm_num), ← htemp,
      ← hlow, ← toNat_half_mul, ← toNat_high, ← toNat_high]
  rw [BitVec.toNat_add, BitVec.toNat_add, Nat.mod_add_mod, ← htop]
  exact Nat.mod_eq_of_lt (mullhi x y).isLt

/-! ### The quotient of half words -/

theorem div64By32_eq {u1 v : BitVec 32} (h : u1 < v) (u0 : BitVec 32) :
    div64By32 u1 u0 v = Libdivide.div64By32 u1 u0 v := by
  obtain ⟨q, r, hnative, hq, hr⟩ := divDouble_eq h u0
  have hv : v ≠ 0#32 := by
    rintro rfl
    exact Nat.not_lt_zero _ (BitVec.lt_def.mp h)
  have hwiden (x : BitVec 32) : (x.setWidth 64).toNat = x.toNat := BitVec.toNat_setWidth_of_le (by decide)
  have hn : (u1.setWidth 64 <<< 32 ||| u0.setWidth 64).toNat = u1.toNat * 2 ^ 32 + u0.toNat := by
    have hu1 := u1.isLt
    rw [BitVec.toNat_or, BitVec.toNat_shiftLeft, hwiden, hwiden, Nat.shiftLeft_eq, Nat.mod_eq_of_lt (by omega),
      ← Nat.shiftLeft_eq, Nat.shiftLeft_add_eq_or_of_lt u0.isLt, Nat.shiftLeft_eq]
  rw [Libdivide.div64By32, hnative, div64By32, if_neg hv]
  generalize u1.setWidth 64 <<< 32 ||| u0.setWidth 64 = n at hn ⊢
  rw [← hn] at hq hr
  have hresult : (n / v.setWidth 64).setWidth 32 = q := by
    apply BitVec.eq_of_toNat_eq
    rw [BitVec.toNat_setWidth, BitVec.toNat_udiv, hwiden, ← hq, Nat.mod_eq_of_lt q.isLt]
  have hrest : (n - q.setWidth 64 * v.setWidth 64).setWidth 32 = r := by
    have hquot : (q.setWidth 64).toNat = n.toNat / (v.setWidth 64).toNat := by rw [hwiden, hwiden, hq]
    apply BitVec.eq_of_toNat_eq
    rw [BitVec.toNat_setWidth, toNat_sub_mul hquot, hwiden, ← hr, Nat.mod_eq_of_lt r.isLt]
  simp only [hresult, hrest]

/-- Without the instruction a quotient that is no word is cut off, where the instruction faults. -/
theorem div64By32_eq_iff (u1 u0 v : BitVec 32) :
    div64By32 u1 u0 v = Libdivide.div64By32 u1 u0 v ↔ u1 < v ∨ v = 0#32 := by
  by_cases hlt : u1 < v
  · simp only [div64By32_eq hlt, hlt, true_or]
  · have hnative : Libdivide.div64By32 u1 u0 v = .error .divideError := if_pos (BitVec.not_lt.mp hlt)
    rw [hnative, div64By32]
    split_ifs with hzero
    · simp only [hzero, or_true]
    · simp only [hlt, hzero, or_self]

/-! ### A digit -/

section
variable {u v1 v0 d : BitVec 64} (hv1 : v1.toNat < 2 ^ 32) (hhalf : 2 ^ 32 ≤ 2 * v1.toNat) (hv0 : v0.toNat < 2 ^ 32)
  (hd : d.toNat < 2 ^ 32) (hu : u.toNat < v1.toNat * 2 ^ 32 + v0.toNat)

/-- What the corrections keep: the estimate is not too small, and the products of the test are words. -/
structure Corrects (u v1 v0 d : BitVec 64) (s : Estimate) : Prop where
  split : s.q.toNat * v1.toNat + s.rhat.toNat = u.toNat
  digit_le : (u.toNat * 2 ^ 32 + d.toNat) / (v1.toNat * 2 ^ 32 + v0.toNat) ≤ s.q.toNat
  q_le : s.q.toNat ≤ 2 ^ 32 + 1
  rhat_lt : s.rhat.toNat < 2 ^ 32

include hv0 hd in
/-- The test of the loop, without the words. -/
theorem test_iff {s : Estimate} (hq : s.q.toNat ≤ 2 ^ 32 + 1) (hr : s.rhat.toNat < 2 ^ 32) :
    (base ≤ s.q ∨ base * s.rhat + d < s.q * v0) ↔
      2 ^ 32 ≤ s.q.toNat ∨ 2 ^ 32 * s.rhat.toNat + d.toNat < s.q.toNat * v0.toNat := by
  have hprod : s.q.toNat * v0.toNat < 2 ^ 64 := by
    calc s.q.toNat * v0.toNat ≤ (2 ^ 32 + 1) * (2 ^ 32 - 1) := Nat.mul_le_mul hq (by omega)
      _ < 2 ^ 64 := by norm_num
  rw [BitVec.le_def, BitVec.lt_def, BitVec.toNat_add, BitVec.toNat_mul, BitVec.toNat_mul, toNat_base,
    Nat.mod_eq_of_lt hprod, Nat.mod_eq_of_lt (by omega : 2 ^ 32 * s.rhat.toNat < 2 ^ 64), Nat.mod_eq_of_lt (by omega)]

include hv1 hhalf hv0 hd hu

theorem correctBody_holds {s : Estimate} (hs : Corrects u v1 v0 d s) :
    (correctBody v1 v0 d s).Holds
      (fun s' => Corrects u v1 v0 d s' ∧ 1 - s'.rhat.toNat / 2 ^ 31 < 1 - s.rhat.toNat / 2 ^ 31)
      fun s' => s'.q.toNat = (u.toNat * 2 ^ 32 + d.toNat) / (v1.toNat * 2 ^ 32 + v0.toNat) := by
  obtain ⟨hsplit, hle, hq, hr⟩ := hs
  have hpos : 0 < v1.toNat * 2 ^ 32 + v0.toNat := by omega
  have htest := test_iff hv0 hd hq hr
  rw [correctBody]
  by_cases hcond : base ≤ s.q ∨ base * s.rhat + d < s.q * v0
  · rw [if_pos hcond]
    have hlt : (u.toNat * 2 ^ 32 + d.toNat) / (v1.toNat * 2 ^ 32 + v0.toNat) < s.q.toNat := by
      rcases htest.mp hcond with hlarge | hprod
      · exact (digit_lt_base hu hd).trans_le hlarge
      · exact digit_lt hsplit hpos hprod
    have hone : 1 ≤ s.q.toNat := Nat.one_le_of_lt hlt
    have hq' : (s.q - 1#64).toNat = s.q.toNat - 1 := BitVec.toNat_sub_of_le (BitVec.le_def.mpr hone)
    have hr' : (s.rhat + v1).toNat = s.rhat.toNat + v1.toNat := by
      rw [BitVec.toNat_add, Nat.mod_eq_of_lt (by omega)]
    have hsplit' : (s.q.toNat - 1) * v1.toNat + (s.rhat.toNat + v1.toNat) = u.toNat := by
      have hmul : (s.q.toNat - 1) * v1.toNat + v1.toNat = s.q.toNat * v1.toNat := by
        rw [← Nat.add_one_mul, Nat.sub_add_cancel hone]
      omega
    by_cases hbreak : base ≤ s.rhat + v1
    · -- The remainder has left the digits, so no digit fails the test any more.
      simp only [if_pos hbreak, Pass.holds_leave]
      rw [BitVec.le_def, hr', toNat_base] at hbreak
      have hpass : (s.q.toNat - 1) * v0.toNat ≤ 2 ^ 32 * (s.rhat.toNat + v1.toNat) + d.toNat := by
        calc (s.q.toNat - 1) * v0.toNat ≤ 2 ^ 32 * (s.rhat.toNat + v1.toNat) :=
              Nat.mul_le_mul (by omega) (by omega)
          _ ≤ _ := Nat.le_add_right _ _
      have hge := le_digit hsplit' hpos hpass
      rw [hq']
      omega
    · simp only [if_neg hbreak, Pass.holds_again]
      rw [BitVec.le_def, hr', toNat_base] at hbreak
      refine ⟨⟨?_, ?_, ?_, ?_⟩, ?_⟩
      · rw [hq', hr', hsplit']
      · rw [hq']
        omega
      · rw [hq']
        omega
      · rw [hr']
        omega
      · rw [hr']
        omega
  · rw [if_neg hcond, Pass.holds_leave]
    have hpass : s.q.toNat * v0.toNat ≤ 2 ^ 32 * s.rhat.toNat + d.toNat := by
      by_contra h
      exact hcond (htest.mpr (.inr (not_le.mp h)))
    exact le_antisymm (le_digit hsplit hpos hpass) hle

theorem digit_eq : ∃ q, digit u v1 v0 d = some q ∧
    q.toNat = (u.toNat * 2 ^ 32 + d.toNat) / (v1.toNat * 2 ^ 32 + v0.toNat) := by
  have hv1pos : 0 < v1.toNat := by omega
  have hq : (u / v1).toNat = u.toNat / v1.toNat := BitVec.toNat_udiv
  have hr : (u - u / v1 * v1).toNat = u.toNat % v1.toNat := toNat_sub_mul hq
  have hrlt : u.toNat % v1.toNat < v1.toNat := Nat.mod_lt _ hv1pos
  have hstart : Corrects u v1 v0 d { q := u / v1, rhat := u - u / v1 * v1 } := by
    refine ⟨?_, ?_, ?_, ?_⟩
    · rw [hq, hr, Nat.mul_comm, Nat.div_add_mod]
    · rw [hq]
      exact digit_le_estimate _ _ hv1pos hd
    · rw [hq]
      exact estimate_le hu hv0 hhalf
    · rw [hr]
      omega
  obtain ⟨r, hrun, hpost⟩ := run_total (correctBody v1 v0 d) (Corrects u v1 v0 d) (fun s => 1 - s.rhat.toNat / 2 ^ 31) _
    (fun s hs => correctBody_holds hv1 hhalf hv0 hd hu hs) correctBound _ hstart (by rw [correctBound]; omega)
  refine ⟨r.q, ?_, hpost⟩
  rw [digit, hrun]
  rfl

end

/-! ### Two digits -/

/-- The dividend without the part divided, in words that wrap. -/
theorem toNat_rest {u d q v : BitVec 64} (hv : 0 < v.toNat)
    (hq : q.toNat = (u.toNat * 2 ^ 32 + d.toNat) / v.toNat) :
    (u * base + d - q * v).toNat = (u.toNat * 2 ^ 32 + d.toNat) % v.toNat := by
  have hlt : (u.toNat * 2 ^ 32 + d.toNat) % v.toNat < 2 ^ 64 := (Nat.mod_lt _ hv).trans v.isLt
  have hsplit : u * base + d = q * v + BitVec.ofNat 64 ((u.toNat * 2 ^ 32 + d.toNat) % v.toNat) := by
    apply BitVec.eq_of_toNat_eq
    rw [BitVec.toNat_add, BitVec.toNat_add, BitVec.toNat_mul, BitVec.toNat_mul, BitVec.toNat_ofNat, toNat_base,
      Nat.mod_add_mod, Nat.mod_add_mod, Nat.add_mod_mod, hq, Nat.mul_comm _ v.toNat, Nat.div_add_mod]
  have hcancel : u * base + d - q * v = BitVec.ofNat 64 ((u.toNat * 2 ^ 32 + d.toNat) % v.toNat) := by
    rw [hsplit, BitVec.add_comm, BitVec.add_sub_cancel]
  rw [hcancel, BitVec.toNat_ofNat, Nat.mod_eq_of_lt hlt]

/-- A double word shifted to the left, if it stays one. -/
theorem shiftLeft_words {s : ℕ} {hi lo : BitVec 64} (hs : s < 64) (hfit : hi.toNat * 2 ^ s < 2 ^ 64) :
    (hi <<< s ||| lo >>> (64 - s)).toNat * 2 ^ 64 + (lo <<< s).toNat = (hi.toNat * 2 ^ 64 + lo.toNat) * 2 ^ s := by
  have hlo := lo.isLt
  have hpow : 2 ^ s * 2 ^ (64 - s) = 2 ^ 64 := by rw [← Nat.pow_add, Nat.add_sub_cancel' hs.le]
  have hcarry : lo.toNat / 2 ^ (64 - s) < 2 ^ s := by
    rwa [Nat.div_lt_iff_lt_mul (Nat.two_pow_pos _), hpow]
  have hhigh : (hi <<< s ||| lo >>> (64 - s)).toNat = hi.toNat * 2 ^ s + lo.toNat / 2 ^ (64 - s) := by
    rw [BitVec.toNat_or, BitVec.toNat_shiftLeft, BitVec.toNat_ushiftRight, Nat.shiftLeft_eq, Nat.mod_eq_of_lt hfit,
      Nat.shiftRight_eq_div_pow, ← Nat.shiftLeft_eq, ← Nat.shiftLeft_add_eq_or_of_lt hcarry]
  have hlow : (lo <<< s).toNat = lo.toNat % 2 ^ (64 - s) * 2 ^ s := by
    rw [BitVec.toNat_shiftLeft, Nat.shiftLeft_eq, ← hpow, Nat.mul_comm (2 ^ s), Nat.mul_mod_mul_right]
  rw [hhigh, hlow]
  calc (hi.toNat * 2 ^ s + lo.toNat / 2 ^ (64 - s)) * 2 ^ 64 + lo.toNat % 2 ^ (64 - s) * 2 ^ s
      = hi.toNat * 2 ^ 64 * 2 ^ s + (2 ^ (64 - s) * (lo.toNat / 2 ^ (64 - s)) + lo.toNat % 2 ^ (64 - s)) * 2 ^ s := by
        rw [← hpow]
        ring
    _ = (hi.toNat * 2 ^ 64 + lo.toNat) * 2 ^ s := by
        rw [Nat.div_add_mod]
        ring

theorem normalize_eq {s : ℕ} {u1 : BitVec 64} (hs : s < 64) (hfit : u1.toNat * 2 ^ s < 2 ^ 64) (u0 : BitVec 64) :
    (normalize s u1 u0).1.toNat * 2 ^ 64 + (normalize s u1 u0).2.toNat = (u1.toNat * 2 ^ 64 + u0.toNat) * 2 ^ s := by
  rw [normalize]
  split_ifs with hpos
  · exact shiftLeft_words hs hfit
  · rw [Nat.eq_zero_of_not_pos hpos, Nat.pow_zero, Nat.mul_one]

/-- The divisor shifted to the left, as far as it goes. -/
theorem normalized {v : BitVec 64} (hv : v ≠ 0#64) :
    v.clz.toNat < 64 ∧ (v <<< v.clz.toNat).toNat = v.toNat * 2 ^ v.clz.toNat ∧
      2 ^ 63 ≤ v.toNat * 2 ^ v.clz.toNat ∧ v.toNat * 2 ^ v.clz.toNat < 2 ^ 64 := by
  obtain ⟨hk, hlow, hup⟩ := floorLog (by norm_num) hv
  have hclz : v.clz.toNat < 64 := by
    have hlt := BitVec.lt_def.mp (BitVec.clz_lt_iff_ne_zero.mpr hv)
    rwa [BitVec.natCast_eq_ofNat, BitVec.toNat_ofNat] at hlt
  generalize v.clz.toNat = s at *
  have hlow' : 2 ^ 63 ≤ v.toNat * 2 ^ s := by
    calc 2 ^ 63 = 2 ^ (64 - 1 - s) * 2 ^ s := by rw [← Nat.pow_add]; congr 1; omega
      _ ≤ v.toNat * 2 ^ s := Nat.mul_le_mul_right _ hlow
  have hup' : v.toNat * 2 ^ s < 2 ^ 64 := by
    calc v.toNat * 2 ^ s < 2 ^ (64 - 1 - s + 1) * 2 ^ s := Nat.mul_lt_mul_of_pos_right hup (Nat.two_pow_pos s)
      _ = 2 ^ 64 := by rw [← Nat.pow_add]; congr 1; omega
  refine ⟨hclz, ?_, hlow', hup'⟩
  rw [BitVec.toNat_shiftLeft, Nat.shiftLeft_eq, Nat.mod_eq_of_lt hup']

/-- Both digits of the quotient by a divisor with its upper bit set. -/
theorem digits_eq {v un64 : BitVec 64} (un10 : BitVec 64) (hv : 2 ^ 63 ≤ v.toNat) (hu : un64.toNat < v.toNat) :
    ∃ q1 q0, digit un64 (v >>> 32) (v &&& 0xFFFFFFFF#64) (un10 >>> 32) = some q1 ∧
      digit (un64 * base + un10 >>> 32 - q1 * v) (v >>> 32) (v &&& 0xFFFFFFFF#64) (un10 &&& 0xFFFFFFFF#64) = some q0 ∧
      (q1 * base + q0).toNat = (un64.toNat * 2 ^ 64 + un10.toNat) / v.toNat ∧
      ((un64 * base + un10 >>> 32 - q1 * v) * base + (un10 &&& 0xFFFFFFFF#64) - q0 * v).toNat =
        (un64.toNat * 2 ^ 64 + un10.toNat) % v.toNat := by
  have hsplit := halves v
  have hvpos : 0 < v.toNat := by omega
  have hhalf : 2 ^ 32 ≤ 2 * (v >>> 32).toNat := by
    rw [toNat_high]
    omega
  have hlow (x : BitVec 64) : (x &&& 0xFFFFFFFF#64).toNat < 2 ^ 32 := by
    rw [toNat_low]
    exact Nat.mod_lt _ (Nat.two_pow_pos 32)
  have hdividend : un64.toNat * 2 ^ 64 + un10.toNat =
      un64.toNat * (2 ^ 32 * 2 ^ 32) + (un10 >>> 32).toNat * 2 ^ 32 + (un10 &&& 0xFFFFFFFF#64).toNat := by
    rw [← halves un10]
    ring
  obtain ⟨q1, hdigit1, hq1⟩ := digit_eq (toNat_high_lt v) hhalf (hlow v) (toNat_high_lt un10) (hsplit ▸ hu)
  rw [hsplit] at hq1
  have hrest1 := toNat_rest hvpos hq1
  have hun21 : (un64 * base + un10 >>> 32 - q1 * v).toNat < v.toNat := hrest1 ▸ Nat.mod_lt _ hvpos
  obtain ⟨q0, hdigit0, hq0⟩ := digit_eq (toNat_high_lt v) hhalf (hlow v) (hlow un10) (hsplit ▸ hun21)
  rw [hsplit] at hq0
  have hrest0 := toNat_rest hvpos hq0
  have hq1lt : q1.toNat < 2 ^ 32 := by
    rw [hq1, ← hsplit]
    exact digit_lt_base (hsplit ▸ hu) (toNat_high_lt un10)
  have hq0lt : q0.toNat < 2 ^ 32 := by
    rw [hq0, ← hsplit]
    exact digit_lt_base (hsplit ▸ hun21) (hlow un10)
  refine ⟨q1, q0, hdigit1, hdigit0, ?_, ?_⟩
  · rw [BitVec.toNat_add, BitVec.toNat_mul, toNat_base, Nat.mod_eq_of_lt (by omega : q1.toNat * 2 ^ 32 < 2 ^ 64),
      Nat.mod_eq_of_lt (by omega), hdividend, two_digits_div hvpos, hq1, hq0, hrest1]
  · rw [hrest0, hdividend, two_digits_mod, hrest1]

theorem div128By64_eq {u1 v : BitVec 64} (h : u1 < v) (u0 : BitVec 64) :
    ∃ q r, div128By64 u1 u0 v = some (q, r) ∧ q.toNat = (u1.toNat * 2 ^ 64 + u0.toNat) / v.toNat ∧
      r.toNat = (u1.toNat * 2 ^ 64 + u0.toNat) % v.toNat := by
  have hlt : u1.toNat < v.toNat := BitVec.lt_def.mp h
  have hv : v ≠ 0#64 := by
    rintro rfl
    exact Nat.not_lt_zero _ hlt
  obtain ⟨hs, hshift, hlow, hup⟩ := normalized hv
  have hpow : 0 < 2 ^ v.clz.toNat := Nat.two_pow_pos _
  have hu1 : u1.toNat * 2 ^ v.clz.toNat < v.toNat * 2 ^ v.clz.toNat := Nat.mul_lt_mul_of_pos_right hlt hpow
  have hdividend := normalize_eq hs (hu1.trans hup) u0
  have hun64 : (normalize v.clz.toNat u1 u0).1.toNat < (v <<< v.clz.toNat).toNat := by
    have hmul : (u1.toNat * 2 ^ 64 + u0.toNat) * 2 ^ v.clz.toNat < v.toNat * 2 ^ 64 * 2 ^ v.clz.toNat := by
      refine Nat.mul_lt_mul_of_pos_right ?_ hpow
      have := u0.isLt
      omega
    rw [Nat.mul_right_comm] at hmul
    rw [hshift]
    omega
  obtain ⟨q1, q0, hdigit1, hdigit0, hquot, hrem⟩ := digits_eq (normalize v.clz.toNat u1 u0).2 (hshift ▸ hlow) hun64
  have hdiv : div128By64 u1 u0 v = some (q1 * base + q0, (((normalize v.clz.toNat u1 u0).1 * base +
      (normalize v.clz.toNat u1 u0).2 >>> 32 - q1 * v <<< v.clz.toNat) * base +
      ((normalize v.clz.toNat u1 u0).2 &&& 0xFFFFFFFF#64) - q0 * v <<< v.clz.toNat) >>> v.clz.toNat) := by
    rw [div128By64, if_neg (BitVec.not_le.mpr h)]
    exact Option.bind_eq_some_iff.mpr ⟨q1, hdigit1, Option.map_eq_some_iff.mpr ⟨q0, hdigit0, rfl⟩⟩
  refine ⟨_, _, hdiv, ?_, ?_⟩
  · rw [hquot, hdividend, hshift, Nat.mul_div_mul_right _ _ hpow]
  · rw [BitVec.toNat_ushiftRight, hrem, hdividend, hshift, Nat.mul_mod_mul_right, Nat.shiftRight_eq_div_pow,
      Nat.mul_div_cancel _ hpow]

/-- **The division digit by digit agrees with `divq`** wherever the instruction does not fault, and is all ones where it
does. -/
theorem div128By64_eq_native (u1 u0 v : BitVec 64) : div128By64 u1 u0 v =
    some ((Libdivide.div128By64 u1 u0 v).toOption.getD (BitVec.allOnes 64, BitVec.allOnes 64)) := by
  by_cases h : u1 < v
  · obtain ⟨q, r, hportable, hq, hr⟩ := div128By64_eq h u0
    obtain ⟨q', r', hnative, hq', hr'⟩ := divDouble_eq h u0
    have hsame : (q, r) = (q', r') :=
      Prod.ext (BitVec.eq_of_toNat_eq (hq.trans hq'.symm)) (BitVec.eq_of_toNat_eq (hr.trans hr'.symm))
    rw [hportable, Libdivide.div128By64, hnative, hsame]
    rfl
  · have hle : v ≤ u1 := BitVec.not_lt.mp h
    rw [div128By64, if_pos hle, Libdivide.div128By64, divDouble, if_pos hle]
    rfl

end HashingArchive.Reduction.Libdivide.Portable
