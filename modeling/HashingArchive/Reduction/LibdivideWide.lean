import HashingArchive.Reduction.LibdivideRecover
import HashingArchive.Reduction.LibdividePortable

/-!
# Quotients of double words in libdivide

Without 128 bit division, `libdivide_128_div_128_to_64` estimates the quotient from half the dividend and the leading
word of the divisor (`estimate_eq`), takes one off and makes good what that was too much (`correctQuotient_eq`). It
agrees with the division of 128 bit integers exactly where the quotient is a word (`div128By128_agrees_iff`).
-/

namespace HashingArchive.Reduction.Libdivide.Portable

open HashingArchive.Library.LongDivision

/-! ### The code -/

structure U128 where
  hi : BitVec 64
  lo : BitVec 64

/-- `libdivide_u128_shift`. -/
def u128Shift (u : U128) (signedShift : ℤ) : U128 :=
  if 0 < signedShift then
    let shift := signedShift.toNat
    { hi := u.hi <<< shift ||| u.lo >>> (64 - shift), lo := u.lo <<< shift }
  else if signedShift < 0 then
    let shift := (-signedShift).toNat
    { hi := u.hi >>> shift, lo := u.lo >>> shift ||| u.hi <<< (64 - shift) }
  else u

/-- The difference of double words, with the borrow of the low ones. -/
def U128.sub (u v : U128) : U128 where
  hi := u.hi - (v.hi + if u.lo < v.lo then 1#64 else 0#64)
  lo := u.lo - v.lo

/-- `if (q0 != 0) q0 = q0 - 1;` -/
def U128.pred (q : U128) : U128 :=
  if q.hi ≠ 0#64 ∨ q.lo ≠ 0#64 then { hi := q.hi - if q.lo = 0#64 then 1#64 else 0#64, lo := q.lo - 1#64 } else q

/-- The product without its upper two words. -/
def U128.mul (u v : U128) : U128 where
  hi := u.hi * v.lo + u.lo * v.hi + mullhiU64 u.lo v.lo
  lo := u.lo * v.lo

/-- The quotient `q0`, right or too small by one, is made right. Its upper word, which the code asserts to be zero,
is not returned. -/
def correctQuotient (u v q0 : U128) : BitVec 64 × BitVec 64 × BitVec 64 :=
  let uq0v := u.sub (q0.mul v)
  if v.hi < uq0v.hi ∨ uq0v.hi = v.hi ∧ v.lo ≤ uq0v.lo then
    (q0.lo + 1#64, (uq0v.sub v).hi, (uq0v.sub v).lo)
  else (q0.lo, uq0v.hi, uq0v.lo)

/-- `libdivide_128_div_128_to_64` without 128 bit division: the quotient, and the two words of the remainder. -/
def div128By128 (uHi uLo vHi vLo : BitVec 64) : Option (BitVec 64 × BitVec 64 × BitVec 64) :=
  let u : U128 := { hi := uHi, lo := uLo }
  let v : U128 := { hi := vHi, lo := vLo }
  if v.hi = 0#64 then (div128By64 u.hi u.lo v.lo).map fun (q, r) => (q, 0#64, r)
  else
    let n : ℤ := v.hi.clz.toNat
    let v1 := (u128Shift v n).hi
    let u1 := u128Shift u (-1)
    (div128By64 u1.hi u1.lo v1).map fun (q1, _) =>
      correctQuotient u v (u128Shift (u128Shift { hi := 0#64, lo := q1 } n) (-63)).pred

/-! ### Double words -/

namespace U128

def toNat (u : U128) : ℕ := u.hi.toNat * 2 ^ 64 + u.lo.toNat

theorem toNat_lt (u : U128) : u.toNat < 2 ^ 128 := by
  have hhi := u.hi.isLt
  have hlo := u.lo.isLt
  rw [toNat]
  omega

theorem le_iff (u v : U128) : (u.hi < v.hi ∨ v.hi = u.hi ∧ u.lo ≤ v.lo) ↔ u.toNat ≤ v.toNat := by
  have hu := u.lo.isLt
  have hv := v.lo.isLt
  rw [BitVec.lt_def, BitVec.le_def, ← BitVec.toNat_inj, toNat, toNat]
  omega

theorem toNat_pred (q : U128) : q.pred.toNat = q.toNat - 1 := by
  have hhi := q.hi.isLt
  have hlo := q.lo.isLt
  have hzero (x : BitVec 64) : x = 0#64 ↔ x.toNat = 0 := by rw [← BitVec.toNat_inj, BitVec.toNat_ofNat, Nat.zero_mod]
  have hborrow : (if q.lo = 0#64 then 1#64 else 0#64).toNat = if q.lo.toNat = 0 then 1 else 0 := by
    simp only [hzero]
    split_ifs <;> rfl
  by_cases hcond : q.hi ≠ 0#64 ∨ q.lo ≠ 0#64
  · rw [pred, if_pos hcond, toNat, toNat, BitVec.toNat_sub, BitVec.toNat_sub, hborrow, BitVec.toNat_ofNat]
    rw [Ne, Ne, hzero, hzero] at hcond
    split_ifs <;> omega
  · rw [pred, if_neg hcond, toNat]
    rw [Ne, Ne, hzero, hzero] at hcond
    omega

theorem toNat_sub {u v : U128} (h : v.toNat ≤ u.toNat) : (u.sub v).toNat = u.toNat - v.toNat := by
  have huhi := u.hi.isLt
  have hulo := u.lo.isLt
  have hvhi := v.hi.isLt
  have hvlo := v.lo.isLt
  have hborrow : (if u.lo < v.lo then 1#64 else 0#64).toNat = if u.lo.toNat < v.lo.toNat then 1 else 0 := by
    simp only [BitVec.lt_def]
    split_ifs <;> rfl
  rw [toNat, toNat] at h
  rw [toNat, toNat, toNat, sub, BitVec.toNat_sub, BitVec.toNat_sub, BitVec.toNat_add, hborrow]
  split_ifs <;> omega

theorem toNat_mul (u v : U128) : (u.mul v).toNat = u.toNat * v.toNat % 2 ^ 128 := by
  have hhi : (u.mul v).hi.toNat = (u.hi.toNat * v.lo.toNat + u.lo.toNat * v.hi.toNat +
      u.lo.toNat * v.lo.toNat / 2 ^ 64) % 2 ^ 64 := by
    rw [mul, BitVec.toNat_add, BitVec.toNat_add, BitVec.toNat_mul, BitVec.toNat_mul, mullhiU64_eq,
      Libdivide.mullhiU64, toNat_mullhi, Nat.mod_add_mod]
    omega
  have hlo : (u.mul v).lo.toNat = u.lo.toNat * v.lo.toNat % 2 ^ 64 := by
    rw [mul, BitVec.toNat_mul]
  have hsplit : u.toNat * v.toNat = 2 ^ 128 * (u.hi.toNat * v.hi.toNat) +
      ((u.hi.toNat * v.lo.toNat + u.lo.toNat * v.hi.toNat) * 2 ^ 64 + u.lo.toNat * v.lo.toNat) := by
    rw [toNat, toNat]
    ring
  rw [toNat, hhi, hlo, hsplit, Nat.mul_add_mod]
  omega

end U128

theorem toNat_shiftLeft {u : U128} {n : ℕ} (hn : n < 64) (hfit : u.hi.toNat * 2 ^ n < 2 ^ 64) :
    (u128Shift u n).toNat = u.toNat * 2 ^ n := by
  rw [u128Shift]
  by_cases hpos : 0 < n
  · rw [if_pos (Int.natCast_pos.mpr hpos), Int.toNat_natCast]
    exact shiftLeft_words hn hfit
  · obtain rfl := Nat.eq_zero_of_not_pos hpos
    rw [if_neg (by decide), if_neg (by decide), Nat.pow_zero, Nat.mul_one]

theorem toNat_shiftRight (u : U128) {n : ℕ} (hpos : 0 < n) (hn : n < 64) :
    (u128Shift u (-n)).toNat = u.toNat / 2 ^ n := by
  have hlo := u.lo.isLt
  have hpow : 2 ^ (64 - n) * 2 ^ n = 2 ^ 64 := by rw [← Nat.pow_add, Nat.sub_add_cancel hn.le]
  have hword : u.lo.toNat / 2 ^ n < 2 ^ (64 - n) := by
    rwa [Nat.div_lt_iff_lt_mul (Nat.two_pow_pos n), hpow]
  have hcarry : (u.hi <<< (64 - n)).toNat = u.hi.toNat % 2 ^ n * 2 ^ (64 - n) := by
    rw [BitVec.toNat_shiftLeft, Nat.shiftLeft_eq, ← hpow, Nat.mul_comm (2 ^ (64 - n)), Nat.mul_mod_mul_right]
  have hlow : (u.lo >>> n ||| u.hi <<< (64 - n)).toNat = u.hi.toNat % 2 ^ n * 2 ^ (64 - n) + u.lo.toNat / 2 ^ n := by
    rw [BitVec.toNat_or, hcarry, BitVec.toNat_ushiftRight, Nat.shiftRight_eq_div_pow, Nat.or_comm, ← Nat.shiftLeft_eq,
      ← Nat.shiftLeft_add_eq_or_of_lt hword]
  have hwide : u.hi.toNat * 2 ^ 64 = u.hi.toNat * 2 ^ (64 - n) * 2 ^ n := by rw [Nat.mul_assoc, hpow]
  rw [u128Shift, if_neg (by omega), if_pos (by omega), neg_neg, Int.toNat_natCast, U128.toNat, hlow,
    BitVec.toNat_ushiftRight, Nat.shiftRight_eq_div_pow, U128.toNat, hwide, Nat.add_comm _ u.lo.toNat,
    Nat.add_mul_div_right _ _ (Nat.two_pow_pos n)]
  have hdigit := Nat.div_add_mod u.hi.toNat (2 ^ n)
  calc u.hi.toNat / 2 ^ n * 2 ^ 64 + (u.hi.toNat % 2 ^ n * 2 ^ (64 - n) + u.lo.toNat / 2 ^ n)
      = (2 ^ n * (u.hi.toNat / 2 ^ n) + u.hi.toNat % 2 ^ n) * 2 ^ (64 - n) + u.lo.toNat / 2 ^ n := by
        rw [← hpow]
        ring
    _ = u.lo.toNat / 2 ^ n + u.hi.toNat * 2 ^ (64 - n) := by rw [hdigit, Nat.add_comm]

/-! ### The quotient of double words -/

theorem correctQuotient_eq {u v q0 : U128} (hv : 0 < v.toNat) (hfit : u.toNat / v.toNat < 2 ^ 64)
    (hq0 : q0.toNat = u.toNat / v.toNat ∨ q0.toNat + 1 = u.toNat / v.toNat) :
    ∃ q rHi rLo, correctQuotient u v q0 = (q, rHi, rLo) ∧ q.toNat = u.toNat / v.toNat ∧
      rHi.toNat * 2 ^ 64 + rLo.toNat = u.toNat % v.toNat := by
  have hlo : q0.lo.toNat = q0.toNat := by
    have hlt := q0.lo.isLt
    rw [U128.toNat] at hq0 ⊢
    omega
  have hdiv := Nat.div_add_mod u.toNat v.toNat
  have hmod := Nat.mod_lt u.toNat hv
  have hle : q0.toNat * v.toNat ≤ u.toNat := by
    refine (Nat.mul_le_mul_right _ (?_ : q0.toNat ≤ u.toNat / v.toNat)).trans (Nat.div_mul_le_self _ _)
    omega
  have hmul : (q0.mul v).toNat = q0.toNat * v.toNat := by
    rw [U128.toNat_mul, Nat.mod_eq_of_lt (hle.trans_lt u.toNat_lt)]
  have hrest : (u.sub (q0.mul v)).toNat = u.toNat - q0.toNat * v.toNat := by
    rw [U128.toNat_sub (hmul.trans_le hle), hmul]
  rw [correctQuotient]
  simp only [U128.le_iff, hrest]
  rcases hq0 with hexact | hsmall
  · have hrem : u.toNat - q0.toNat * v.toNat = u.toNat % v.toNat := by
      rw [hexact, Nat.mod_def, Nat.mul_comm]
    rw [if_neg (by omega)]
    exact ⟨_, _, _, rfl, hlo.trans hexact, hrest.trans hrem⟩
  · have hrem : u.toNat - q0.toNat * v.toNat = v.toNat + u.toNat % v.toNat := by
      rw [← hsmall, Nat.mul_add, Nat.mul_one, Nat.mul_comm] at hdiv
      omega
    rw [if_pos (by omega)]
    refine ⟨_, _, _, rfl, ?_, ?_⟩
    · rw [BitVec.toNat_add, hlo, BitVec.toNat_ofNat, ← hsmall]
      omega
    · change ((u.sub (q0.mul v)).sub v).toNat = _
      rw [U128.toNat_sub (by omega), hrest, hrem, Nat.add_sub_cancel_left]

/-- The quotients that are words. -/
theorem quotient_lt {u v : U128} (h : v.hi ≠ 0#64 ∨ u.hi < v.lo) :
    0 < v.toNat ∧ u.toNat / v.toNat < 2 ^ 64 := by
  have hu := u.toNat_lt
  have hlo := u.lo.isLt
  have hpos : 0 < v.toNat ∧ u.toNat < 2 ^ 64 * v.toNat := by
    rw [Ne, ← BitVec.toNat_inj, BitVec.toNat_ofNat, Nat.zero_mod, BitVec.lt_def] at h
    rw [U128.toNat] at hu ⊢
    rw [U128.toNat]
    omega
  exact ⟨hpos.1, Nat.div_lt_of_lt_mul (by rw [Nat.mul_comm]; exact hpos.2)⟩

/-- The leading word of the divisor, and what it leaves out. -/
theorem leading_word {v : U128} (hv : v.hi ≠ 0#64) :
    v.hi.clz.toNat < 64 ∧ 2 ^ 63 ≤ (u128Shift v v.hi.clz.toNat).hi.toNat ∧ ∃ rest < 2 ^ (64 - v.hi.clz.toNat),
      v.toNat = (u128Shift v v.hi.clz.toNat).hi.toNat * 2 ^ (64 - v.hi.clz.toNat) + rest := by
  obtain ⟨hn, -, hlow, hup⟩ := normalized hv
  generalize v.hi.clz.toNat = n at *
  have hpow : 0 < 2 ^ n := Nat.two_pow_pos n
  have hwords := toNat_shiftLeft hn hup
  generalize u128Shift v n = v1 at *
  have hlo := v1.lo.isLt
  have hK : 2 ^ (64 - n) * 2 ^ n = 2 ^ 64 := by rw [← Nat.pow_add, Nat.sub_add_cancel hn.le]
  refine ⟨hn, ?_, v1.lo.toNat / 2 ^ n, ?_, ?_⟩
  · have hle : v.hi.toNat * 2 ^ n * 2 ^ 64 ≤ v.toNat * 2 ^ n := by
      rw [Nat.mul_right_comm]
      exact Nat.mul_le_mul_right _ (Nat.le_add_right _ _)
    rw [U128.toNat] at hwords
    omega
  · rwa [Nat.div_lt_iff_lt_mul hpow, hK]
  · rw [← Nat.mul_div_cancel v.toNat hpow, ← hwords, U128.toNat, ← hK, ← Nat.mul_assoc, Nat.add_comm,
      Nat.add_mul_div_right _ _ hpow, Nat.add_comm]

/-- A quotient by the leading word is put in place. -/
theorem placed_eq {n : ℕ} (hn : n < 64) (q1 : BitVec 64) :
    (u128Shift (u128Shift { hi := 0#64, lo := q1 } n) (-63)).toNat = q1.toNat / 2 ^ (63 - n) := by
  have hleft : (u128Shift { hi := 0#64, lo := q1 } n).toNat = q1.toNat * 2 ^ n := by
    rw [toNat_shiftLeft hn (by simp), U128.toNat]
    simp
  have hright := toNat_shiftRight (n := 63) (u128Shift { hi := 0#64, lo := q1 } n) (by norm_num) (by norm_num)
  have hsplit : 2 ^ 63 = 2 ^ (63 - n) * 2 ^ n := by rw [← Nat.pow_add, Nat.sub_add_cancel (by omega)]
  refine hright.trans ?_
  rw [hleft, hsplit, Nat.mul_div_mul_right _ _ (Nat.two_pow_pos n)]

/-- The estimate of the quotient is right or too large by one. -/
theorem estimate_eq {u v : U128} (hv : v.hi ≠ 0#64) : ∃ q1 r, div128By64 (u128Shift u (-1)).hi (u128Shift u (-1)).lo
    (u128Shift v v.hi.clz.toNat).hi = some (q1, r) ∧
      u.toNat / v.toNat ≤ (u128Shift (u128Shift { hi := 0#64, lo := q1 } v.hi.clz.toNat) (-63)).toNat ∧
      (u128Shift (u128Shift { hi := 0#64, lo := q1 } v.hi.clz.toNat) (-63)).toNat ≤ u.toNat / v.toNat + 1 := by
  obtain ⟨hn, hv1, rest, hrest, hvsplit⟩ := leading_word hv
  generalize v.hi.clz.toNat = n at *
  have hhalf : (u128Shift u (-1)).toNat = u.toNat / 2 ^ 1 := toNat_shiftRight (n := 1) u (by norm_num) (by norm_num)
  generalize (u128Shift v n).hi = v1 at *
  generalize u128Shift u (-1) = u1 at *
  have hu := u.toNat_lt
  -- With half the dividend, its high word is below the divisor and the quotient a word.
  have hu1 : u1.hi < v1 := by
    rw [BitVec.lt_def]
    rw [U128.toNat] at hhalf
    omega
  obtain ⟨q1, r, hdiv, hq1, -⟩ := div128By64_eq hu1 u1.lo
  have hplaced : (u128Shift (u128Shift { hi := 0#64, lo := q1 } n) (-63)).toNat =
      u.toNat / (v1.toNat * 2 ^ (64 - n)) := by
    have hdouble : 2 ^ 1 * 2 ^ (63 - n) = 2 ^ (64 - n) := by
      rw [← Nat.pow_add]
      congr 1
      omega
    rw [placed_eq hn, hq1, ← U128.toNat, hhalf, Nat.div_div_eq_div_mul, Nat.div_div_eq_div_mul, Nat.mul_left_comm,
      hdouble]
  refine ⟨q1, r, hdiv, ?_, ?_⟩
  · rw [hplaced]
    exact Nat.div_le_div_left (hvsplit ▸ Nat.le_add_right _ _) (Nat.mul_pos (by omega) (Nat.two_pow_pos _))
  · rw [hplaced, hvsplit]
    exact half_estimate hrest hv1 (hu.trans_eq (by norm_num))

theorem div128By128_words {u v : U128} (h : v.hi ≠ 0#64 ∨ u.hi < v.lo) :
    ∃ q rHi rLo, div128By128 u.hi u.lo v.hi v.lo = some (q, rHi, rLo) ∧ q.toNat = u.toNat / v.toNat ∧
      rHi.toNat * 2 ^ 64 + rLo.toNat = u.toNat % v.toNat := by
  obtain ⟨hpos, hfit⟩ := quotient_lt h
  by_cases hv : v.hi = 0#64
  · obtain ⟨q, r, hdiv, hq, hr⟩ := div128By64_eq (h.resolve_left (not_not_intro hv)) u.lo
    have hvlo : v.toNat = v.lo.toNat := by simp [U128.toNat, hv]
    refine ⟨q, 0#64, r, ?_, hq.trans (by rw [hvlo, U128.toNat]), ?_⟩
    · rw [div128By128, if_pos hv]
      exact Option.map_eq_some_iff.mpr ⟨(q, r), hdiv, rfl⟩
    · rw [hr, hvlo, U128.toNat]
      simp
  · obtain ⟨q1, r, hdiv, hge, hle⟩ := estimate_eq (u := u) hv
    have hpred : (u128Shift (u128Shift { hi := 0#64, lo := q1 } v.hi.clz.toNat) (-63)).pred.toNat =
        u.toNat / v.toNat ∨ (u128Shift (u128Shift { hi := 0#64, lo := q1 } v.hi.clz.toNat) (-63)).pred.toNat + 1 =
          u.toNat / v.toNat := by
      rw [U128.toNat_pred]
      generalize u.toNat / v.toNat = quotient at hge hle ⊢
      omega
    obtain ⟨q, rHi, rLo, hcorrect, hq, hr⟩ := correctQuotient_eq hpos hfit hpred
    refine ⟨q, rHi, rLo, ?_, hq, hr⟩
    rw [div128By128, if_neg hv]
    exact Option.map_eq_some_iff.mpr ⟨(q1, r), hdiv, hcorrect⟩

/-- Where the quotient is no word, all ones come with a remainder that the lower word of the quotient does not have. -/
theorem overflow_differs {uHi uLo vLo : BitVec 64} {x : BitVec 64 × BitVec 64 × BitVec 64}
    (hnative : Libdivide.div128By128 uHi uLo 0#64 vLo = .ok x) : x ≠ (BitVec.allOnes 64, 0#64, BitVec.allOnes 64) := by
  rintro rfl
  have hvlo := vLo.isLt
  rw [Libdivide.div128By128] at hnative
  generalize hu : uHi.setWidth 128 <<< 64 ||| uLo.setWidth 128 = u at hnative
  generalize hv : (0#64).setWidth 128 <<< 64 ||| vLo.setWidth 128 = v at hnative
  have hvnat : v.toNat = vLo.toNat := by
    rw [← hv, toNat_join]
    simp
  by_cases hzero : v = 0#128
  · simp [hzero] at hnative
  · simp only [if_neg hzero, Except.ok.injEq, Prod.mk.injEq] at hnative
    obtain ⟨hq, hhi, hlo⟩ := hnative
    have hpos : 0 < v.toNat := by
      refine Nat.pos_of_ne_zero fun hnat => hzero (BitVec.eq_of_toNat_eq ?_)
      rw [hnat, BitVec.toNat_ofNat, Nat.zero_mod]
    have hquot : u.toNat / v.toNat % 2 ^ 64 = 2 ^ 64 - 1 := by
      rw [← BitVec.toNat_udiv, ← BitVec.toNat_setWidth, hq, BitVec.toNat_allOnes]
    have hrem : (u - v * ((u / v).setWidth 64).setWidth 128).toNat = 2 ^ 64 - 1 := by
      rw [← toNat_split, hhi, hlo]
      simp
    have hprod : (v * ((u / v).setWidth 64).setWidth 128).toNat = v.toNat * (2 ^ 64 - 1) := by
      rw [hq, BitVec.toNat_mul, BitVec.toNat_setWidth_of_le (by decide), BitVec.toNat_allOnes]
      omega
    have hdividend : u.toNat = 2 ^ 64 - 1 - v.toNat + v.toNat * 2 ^ 64 := by
      have hback : u.toNat = ((u - v * ((u / v).setWidth 64).setWidth 128) +
          v * ((u / v).setWidth 64).setWidth 128).toNat := by rw [BitVec.sub_add_cancel]
      rw [BitVec.toNat_add, hrem, hprod] at hback
      omega
    rw [hdividend, Nat.add_mul_div_left _ _ hpos, Nat.add_mod_right] at hquot
    have hsmall := Nat.div_le_self (2 ^ 64 - 1 - v.toNat) v.toNat
    rw [Nat.mod_eq_of_lt (by omega)] at hquot
    omega

/-- **The portable division by 128 bits** agrees with the native one exactly where the quotient is a word; where it is
not, the portable one returns all ones. -/
theorem div128By128_agrees_iff (uHi uLo vHi vLo : BitVec 64) :
    (∃ x, Libdivide.div128By128 uHi uLo vHi vLo = .ok x ∧ div128By128 uHi uLo vHi vLo = some x) ↔
      vHi ≠ 0#64 ∨ uHi < vLo := by
  constructor
  · rintro ⟨x, hnative, hportable⟩
    by_contra hlarge
    obtain ⟨hvhi, hle⟩ := not_or.mp hlarge
    obtain rfl := not_not.mp hvhi
    rw [div128By128, if_pos rfl, div128By64, if_pos (BitVec.not_lt.mp hle)] at hportable
    exact overflow_differs hnative (Option.some.inj hportable).symm
  · intro h
    obtain ⟨q, rHi, rLo, hportable, hq, hr⟩ :=
      div128By128_words (u := { hi := uHi, lo := uLo }) (v := { hi := vHi, lo := vLo }) h
    obtain ⟨hpos, hfit⟩ := quotient_lt (u := { hi := uHi, lo := uLo }) (v := { hi := vHi, lo := vLo }) h
    obtain ⟨q', rHi', rLo', hnative, hq', hr'⟩ := div128By128_eq rfl rfl hpos hfit
    have hwords := hr.trans hr'.symm
    have hlt := rLo.isLt
    have hlt' := rLo'.isLt
    refine ⟨(q', rHi', rLo'), hnative, hportable.trans (congrArg some (Prod.ext ?_ (Prod.ext ?_ ?_)))⟩
    · exact BitVec.eq_of_toNat_eq (hq.trans hq'.symm)
    · exact BitVec.eq_of_toNat_eq (by dsimp only; omega)
    · exact BitVec.eq_of_toNat_eq (by dsimp only; omega)

end HashingArchive.Reduction.Libdivide.Portable
