import HashingArchive.Reduction.Libdivide

/-!
# Recovering the divisor

`recover` computes the divisor of a divider again from its multiplier. With the upper bit of the multiplier left out
this takes a dividend of a bit more than two words; half of it is divided, and quotient and remainder are doubled.
-/

namespace HashingArchive.Reduction.Libdivide

open HashingArchive.Library

/-! ### The code -/

/-- `libdivide_128_div_128_to_64` with `__uint128_t`: the quotient, and the two words of the remainder. -/
def div128By128 (uHi uLo vHi vLo : BitVec 64) : Except Fault (BitVec 64 × BitVec 64 × BitVec 64) :=
  let ufull := uHi.setWidth 128 <<< 64 ||| uLo.setWidth 128
  let vfull := vHi.setWidth 128 <<< 64 ||| vLo.setWidth 128
  if vfull = 0#128 then .error .divideError
  else
    let res := (ufull / vfull).setWidth 64
    let remainder := ufull - vfull * res.setWidth 128
    .ok (res, (remainder >>> 64).setWidth 64, remainder.setWidth 64)

/-- The path of `libdivide_u32_recover` with the add indicator, which `libdivide_u32_branchfree_recover` repeats. -/
def u32RecoverAdd (shift : BitVec 8) (magic : BitVec 32) : BitVec 32 :=
  let halfN := 1#64 <<< (32 + shift.toNat)
  let d := 1#64 <<< 32 ||| magic.setWidth 64
  let halfQ := (halfN / d).setWidth 32
  let rem := halfN % d
  let fullQ := halfQ + halfQ + if d ≤ rem <<< 1 then 1#32 else 0#32
  fullQ + 1#32

/-- The same path of `libdivide_u64_recover` and `libdivide_u64_branchfree_recover`. -/
def u64RecoverAdd (shift : BitVec 8) (magic : BitVec 64) : Except Fault (BitVec 64) :=
  let halfNHi := 1#64 <<< shift
  let dHi := 1#64
  let dLo := magic
  (div128By128 halfNHi 0#64 dHi dLo).map fun (halfQ, rHi, rLo) =>
    let drLo := rLo + rLo
    let drHi := rHi + rHi + if drLo < rLo then 1#64 else 0#64
    let drExceedsD := dHi < drHi ∨ drHi = dHi ∧ dLo ≤ drLo
    let fullQ := halfQ + halfQ + if drExceedsD then 1#64 else 0#64
    fullQ + 1#64

/-- The two paths of `recover` that `u32` and `u64` share. -/
def branchfullRecover (t : Unsigned) (recoverAdd : BitVec 8 → BitVec t.bits → Except Fault (BitVec t.bits))
    (denom : Denom t .branchfull) : Except Fault (BitVec t.bits) :=
  let shift := denom.more &&& t.shiftMask
  if denom.magic = 0#t.bits then .ok (1#t.bits <<< shift)
  else if denom.more &&& addMarker = 0#8 then
    (divDouble (1#t.bits <<< shift) 0#t.bits denom.magic).map fun (q, _) => 1#t.bits + q
  else recoverAdd shift denom.magic

def branchfreeRecover (t : Unsigned) (recoverAdd : BitVec 8 → BitVec t.bits → Except Fault (BitVec t.bits))
    (denom : Denom t .branchfree) : Except Fault (BitVec t.bits) :=
  let shift := denom.more &&& t.shiftMask
  if denom.magic = 0#t.bits then .ok (1#t.bits <<< (shift.toNat + 1)) else recoverAdd shift denom.magic

def u32Recover : Denom .u32 .branchfull → Except Fault (BitVec 32) :=
  branchfullRecover .u32 fun shift magic => .ok (u32RecoverAdd shift magic)

def u64Recover : Denom .u64 .branchfull → Except Fault (BitVec 64) := branchfullRecover .u64 u64RecoverAdd

def u32BranchfreeRecover : Denom .u32 .branchfree → Except Fault (BitVec 32) :=
  branchfreeRecover .u32 fun shift magic => .ok (u32RecoverAdd shift magic)

def u64BranchfreeRecover : Denom .u64 .branchfree → Except Fault (BitVec 64) := branchfreeRecover .u64 u64RecoverAdd

/-- `dispatcher::recover`. -/
def recover : {t : Unsigned} → {algo : Branching} → Denom t algo → Except Fault (BitVec t.bits)
  | .u32, .branchfull => u32Recover
  | .u32, .branchfree => u32BranchfreeRecover
  | .u64, .branchfull => u64Recover
  | .u64, .branchfree => u64BranchfreeRecover

/-! ### The double words -/

theorem toNat_join (hi lo : BitVec 64) :
    (hi.setWidth 128 <<< 64 ||| lo.setWidth 128).toNat = hi.toNat * 2 ^ 64 + lo.toNat := by
  have hhi := hi.isLt
  have hlo := lo.isLt
  have hfit : hi.toNat * 2 ^ 64 < 2 ^ 128 := by omega
  rw [BitVec.toNat_or, BitVec.toNat_shiftLeft, BitVec.toNat_setWidth, BitVec.toNat_setWidth,
    Nat.mod_eq_of_lt (hhi.trans (by norm_num)), Nat.mod_eq_of_lt (hlo.trans (by norm_num)), Nat.shiftLeft_eq,
    Nat.mod_eq_of_lt hfit, ← Nat.shiftLeft_eq, Nat.shiftLeft_add_eq_or_of_lt hlo]

/-- A double word is put together again from its two words. -/
theorem toNat_split (x : BitVec 128) :
    ((x >>> 64).setWidth 64).toNat * 2 ^ 64 + (x.setWidth 64).toNat = x.toNat := by
  have hx := x.isLt
  rw [BitVec.toNat_setWidth, BitVec.toNat_setWidth, BitVec.toNat_ushiftRight, Nat.shiftRight_eq_div_pow]
  omega

/-- With a quotient that is a word, both results are exact. -/
theorem div128By128_eq {uHi uLo vHi vLo : BitVec 64} {u v : ℕ} (hu : uHi.toNat * 2 ^ 64 + uLo.toNat = u)
    (hv : vHi.toNat * 2 ^ 64 + vLo.toNat = v) (hpos : 0 < v) (hfit : u / v < 2 ^ 64) :
    ∃ q rHi rLo, div128By128 uHi uLo vHi vLo = .ok (q, rHi, rLo) ∧ q.toNat = u / v ∧
      rHi.toNat * 2 ^ 64 + rLo.toNat = u % v := by
  have hufull := (toNat_join uHi uLo).trans hu
  have hvfull := (toNat_join vHi vLo).trans hv
  rw [div128By128]
  generalize uHi.setWidth 128 <<< 64 ||| uLo.setWidth 128 = ufull at hufull ⊢
  generalize vHi.setWidth 128 <<< 64 ||| vLo.setWidth 128 = vfull at hvfull ⊢
  have hzero : vfull ≠ 0#128 := by
    rintro rfl
    rw [BitVec.toNat_ofNat, Nat.zero_mod] at hvfull
    omega
  have hres : ((ufull / vfull).setWidth 64).toNat = u / v := by
    rw [BitVec.toNat_setWidth, BitVec.toNat_udiv, hufull, hvfull, Nat.mod_eq_of_lt hfit]
  have hwide : (((ufull / vfull).setWidth 64).setWidth 128).toNat = ufull.toNat / vfull.toNat := by
    rw [BitVec.toNat_setWidth_of_le (by decide), hres, hufull, hvfull]
  refine ⟨_, _, _, if_neg hzero, hres, ?_⟩
  rw [toNat_split, BitVec.mul_comm, toNat_sub_mul hwide, hufull, hvfull]

/-! ### The larger power -/

section
variable {W K d M : ℕ} (hK : 0 < K) (hKW : K < W) (hlow : K < d) (hup : d < 2 * K) (hM : M = 2 * (K * W) / d + 1)
include hK hKW hlow hup hM

/-- Half the dividend has a quotient that is a word. -/
theorem half_lt : W < M ∧ K * W / M < W := by
  obtain ⟨hle, -⟩ := long_bounds hK hKW hlow hup
  have hlt : K * W / M ≤ K := Nat.div_le_of_le_mul (by rw [Nat.mul_comm]; exact Nat.mul_le_mul_right K (by omega))
  omega

/-- Twice the quotient of half the dividend, corrected, is one below the divisor. -/
theorem doubled_half (hdW : d < W) :
    2 * (K * W / M) + (if M ≤ 2 * (K * W % M) then 1 else 0) + 1 = d := by
  obtain ⟨hle, -⟩ := long_bounds hK hKW hlow hup
  have hd : 0 < d := hK.trans hlow
  rw [← two_mul_div (by omega : 0 < M) (K * W), hM]
  exact div_succ_div hd (by omega)

end

/-- The sum of the doubled quotient, the correction and one does not wrap. -/
theorem toNat_fullQ {w d : ℕ} {q : BitVec w} {p : Prop} [Decidable p] (hd : d < 2 ^ w)
    (h : 2 * q.toNat + (if p then 1 else 0) + 1 = d) : (q + q + (if p then 1#w else 0#w) + 1#w).toNat = d := by
  have hcorrection : (if p then 1#w else 0#w).toNat = (if p then 1 else 0) % 2 ^ w := by
    split_ifs <;> rw [BitVec.toNat_ofNat]
  rw [BitVec.toNat_add, BitVec.toNat_add, BitVec.toNat_add, hcorrection, ← Nat.two_mul, BitVec.toNat_ofNat,
    Nat.add_mod_mod, Nat.mod_add_mod, Nat.add_right_comm, Nat.add_mod_mod, Nat.add_right_comm, Nat.add_assoc,
    Nat.mod_add_mod, ← Nat.add_assoc, h, Nat.mod_eq_of_lt hd]

theorem toNat_u32RecoverAdd {k d : ℕ} {magic : BitVec 32} (hk : k < 32) (hlow : 2 ^ k < d) (hup : d < 2 ^ (k + 1))
    (hd : d < 2 ^ 32) (hmagic : magic.toNat + 2 ^ 32 = 2 * (2 ^ k * 2 ^ 32) / d + 1) :
    (u32RecoverAdd (BitVec.ofNat 8 k) magic).toNat = d := by
  have hshift : (BitVec.ofNat 8 k).toNat = k := toNat_shift (t := .u32) hk
  have hKW : 2 ^ k < 2 ^ 32 := Nat.pow_lt_pow_right (by norm_num) hk
  have hmagiclt := magic.isLt
  rw [Nat.pow_succ'] at hup
  obtain ⟨hM, hhalf⟩ := half_lt (Nat.two_pow_pos k) hKW hlow hup hmagic
  have hdouble := doubled_half (Nat.two_pow_pos k) hKW hlow hup hmagic hd
  have hn : (1#64 <<< (32 + k)).toNat = 2 ^ k * 2 ^ 32 := by
    rw [toNat_one_shiftLeft (by omega), Nat.add_comm, Nat.pow_add]
  have hm : (1#64 <<< 32 ||| magic.setWidth 64).toNat = magic.toNat + 2 ^ 32 := by
    rw [BitVec.toNat_or, toNat_one_shiftLeft (by norm_num), BitVec.toNat_setWidth, Nat.mod_eq_of_lt (by omega),
      ← Nat.one_shiftLeft, ← Nat.shiftLeft_add_eq_or_of_lt hmagiclt, Nat.one_shiftLeft, Nat.add_comm]
  have hrem : 2 ^ k * 2 ^ 32 % (magic.toNat + 2 ^ 32) < magic.toNat + 2 ^ 32 := Nat.mod_lt _ (by omega)
  simp only [u32RecoverAdd, hshift]
  refine toNat_fullQ hd ?_
  simp only [BitVec.le_def, BitVec.toNat_shiftLeft, BitVec.toNat_setWidth, BitVec.toNat_udiv, BitVec.toNat_umod, hn, hm]
  rw [Nat.mod_eq_of_lt hhalf, Nat.shiftLeft_eq, Nat.pow_one, Nat.mul_comm _ 2, Nat.mod_eq_of_lt (by omega), hdouble]

/-- Twice a double word below `2 ^ 65`, with its carry. -/
theorem double_words {rHi : BitVec 64} (h : rHi.toNat < 2) (rLo : BitVec 64) :
    (rHi + rHi + if rLo + rLo < rLo then 1#64 else 0#64).toNat * 2 ^ 64 + (rLo + rLo).toNat =
      2 * (rHi.toNat * 2 ^ 64 + rLo.toNat) := by
  have hlo := rLo.isLt
  have hcarry : (if rLo + rLo < rLo then 1#64 else 0#64).toNat = if 2 ^ 64 ≤ 2 * rLo.toNat then 1 else 0 := by
    have hiff : rLo + rLo < rLo ↔ 2 ^ 64 ≤ 2 * rLo.toNat := by
      rw [BitVec.lt_def, BitVec.toNat_add]
      omega
    simp only [hiff]
    split_ifs <;> rfl
  rw [BitVec.toNat_add, BitVec.toNat_add, BitVec.toNat_add, hcarry]
  split_ifs <;> omega

/-- Double words are compared by the high word first. -/
theorem words_le_iff {hi lo lo' : BitVec 64} :
    (1#64 < hi ∨ hi = 1#64 ∧ lo' ≤ lo) ↔ lo'.toNat + 2 ^ 64 ≤ hi.toNat * 2 ^ 64 + lo.toNat := by
  have hlo := lo.isLt
  have hlo' := lo'.isLt
  rw [BitVec.lt_def, BitVec.le_def, ← BitVec.toNat_inj, BitVec.toNat_ofNat]
  omega

theorem u64RecoverAdd_eq {k d : ℕ} {magic : BitVec 64} (hk : k < 64) (hlow : 2 ^ k < d) (hup : d < 2 ^ (k + 1))
    (hd : d < 2 ^ 64) (hmagic : magic.toNat + 2 ^ 64 = 2 * (2 ^ k * 2 ^ 64) / d + 1) :
    ∃ r, u64RecoverAdd (BitVec.ofNat 8 k) magic = .ok r ∧ r.toNat = d := by
  have hshift : (BitVec.ofNat 8 k).toNat = k := toNat_shift (t := .u64) hk
  have hKW : 2 ^ k < 2 ^ 64 := Nat.pow_lt_pow_right (by norm_num) hk
  have hmagiclt := magic.isLt
  rw [Nat.pow_succ'] at hup
  obtain ⟨hM, hhalf⟩ := half_lt (Nat.two_pow_pos k) hKW hlow hup hmagic
  have hdouble := doubled_half (Nat.two_pow_pos k) hKW hlow hup hmagic hd
  have hu : (1#64 <<< BitVec.ofNat 8 k).toNat * 2 ^ 64 + (0#64).toNat = 2 ^ k * 2 ^ 64 := by
    rw [BitVec.shiftLeft_eq', hshift, toNat_one_shiftLeft hk, BitVec.toNat_ofNat, Nat.zero_mod, Nat.add_zero]
  have hv : (1#64).toNat * 2 ^ 64 + magic.toNat = magic.toNat + 2 ^ 64 := by
    rw [BitVec.toNat_ofNat, Nat.mod_eq_of_lt (by norm_num), Nat.one_mul, Nat.add_comm]
  obtain ⟨q, rHi, rLo, hdiv, hq, hr⟩ := div128By128_eq hu hv (by omega) hhalf
  have hrem : 2 ^ k * 2 ^ 64 % (magic.toNat + 2 ^ 64) < magic.toNat + 2 ^ 64 := Nat.mod_lt _ (by omega)
  have htwice := double_words (show rHi.toNat < 2 by omega) rLo
  rw [u64RecoverAdd, hdiv]
  refine ⟨_, rfl, toNat_fullQ hd ?_⟩
  simp only [words_le_iff, htwice, hr]
  rw [hq, hdouble]

/-! ### The round trip -/

/-- The path with the add indicator is right for divisors between `2 ^ k` and `2 ^ (k + 1)`. -/
def RecoversLong (t : Unsigned) (recoverAdd : BitVec 8 → BitVec t.bits → Except Fault (BitVec t.bits)) : Prop :=
  ∀ (k : ℕ) (magic d : BitVec t.bits), k < t.bits → 2 ^ k < d.toNat → d.toNat < 2 ^ (k + 1) →
    magic.toNat + 2 ^ t.bits = 2 * (2 ^ k * 2 ^ t.bits) / d.toNat + 1 → recoverAdd (BitVec.ofNat 8 k) magic = .ok d

theorem u32RecoverAdd_recovers : RecoversLong .u32 fun shift magic => .ok (u32RecoverAdd shift magic) := by
  intro k magic d hk hlow hup hmagic
  exact congrArg Except.ok (BitVec.eq_of_toNat_eq (toNat_u32RecoverAdd hk hlow hup d.isLt hmagic))

theorem u64RecoverAdd_recovers : RecoversLong .u64 u64RecoverAdd := by
  intro k magic d hk hlow hup hmagic
  obtain ⟨r, hr, hd⟩ := u64RecoverAdd_eq hk hlow hup d.isLt hmagic
  rw [hr, BitVec.eq_of_toNat_eq hd]

section
variable {t : Unsigned} {recoverAdd : BitVec 8 → BitVec t.bits → Except Fault (BitVec t.bits)}
  (hadd : RecoversLong t recoverAdd) {d : BitVec t.bits}
include hadd

theorem branchfullRecover_eq {denom : Denom t .branchfull} (h : Generated t d.toNat false denom) :
    branchfullRecover t recoverAdd denom = .ok d := by
  generalize hn : d.toNat = n at h
  cases h with
  | power k hk hd =>
    rw [branchfullRecover, if_pos rfl, if_neg Bool.false_ne_true, BitVec.sub_zero, shift_and_shiftMask hk]
    refine congrArg Except.ok (BitVec.eq_of_toNat_eq ?_)
    rw [BitVec.shiftLeft_eq', toNat_shift hk, toNat_one_shiftLeft hk, hn, hd]
  | short k magic hk hlow hup _ hmagic hexcess =>
    have hd : 0 < n := (Nat.two_pow_pos k).trans hlow
    have hdW : n < 2 ^ t.bits := hn ▸ d.isLt
    have hquot : 2 ^ k ≤ 2 ^ k * 2 ^ t.bits / n := by
      rw [Nat.le_div_iff_mul_le hd]
      exact Nat.mul_le_mul_left _ hdW.le
    have hfits : 1#t.bits <<< k < magic := by
      rw [BitVec.lt_def, toNat_one_shiftLeft hk]
      omega
    obtain ⟨q, rem, hdiv, hq, -⟩ := divDouble_eq hfits 0#t.bits
    rw [toNat_one_shiftLeft hk, BitVec.toNat_ofNat, Nat.zero_mod, Nat.add_zero] at hq
    rw [branchfullRecover, if_neg (short_ne_zero hmagic), if_pos (shift_and_addMarker hk), shift_and_shiftMask hk,
      BitVec.shiftLeft_eq', toNat_shift hk, hdiv]
    refine congrArg Except.ok (BitVec.eq_of_toNat_eq ?_)
    have hback : 2 ^ k * 2 ^ t.bits / magic.toNat + 1 = n := by
      rw [hmagic]
      exact div_succ_div hd (by omega)
    rw [BitVec.toNat_add, BitVec.toNat_ofNat, Nat.mod_add_mod, hq, Nat.add_comm, hback, Nat.mod_eq_of_lt hdW, hn]
  | long k magic hk hlow hup hmagic =>
    rw [branchfullRecover, if_neg (long_ne_zero hk hlow hup hmagic), if_neg (marked_and_addMarker hk),
      marked_and_shiftMask hk]
    subst hn
    exact hadd k magic d hk hlow hup hmagic

theorem branchfreeRecover_eq {tmp : Denom t .branchfull} (hd : 1 < d.toNat) (h : Generated t d.toNat true tmp) :
    branchfreeRecover t recoverAdd (branchfreeDenom tmp) = .ok d := by
  generalize hn : d.toNat = n at h hd
  cases h with
  | power k hk hpow =>
    obtain ⟨k, rfl⟩ : ∃ j, k = j + 1 := Nat.exists_eq_succ_of_ne_zero (by rintro rfl; omega)
    have hk' : k < t.bits := Nat.lt_of_succ_lt hk
    rw [branchfreeRecover, if_pos rfl, branchfreeDenom, if_pos rfl, shift_pred hk, shift_and_shiftMask hk',
      toNat_shift hk']
    refine congrArg Except.ok (BitVec.eq_of_toNat_eq ?_)
    rw [toNat_one_shiftLeft hk, hn, hpow]
  | short k magic hk hlow hup hfull => exact absurd hfull (by decide)
  | long k magic hk hlow hup hmagic =>
    rw [branchfreeRecover, branchfreeDenom, if_neg (long_ne_zero hk hlow hup hmagic), marked_and_shiftMask hk,
      shift_and_shiftMask hk]
    subst hn
    exact hadd k magic d hk hlow hup hmagic

end

theorem exists_recover {t : Unsigned} {algo : Branching} {d : BitVec t.bits} (h : Accepts algo d) :
    ∃ denom, gen t algo d = .ok denom ∧ recover denom = .ok d := by
  obtain ⟨hzero, hone⟩ := h
  cases algo with
  | branchfull =>
    obtain ⟨denom, hgen, hform⟩ := internalGen_generated t hzero false
    refine ⟨denom, (gen_branchfull t d).trans hgen, ?_⟩
    cases t with
    | u32 => exact branchfullRecover_eq u32RecoverAdd_recovers hform
    | u64 => exact branchfullRecover_eq u64RecoverAdd_recovers hform
  | branchfree =>
    obtain ⟨tmp, hgen, hform⟩ := internalGen_generated t hzero true
    have hd := one_lt_toNat hzero (hone rfl)
    refine ⟨_, (gen_branchfree t d).trans (branchfreeGen_eq (hone rfl) hgen), ?_⟩
    cases t with
    | u32 => exact branchfreeRecover_eq u32RecoverAdd_recovers hd hform
    | u64 => exact branchfreeRecover_eq u64RecoverAdd_recovers hd hform

/-- **`recover` gives back the divisor** that the divider was made from, so two dividers are the same only if their
divisors are. -/
theorem recover_gen {t : Unsigned} {algo : Branching} {d : BitVec t.bits} {denom : Denom t algo}
    (h : gen t algo d = .ok denom) :
    recover denom = .ok d ∧ ∀ d', gen t algo d' = .ok denom → d' = d := by
  have hrecover {d' : BitVec t.bits} (h' : gen t algo d' = .ok denom) : recover denom = .ok d' := by
    by_cases haccepts : Accepts algo d'
    · obtain ⟨denom', hgen, hback⟩ := exists_recover haccepts
      rwa [Except.ok.inj (h'.symm.trans hgen)]
    · rw [gen_of_not_accepts haccepts] at h'
      cases h'
  exact ⟨hrecover h, fun d' h' => Except.ok.inj ((hrecover h').symm.trans (hrecover h))⟩

def divideByTen : Denom .u32 .branchfull where
  magic := 0xCCCCCCCD#32
  more := 3#8

theorem recover_gen_ten :
    recover divideByTen = .ok 10#32 ∧ ∀ d, gen .u32 .branchfull d = .ok divideByTen → d = 10#32 :=
  recover_gen (show gen .u32 .branchfull 10#32 = .ok divideByTen from rfl)

end HashingArchive.Reduction.Libdivide
