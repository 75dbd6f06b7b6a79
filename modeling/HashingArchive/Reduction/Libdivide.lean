import HashingArchive.Library.MagicDivision

/-!
# libdivide

The unsigned dividers of `libdivide.h` that `FastModulo` and `BranchlessFastModulo` are built from. A divider is made
once from its divisor, with one wide division, and divides by a multiplication and shifts ever after. What `gen` stores
is one of three forms (`Generated`), and dividing and recovering the divisor are read off that form.

The wide division is the `div` instruction of the processor, which faults where the quotient does not fit
(`divDouble`); the code that stands in for it on other processors is in `LibdividePortable`.
-/

namespace HashingArchive.Reduction.Libdivide

open HashingArchive.Library

/-! ### Types -/

/-- What ends the program: `LIBDIVIDE_ERROR`, which aborts, or the fault of a division instruction. -/
inductive Fault where
  | error (msg : String)
  | divideError
  deriving DecidableEq

/-- The unsigned types of the dispatcher. -/
inductive Unsigned where
  | u32
  | u64
  deriving DecidableEq

abbrev Unsigned.bits : Unsigned → ℕ
  | .u32 => 32
  | .u64 => 64

/-- `LIBDIVIDE_32_SHIFT_MASK` and `LIBDIVIDE_64_SHIFT_MASK`. -/
def Unsigned.shiftMask : Unsigned → BitVec 8
  | .u32 => 0x1F#8
  | .u64 => 0x3F#8

/-- `LIBDIVIDE_ADD_MARKER`. -/
def addMarker : BitVec 8 := 0x40#8

inductive Branching where
  | branchfull
  | branchfree
  deriving DecidableEq

/-- `libdivide_u32_t`, `libdivide_u64_t`, `libdivide_u32_branchfree_t` and `libdivide_u64_branchfree_t`. -/
structure Denom (t : Unsigned) (algo : Branching) where
  magic : BitVec t.bits
  more : BitVec 8

/-! ### Utilities -/

/-- The upper word of a product. -/
def mullhi {w : ℕ} (x y : BitVec w) : BitVec w :=
  ((x.setWidth (w + w) * y.setWidth (w + w)) >>> w).setWidth w

def mullhiU32 : BitVec 32 → BitVec 32 → BitVec 32 := mullhi

/-- `libdivide_mullhi_u64` with `__uint128_t`. -/
def mullhiU64 : BitVec 64 → BitVec 64 → BitVec 64 := mullhi

/-- `div`: quotient and remainder of the double word `u1 u0` by `v`, and a fault if the quotient is no word. -/
def divDouble {w : ℕ} (u1 u0 v : BitVec w) : Except Fault (BitVec w × BitVec w) :=
  if v ≤ u1 then .error .divideError
  else .ok (((u1 ++ u0) / v.setWidth (w + w)).setWidth w, ((u1 ++ u0) % v.setWidth (w + w)).setWidth w)

/-- `libdivide_64_div_32_to_32`, with `divl`. -/
def div64By32 : BitVec 32 → BitVec 32 → BitVec 32 → Except Fault (BitVec 32 × BitVec 32) := divDouble

/-- `libdivide_128_div_64_to_64`, with `divq`. -/
def div128By64 : BitVec 64 → BitVec 64 → BitVec 64 → Except Fault (BitVec 64 × BitVec 64) := divDouble

/-! ### Making a divider -/

/-- `libdivide_internal_u32_gen` and `libdivide_internal_u64_gen`. -/
def internalGen (t : Unsigned) (d : BitVec t.bits) (branchfree : Bool) : Except Fault (Denom t .branchfull) :=
  if d = 0#t.bits then .error (.error "divider must be != 0")
  else
    let floorLog2D := t.bits - 1 - d.clz.toNat
    if d &&& (d - 1#t.bits) = 0#t.bits then
      .ok { magic := 0#t.bits, more := BitVec.ofNat 8 floorLog2D - if branchfree then 1#8 else 0#8 }
    else
      match divDouble (1#t.bits <<< floorLog2D) 0#t.bits d with
      | .error fault => .error fault
      | .ok (proposedM, rem) =>
        let e := d - rem
        if !branchfree ∧ e < 1#t.bits <<< floorLog2D then
          .ok { magic := 1#t.bits + proposedM, more := BitVec.ofNat 8 floorLog2D }
        else
          -- The next power: quotient and remainder are doubled, the quotient modulo the word.
          let twiceRem := rem + rem
          let proposedM := proposedM + proposedM + if d ≤ twiceRem ∨ twiceRem < rem then 1#t.bits else 0#t.bits
          .ok { magic := 1#t.bits + proposedM, more := BitVec.ofNat 8 floorLog2D ||| addMarker }

def branchfullGen (t : Unsigned) (d : BitVec t.bits) : Except Fault (Denom t .branchfull) := internalGen t d false

/-- `ret` of the two `branchfree_gen`. -/
def branchfreeDenom {t : Unsigned} (tmp : Denom t .branchfull) : Denom t .branchfree where
  magic := tmp.magic
  more := tmp.more &&& t.shiftMask

def branchfreeGen (t : Unsigned) (d : BitVec t.bits) : Except Fault (Denom t .branchfree) :=
  if d = 1#t.bits then .error (.error "branchfree divider must be != 1")
  else (internalGen t d true).map branchfreeDenom

def u32Gen : BitVec 32 → Except Fault (Denom .u32 .branchfull) := branchfullGen .u32

def u64Gen : BitVec 64 → Except Fault (Denom .u64 .branchfull) := branchfullGen .u64

def u32BranchfreeGen : BitVec 32 → Except Fault (Denom .u32 .branchfree) := branchfreeGen .u32

def u64BranchfreeGen : BitVec 64 → Except Fault (Denom .u64 .branchfree) := branchfreeGen .u64

/-! ### Dividing -/

def branchfullDo (t : Unsigned) (numer : BitVec t.bits) (denom : Denom t .branchfull) : BitVec t.bits :=
  let more := denom.more
  if denom.magic = 0#t.bits then numer >>> more
  else
    let q := mullhi denom.magic numer
    if more &&& addMarker ≠ 0#8 then (((numer - q) >>> 1) + q) >>> (more &&& t.shiftMask)
    else q >>> more

def branchfreeDo (t : Unsigned) (numer : BitVec t.bits) (denom : Denom t .branchfree) : BitVec t.bits :=
  let q := mullhi denom.magic numer
  (((numer - q) >>> 1) + q) >>> denom.more

def u32Do : BitVec 32 → Denom .u32 .branchfull → BitVec 32 := branchfullDo .u32

def u64Do : BitVec 64 → Denom .u64 .branchfull → BitVec 64 := branchfullDo .u64

def u32BranchfreeDo : BitVec 32 → Denom .u32 .branchfree → BitVec 32 := branchfreeDo .u32

def u64BranchfreeDo : BitVec 64 → Denom .u64 .branchfree → BitVec 64 := branchfreeDo .u64

/-! ### The dispatcher -/

/-- The constructor of `dispatcher`. -/
def gen : (t : Unsigned) → (algo : Branching) → BitVec t.bits → Except Fault (Denom t algo)
  | .u32, .branchfull => u32Gen
  | .u32, .branchfree => u32BranchfreeGen
  | .u64, .branchfull => u64Gen
  | .u64, .branchfree => u64BranchfreeGen

/-- `dispatcher::divide`, which is the operator `/` of a divider. -/
def divide : {t : Unsigned} → {algo : Branching} → BitVec t.bits → Denom t algo → BitVec t.bits
  | .u32, .branchfull => u32Do
  | .u32, .branchfree => u32BranchfreeDo
  | .u64, .branchfull => u64Do
  | .u64, .branchfree => u64BranchfreeDo

theorem gen_branchfull (t : Unsigned) (d : BitVec t.bits) : gen t .branchfull d = internalGen t d false := by
  cases t <;> rfl

theorem gen_branchfree (t : Unsigned) (d : BitVec t.bits) : gen t .branchfree d = branchfreeGen t d := by
  cases t <;> rfl

theorem divide_branchfull {t : Unsigned} (numer : BitVec t.bits) (denom : Denom t .branchfull) :
    divide numer denom = branchfullDo t numer denom := by
  cases t <;> rfl

theorem divide_branchfree {t : Unsigned} (numer : BitVec t.bits) (denom : Denom t .branchfree) :
    divide numer denom = branchfreeDo t numer denom := by
  cases t <;> rfl

/-! ### What the utilities compute -/

theorem toNat_mullhi {w : ℕ} (x y : BitVec w) : (mullhi x y).toNat = x.toNat * y.toNat / 2 ^ w := by
  have hx := x.isLt
  have hy := y.isLt
  have hprod : x.toNat * y.toNat < 2 ^ (w + w) := by
    rw [Nat.pow_add]
    exact Nat.mul_lt_mul'' hx hy
  have hle : 2 ^ w ≤ 2 ^ (w + w) := Nat.pow_le_pow_right (by norm_num) (by omega)
  have hhigh : x.toNat * y.toNat / 2 ^ w < 2 ^ w := by
    rwa [Nat.div_lt_iff_lt_mul (by positivity), ← Nat.pow_add]
  rw [mullhi, BitVec.toNat_setWidth, BitVec.toNat_ushiftRight, BitVec.toNat_mul, BitVec.toNat_setWidth,
    BitVec.toNat_setWidth, Nat.mod_eq_of_lt (hx.trans_le hle), Nat.mod_eq_of_lt (hy.trans_le hle),
    Nat.mod_eq_of_lt hprod, Nat.shiftRight_eq_div_pow, Nat.mod_eq_of_lt hhigh]

/-- What is left of a word when the quotient is multiplied back. -/
theorem toNat_sub_mul {w : ℕ} {x q d : BitVec w} (hq : q.toNat = x.toNat / d.toNat) :
    (x - q * d).toNat = x.toNat % d.toNat := by
  have hle : x.toNat / d.toNat * d.toNat ≤ x.toNat := Nat.div_mul_le_self _ _
  have hprod : (q * d).toNat = x.toNat / d.toNat * d.toNat := by
    rw [BitVec.toNat_mul, hq, Nat.mod_eq_of_lt (hle.trans_lt x.isLt)]
  rw [BitVec.toNat_sub_of_le (BitVec.le_def.mpr (hprod.trans_le hle)), hprod, Nat.mod_def, Nat.mul_comm d.toNat]

theorem toNat_append_eq {w : ℕ} (u1 u0 : BitVec w) : (u1 ++ u0).toNat = u1.toNat * 2 ^ w + u0.toNat := by
  rw [BitVec.toNat_append, ← Nat.shiftLeft_add_eq_or_of_lt u0.isLt, Nat.shiftLeft_eq]

/-- A quotient that is a word is computed. -/
theorem divDouble_eq {w : ℕ} {u1 v : BitVec w} (h : u1 < v) (u0 : BitVec w) :
    ∃ q r, divDouble u1 u0 v = .ok (q, r) ∧ q.toNat = (u1.toNat * 2 ^ w + u0.toNat) / v.toNat ∧
      r.toNat = (u1.toNat * 2 ^ w + u0.toNat) % v.toNat := by
  have hlt : u1.toNat < v.toNat := BitVec.lt_def.mp h
  have hv := v.isLt
  have hwide : v.toNat < 2 ^ (w + w) := hv.trans_le (Nat.pow_le_pow_right (by norm_num) (by omega))
  have hquot : (u1.toNat * 2 ^ w + u0.toNat) / v.toNat < 2 ^ w := by
    rw [Nat.div_lt_iff_lt_mul (by omega)]
    calc u1.toNat * 2 ^ w + u0.toNat < (u1.toNat + 1) * 2 ^ w := by
          rw [Nat.add_one_mul]
          exact Nat.add_lt_add_left u0.isLt _
      _ ≤ 2 ^ w * v.toNat := by
          rw [Nat.mul_comm]
          exact Nat.mul_le_mul_left _ hlt
  have hrem : (u1.toNat * 2 ^ w + u0.toNat) % v.toNat < 2 ^ w := (Nat.mod_lt _ (by omega)).trans hv
  refine ⟨_, _, if_neg (BitVec.not_le.mpr h), ?_, ?_⟩
  · rw [BitVec.toNat_setWidth, BitVec.toNat_udiv, toNat_append_eq, BitVec.toNat_setWidth, Nat.mod_eq_of_lt hwide,
      Nat.mod_eq_of_lt hquot]
  · rw [BitVec.toNat_setWidth, BitVec.toNat_umod, toNat_append_eq, BitVec.toNat_setWidth, Nat.mod_eq_of_lt hwide,
      Nat.mod_eq_of_lt hrem]

/-- The position of the leading bit. -/
theorem floorLog {w : ℕ} (hw : 0 < w) {d : BitVec w} (hd : d ≠ 0#w) :
    w - 1 - d.clz.toNat < w ∧ 2 ^ (w - 1 - d.clz.toNat) ≤ d.toNat ∧ d.toNat < 2 ^ (w - 1 - d.clz.toNat + 1) := by
  have hclz : d.clz.toNat < w := by
    have hlt := BitVec.lt_def.mp (BitVec.clz_lt_iff_ne_zero.mpr hd)
    rwa [BitVec.natCast_eq_ofNat, BitVec.toNat_ofNat, Nat.mod_two_pow_self] at hlt
  have hup : d.toNat < 2 ^ (w - d.clz.toNat) := BitVec.toNat_lt_two_pow_sub_clz
  refine ⟨by omega, BitVec.two_pow_sub_clz_le_toNat_of_ne_zero hw hd, ?_⟩
  rwa [show w - 1 - d.clz.toNat + 1 = w - d.clz.toNat by omega]

theorem toNat_one_shiftLeft {w k : ℕ} (hk : k < w) : (1#w <<< k).toNat = 2 ^ k := by
  have hone : 1 < 2 ^ w := Nat.one_lt_two_pow (by omega)
  rw [BitVec.toNat_shiftLeft, BitVec.toNat_ofNat, Nat.mod_eq_of_lt hone, Nat.shiftLeft_eq, Nat.one_mul,
    Nat.mod_eq_of_lt (Nat.pow_lt_pow_right (by norm_num) hk)]

/-! ### The forms of a divider -/

/-- What `gen` stores for the divisor `d`: the exponent of a power of two, the multiplier for the power
`2 ^ (bits + k)`, or the low word of the multiplier for the next power, which has a bit more than a word. -/
inductive Generated (t : Unsigned) (d : ℕ) (branchfree : Bool) : Denom t .branchfull → Prop where
  | power (k : ℕ) (hk : k < t.bits) (hd : d = 2 ^ k) :
    Generated t d branchfree { magic := 0#t.bits, more := BitVec.ofNat 8 k - if branchfree then 1#8 else 0#8 }
  | short (k : ℕ) (magic : BitVec t.bits) (hk : k < t.bits) (hlow : 2 ^ k < d) (hup : d < 2 ^ (k + 1))
    (hfull : branchfree = false) (hmagic : magic.toNat = 2 ^ k * 2 ^ t.bits / d + 1)
    (hexcess : d - 2 ^ k * 2 ^ t.bits % d < 2 ^ k) : Generated t d branchfree { magic, more := BitVec.ofNat 8 k }
  | long (k : ℕ) (magic : BitVec t.bits) (hk : k < t.bits) (hlow : 2 ^ k < d) (hup : d < 2 ^ (k + 1))
    (hmagic : magic.toNat + 2 ^ t.bits = 2 * (2 ^ k * 2 ^ t.bits) / d + 1) :
    Generated t d branchfree { magic, more := BitVec.ofNat 8 k ||| addMarker }

section
variable {W K d : ℕ} (hK : 0 < K) (hKW : K < W) (hlow : K < d)
include hK hKW hlow

/-- The multiplier for the smaller power is a word, if that power works. -/
theorem short_lt (hexcess : d - K * W % d < K) : K * W / d + 1 < W := by
  by_contra hge
  have hmul := succ_div_mul (hK.trans hlow) (K * W)
  have hle : W * d ≤ (K * W / d + 1) * d := Nat.mul_le_mul_right d (not_lt.mp hge)
  have hstep : W * (K + 1) ≤ W * d := Nat.mul_le_mul_left W hlow
  rw [Nat.mul_add_one, Nat.mul_comm W K] at hstep
  omega

/-- The multiplier for the larger power has one bit more than a word. -/
theorem long_bounds (hup : d < 2 * K) : W ≤ 2 * (K * W) / d ∧ 2 * (K * W) / d + 1 < 2 * W := by
  have hd : 0 < d := hK.trans hlow
  constructor
  · rw [Nat.le_div_iff_mul_le hd]
    calc W * d ≤ W * (2 * K) := Nat.mul_le_mul_left W hup.le
      _ = 2 * (K * W) := by ring
  · have hlt : 2 * (K * W) / d < 2 * W - 1 := by
      rw [Nat.div_lt_iff_lt_mul hd]
      have hstep : (2 * W - 1) * (K + 1) ≤ (2 * W - 1) * d := Nat.mul_le_mul_left _ hlow
      have hexpand : (2 * W - 1) * (K + 1) = 2 * (K * W) + 2 * W - (K + 1) := by
        rw [Nat.sub_mul, Nat.one_mul]
        congr 1
        ring
      omega
    omega

end

/-- A multiplier is told from the form of a power of two. -/
theorem short_ne_zero {w x : ℕ} {magic : BitVec w} (hmagic : magic.toNat = x + 1) : magic ≠ 0#w := by
  rintro rfl
  rw [BitVec.toNat_ofNat, Nat.zero_mod] at hmagic
  exact Nat.succ_ne_zero x hmagic.symm

theorem long_ne_zero {w k d : ℕ} {magic : BitVec w} (hk : k < w) (hlow : 2 ^ k < d) (hup : d < 2 ^ (k + 1))
    (hmagic : magic.toNat + 2 ^ w = 2 * (2 ^ k * 2 ^ w) / d + 1) : magic ≠ 0#w := by
  obtain ⟨hle, -⟩ := long_bounds (Nat.two_pow_pos k) (Nat.pow_lt_pow_right (by norm_num) hk) hlow
    (by rwa [← Nat.pow_succ'])
  exact short_ne_zero (show magic.toNat = 2 * (2 ^ k * 2 ^ w) / d - 2 ^ w + 1 by omega)

/-- The comparison that wraps and the one that does not. -/
theorem twice_le_iff {w : ℕ} {d rem : BitVec w} (hrem : rem < d) :
    (d ≤ rem + rem ∨ rem + rem < rem) ↔ d.toNat ≤ 2 * rem.toNat := by
  have hlt := BitVec.lt_def.mp hrem
  have hd := d.isLt
  rw [BitVec.le_def, BitVec.lt_def, BitVec.toNat_add, ← Nat.two_mul]
  rcases Nat.lt_or_ge (2 * rem.toNat) (2 ^ w) with hfit | hwrap
  · rw [Nat.mod_eq_of_lt hfit]
    omega
  · rw [Nat.mod_eq_sub_mod hwrap, Nat.mod_eq_of_lt (by omega)]
    omega

theorem Unsigned.bits_pos (t : Unsigned) : 0 < t.bits := by
  cases t <;> decide

/-- The doubled quotient, corrected, modulo the word. -/
theorem toNat_doubled {w P : ℕ} {d q rem : BitVec w} (hd : 0 < d.toNat) (hq : q.toNat = P / d.toNat)
    (hr : rem.toNat = P % d.toNat) (hlow : 2 ^ w ≤ 2 * P / d.toNat) (hup : 2 * P / d.toNat + 1 < 2 * 2 ^ w) :
    (1#w + (q + q + if d ≤ rem + rem ∨ rem + rem < rem then 1#w else 0#w)).toNat + 2 ^ w = 2 * P / d.toNat + 1 := by
  have hrem : rem < d := by
    rw [BitVec.lt_def, hr]
    exact Nat.mod_lt _ hd
  have hcorrection : (if d ≤ rem + rem ∨ rem + rem < rem then 1#w else 0#w).toNat =
      (if d.toNat ≤ 2 * (P % d.toNat) then 1 else 0) % 2 ^ w := by
    simp only [twice_le_iff hrem, hr]
    split_ifs <;> rw [BitVec.toNat_ofNat]
  have hdouble := two_mul_div hd P
  rw [BitVec.toNat_add, BitVec.toNat_add, BitVec.toNat_add, hcorrection, hq, ← Nat.two_mul, BitVec.toNat_ofNat]
  generalize (if d.toNat ≤ 2 * (P % d.toNat) then 1 else 0) = c at hdouble ⊢
  rw [Nat.add_mod_mod, Nat.mod_add_mod, ← Nat.add_assoc, Nat.add_mod_mod, Nat.add_right_comm, Nat.add_mod_mod,
    Nat.mod_eq_sub_mod (by omega), Nat.mod_eq_of_lt (by omega)]
  omega

/-- **What `gen` makes**: one of the three forms, for every divisor but zero. -/
theorem internalGen_generated (t : Unsigned) {d : BitVec t.bits} (hd : d ≠ 0#t.bits) (branchfree : Bool) :
    ∃ denom, internalGen t d branchfree = .ok denom ∧ Generated t d.toNat branchfree denom := by
  obtain ⟨hk, hlow, hup⟩ := floorLog t.bits_pos hd
  rw [internalGen, if_neg hd]
  generalize t.bits - 1 - d.clz.toNat = k at hk hlow hup ⊢
  have hpos : 0 < d.toNat := (Nat.two_pow_pos k).trans_le hlow
  have hzero : d &&& (d - 1#t.bits) = 0#t.bits ↔ d.toNat = 2 ^ k := by
    have hone : (1#t.bits).toNat = 1 := by
      rw [BitVec.toNat_ofNat, Nat.mod_eq_of_lt (Nat.one_lt_two_pow t.bits_pos.ne')]
    rw [← BitVec.toNat_inj, BitVec.toNat_and, BitVec.toNat_sub_of_le (by rw [BitVec.le_def, hone]; exact hpos), hone,
      BitVec.toNat_ofNat, Nat.zero_mod, and_sub_one_eq_zero_iff hlow hup]
  by_cases hpow : d &&& (d - 1#t.bits) = 0#t.bits
  · exact ⟨_, if_pos hpow, .power k hk (hzero.mp hpow)⟩
  have hlow' : 2 ^ k < d.toNat := lt_of_le_of_ne hlow fun heq => hpow (hzero.mpr heq.symm)
  have hKW : 2 ^ k < 2 ^ t.bits := Nat.pow_lt_pow_right (by norm_num) hk
  have hshift := toNat_one_shiftLeft hk
  have hfits : 1#t.bits <<< k < d := by
    rw [BitVec.lt_def, hshift]
    exact hlow'
  obtain ⟨q, rem, hdiv, hq, hrem⟩ := divDouble_eq hfits 0#t.bits
  rw [hshift, BitVec.toNat_ofNat, Nat.zero_mod, Nat.add_zero] at hq hrem
  have hremlt : rem.toNat < d.toNat := hrem ▸ Nat.mod_lt _ hpos
  have he : (d - rem).toNat = d.toNat - rem.toNat := BitVec.toNat_sub_of_le (BitVec.le_def.mpr hremlt.le)
  simp only [if_neg hpow, hdiv]
  by_cases hshort : !branchfree ∧ d - rem < 1#t.bits <<< k
  · rw [if_pos hshort]
    have hexcess : d.toNat - 2 ^ k * 2 ^ t.bits % d.toNat < 2 ^ k := by
      have hlt := BitVec.lt_def.mp hshort.2
      rwa [he, hshift, hrem] at hlt
    have hfit := short_lt (Nat.two_pow_pos k) hKW hlow' hexcess
    refine ⟨_, rfl, .short k _ hk hlow' hup (by simpa using hshort.1) ?_ hexcess⟩
    rw [BitVec.toNat_add, BitVec.toNat_ofNat, Nat.mod_add_mod, hq, Nat.add_comm, Nat.mod_eq_of_lt hfit]
  · rw [if_neg hshort]
    obtain ⟨hle, hlt⟩ := long_bounds (Nat.two_pow_pos k) hKW hlow' (by rwa [← Nat.pow_succ'])
    exact ⟨_, rfl, .long k _ hk hlow' hup (toNat_doubled hpos hq hrem hle hlt)⟩

/-! ### The shift and the marker share a byte -/

section
variable {t : Unsigned} {k : ℕ} (hk : k < t.bits)
include hk

theorem toNat_shift : (BitVec.ofNat 8 k).toNat = k := by
  have hle : t.bits ≤ 64 := by cases t <;> decide
  rw [BitVec.toNat_ofNat, Nat.mod_eq_of_lt (by omega)]

theorem shift_and_addMarker : BitVec.ofNat 8 k &&& addMarker = 0#8 := by
  revert k
  cases t <;> decide

theorem marked_and_addMarker : (BitVec.ofNat 8 k ||| addMarker) &&& addMarker ≠ 0#8 := by
  revert k
  cases t <;> decide

theorem shift_and_shiftMask : BitVec.ofNat 8 k &&& t.shiftMask = BitVec.ofNat 8 k := by
  revert k
  cases t <;> decide

theorem marked_and_shiftMask : (BitVec.ofNat 8 k ||| addMarker) &&& t.shiftMask = BitVec.ofNat 8 k := by
  revert k
  cases t <;> decide

end

/-- The shift of a branchfree power of two. -/
theorem shift_pred {t : Unsigned} {k : ℕ} (hk : k + 1 < t.bits) :
    (BitVec.ofNat 8 (k + 1) - 1#8) &&& t.shiftMask = BitVec.ofNat 8 k := by
  have hpred : BitVec.ofNat 8 (k + 1) - 1#8 = BitVec.ofNat 8 k := by
    rw [BitVec.ofNat_add]
    exact BitVec.add_sub_cancel _ _
  rw [hpred, shift_and_shiftMask (Nat.lt_of_succ_lt hk)]

/-! ### Division -/

/-- The multiplication with the upper bit of the multiplier left out, and the sum halved before it overflows. -/
theorem toNat_addShift {w k d : ℕ} {magic : BitVec w} (hd : 0 < d) (hup : d < 2 ^ (k + 1))
    (hmagic : magic.toNat + 2 ^ w = 2 * (2 ^ k * 2 ^ w) / d + 1) (numer : BitVec w) :
    ((((numer - mullhi magic numer) >>> 1) + mullhi magic numer) >>> k).toNat = numer.toNat / d := by
  have hn := numer.isLt
  have hW : 0 < 2 ^ w := Nat.two_pow_pos w
  have hq := toNat_mullhi magic numer
  have hle : (mullhi magic numer).toNat ≤ numer.toNat := by
    rw [hq]
    exact Nat.div_le_of_le_mul (Nat.mul_le_mul_right _ magic.isLt.le)
  have hM : Magic (2 ^ w) (2 * (2 ^ k * 2 ^ w)) d (magic.toNat + 2 ^ w) := by
    rw [hmagic]
    apply magic_succ hd
    calc (d - 2 * (2 ^ k * 2 ^ w) % d) * 2 ^ w ≤ 2 ^ (k + 1) * 2 ^ w :=
          Nat.mul_le_mul_right _ ((Nat.sub_le _ _).trans hup.le)
      _ = 2 * (2 ^ k * 2 ^ w) := by ring
  have hsum : numer.toNat + magic.toNat * numer.toNat / 2 ^ w = (magic.toNat + 2 ^ w) * numer.toNat / 2 ^ w := by
    rw [Nat.add_mul, Nat.mul_comm (2 ^ w), Nat.add_mul_div_right _ _ hW, Nat.add_comm]
  have hhalf : (numer.toNat + magic.toNat * numer.toNat / 2 ^ w) / 2 < 2 ^ w := by
    rw [hq] at hle
    omega
  rw [BitVec.toNat_ushiftRight, BitVec.toNat_add, BitVec.toNat_ushiftRight,
    BitVec.toNat_sub_of_le (BitVec.le_def.mpr hle), Nat.shiftRight_eq_div_pow, Nat.shiftRight_eq_div_pow, Nat.pow_one,
    half_add hle, hq, Nat.mod_eq_of_lt hhalf, hsum, Nat.div_div_eq_div_mul, Nat.div_div_eq_div_mul,
    ← hM.mul_div (by positivity) hd hn]
  congr 1
  ring

theorem toNat_branchfullDo {t : Unsigned} {d : ℕ} {denom : Denom t .branchfull} (h : Generated t d false denom)
    (numer : BitVec t.bits) : (branchfullDo t numer denom).toNat = numer.toNat / d := by
  have hn := numer.isLt
  have hW : 0 < 2 ^ t.bits := Nat.two_pow_pos _
  cases h with
  | power k hk hd =>
    rw [branchfullDo, if_pos rfl, if_neg Bool.false_ne_true, BitVec.sub_zero, BitVec.ushiftRight_eq', toNat_shift hk,
      BitVec.toNat_ushiftRight, Nat.shiftRight_eq_div_pow, hd]
  | short k magic hk hlow hup _ hmagic hexcess =>
    have hM : Magic (2 ^ t.bits) (2 ^ k * 2 ^ t.bits) d magic.toNat := by
      rw [hmagic]
      exact magic_succ (by omega) (Nat.mul_le_mul_right _ hexcess.le)
    have hunmarked : ¬(BitVec.ofNat 8 k &&& addMarker ≠ 0#8) := not_not_intro (shift_and_addMarker hk)
    rw [branchfullDo, if_neg (short_ne_zero hmagic), if_neg hunmarked, BitVec.ushiftRight_eq', toNat_shift hk,
      BitVec.toNat_ushiftRight, Nat.shiftRight_eq_div_pow, toNat_mullhi, Nat.div_div_eq_div_mul,
      Nat.mul_comm (2 ^ t.bits), hM.mul_div (by positivity) (by omega) hn]
  | long k magic hk hlow hup hmagic =>
    rw [branchfullDo, if_neg (long_ne_zero hk hlow hup hmagic), if_pos (marked_and_addMarker hk),
      marked_and_shiftMask hk, BitVec.ushiftRight_eq', toNat_shift hk, toNat_addShift (by omega) hup hmagic]

/-! ### The branchfree divider -/

theorem toNat_branchfreeDo {t : Unsigned} {d : ℕ} {tmp : Denom t .branchfull} (hd : 1 < d)
    (h : Generated t d true tmp) (numer : BitVec t.bits) :
    (branchfreeDo t numer (branchfreeDenom tmp)).toNat = numer.toNat / d := by
  cases h with
  | power k hk hpow =>
    obtain ⟨k, rfl⟩ : ∃ j, k = j + 1 := Nat.exists_eq_succ_of_ne_zero (by rintro rfl; omega)
    have hzero : mullhi 0#t.bits numer = 0#t.bits := by
      apply BitVec.eq_of_toNat_eq
      rw [toNat_mullhi, BitVec.toNat_ofNat, Nat.zero_mod, Nat.zero_mul, Nat.zero_div]
    simp only [branchfreeDo, branchfreeDenom, if_true]
    rw [hzero, shift_pred hk, BitVec.sub_zero, BitVec.add_zero, BitVec.ushiftRight_eq',
      toNat_shift (Nat.lt_of_succ_lt hk), BitVec.toNat_ushiftRight, BitVec.toNat_ushiftRight,
      Nat.shiftRight_eq_div_pow, Nat.shiftRight_eq_div_pow,
      Nat.div_div_eq_div_mul, hpow, Nat.pow_one, ← Nat.pow_succ']
  | short k magic hk hlow hup hfull => exact absurd hfull (by decide)
  | long k magic hk hlow hup hmagic =>
    simp only [branchfreeDo, branchfreeDenom]
    rw [marked_and_shiftMask hk, BitVec.ushiftRight_eq', toNat_shift hk, toNat_addShift (by omega) hup hmagic]

theorem branchfreeGen_eq {t : Unsigned} {d : BitVec t.bits} (hone : d ≠ 1#t.bits) {tmp : Denom t .branchfull}
    (h : internalGen t d true = .ok tmp) : branchfreeGen t d = .ok (branchfreeDenom tmp) := by
  rw [branchfreeGen, if_neg hone, h]
  rfl

theorem one_lt_toNat {w : ℕ} {d : BitVec w} (hzero : d ≠ 0#w) (hone : d ≠ 1#w) : 1 < d.toNat := by
  by_contra hle
  rcases Nat.le_one_iff_eq_zero_or_eq_one.mp (not_lt.mp hle) with h | h
  · exact hzero (BitVec.eq_of_toNat_eq (h.trans (by rw [BitVec.toNat_ofNat, Nat.zero_mod])))
  · refine hone (BitVec.eq_of_toNat_eq (h.trans ?_))
    have hlt := d.isLt
    rw [BitVec.toNat_ofNat, Nat.mod_eq_of_lt (h ▸ hlt)]

/-- The divisors that a divider can be made from. -/
def Accepts {t : Unsigned} (algo : Branching) (d : BitVec t.bits) : Prop :=
  d ≠ 0#t.bits ∧ (algo = .branchfree → d ≠ 1#t.bits)

instance {t : Unsigned} (algo : Branching) (d : BitVec t.bits) : Decidable (Accepts algo d) :=
  inferInstanceAs (Decidable (_ ∧ _))

theorem exists_gen {t : Unsigned} {algo : Branching} {d : BitVec t.bits} (h : Accepts algo d) :
    ∃ denom, gen t algo d = .ok denom ∧ ∀ numer, (divide numer denom).toNat = numer.toNat / d.toNat := by
  obtain ⟨hzero, hone⟩ := h
  cases algo with
  | branchfull =>
    obtain ⟨denom, hgen, hform⟩ := internalGen_generated t hzero false
    refine ⟨denom, (gen_branchfull t d).trans hgen, fun numer => ?_⟩
    rw [divide_branchfull, toNat_branchfullDo hform]
  | branchfree =>
    obtain ⟨tmp, hgen, hform⟩ := internalGen_generated t hzero true
    refine ⟨_, (gen_branchfree t d).trans (branchfreeGen_eq (hone rfl) hgen), fun numer => ?_⟩
    rw [divide_branchfree, toNat_branchfreeDo (one_lt_toNat hzero (hone rfl)) hform]

/-- What the constructors say of the other divisors. -/
theorem gen_of_not_accepts {t : Unsigned} {algo : Branching} {d : BitVec t.bits} (h : ¬Accepts algo d) :
    gen t algo d = .error (.error
      (if d = 0#t.bits then "divider must be != 0" else "branchfree divider must be != 1")) := by
  by_cases hzero : d = 0#t.bits
  · have hinternal (branchfree : Bool) : internalGen t d branchfree = .error (.error "divider must be != 0") := by
      rw [internalGen, if_pos hzero]
    rw [if_pos hzero]
    cases algo with
    | branchfull => rw [gen_branchfull, hinternal]
    | branchfree =>
      have hone : d ≠ 1#t.bits := by
        rw [hzero]
        cases t <;> decide
      rw [gen_branchfree, branchfreeGen, if_neg hone, hinternal]
      rfl
  · rw [if_neg hzero]
    cases algo with
    | branchfull => exact absurd ⟨hzero, fun h => nomatch h⟩ h
    | branchfree =>
      have hone : d = 1#t.bits := by
        by_contra hne
        exact h ⟨hzero, fun _ => hne⟩
      rw [gen_branchfree, branchfreeGen, if_pos hone]

/-- **Division by a multiplication is division**: of every number, by every divisor a divider can be made from. Of the
others each constructor says what is wrong with them. -/
theorem divide_eq (t : Unsigned) (algo : Branching) (d : BitVec t.bits) :
    (Accepts algo d → ∃ denom, gen t algo d = .ok denom ∧ ∀ numer, divide numer denom = numer / d) ∧
      (¬Accepts algo d → gen t algo d = .error (.error
        (if d = 0#t.bits then "divider must be != 0" else "branchfree divider must be != 1"))) := by
  refine ⟨fun h => ?_, gen_of_not_accepts⟩
  obtain ⟨denom, hgen, hdivide⟩ := exists_gen h
  refine ⟨denom, hgen, fun numer => BitVec.eq_of_toNat_eq ?_⟩
  rw [hdivide, BitVec.toNat_udiv]

theorem divide_eq_seven : ∃ denom, gen .u64 .branchfree 7#64 = .ok denom ∧ ∀ numer, divide numer denom = numer / 7#64 :=
  (divide_eq .u64 .branchfree 7#64).1 (by decide)

end HashingArchive.Reduction.Libdivide
