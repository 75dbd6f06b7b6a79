import HashingArchive.Join.Hashtable

/-!
# Bucket indices

`allocate_hashtable` rounds the bucket count up to a power of two with the bit smearing of
`NEXT_POW_2`, in `int32_t` arithmetic. A bucket index comes from the key alone in the scalar functions
(`scalarIndex`) and from the whole 64-bit lane in the vectorised ones (`imvIndex`), each in two builds,
with `USE_MURMUR3_HASH` and without.
-/

namespace HashingArchive.Join

/-! ### Allocating a table -/

/-- `V |= V >> 1; V |= V >> 2; ...; V |= V >> 16` on an `int32_t`. -/
def smear (v : BitVec 32) : BitVec 32 :=
  let v := v ||| v.sshiftRight 1
  let v := v ||| v.sshiftRight 2
  let v := v ||| v.sshiftRight 4
  let v := v ||| v.sshiftRight 8
  v ||| v.sshiftRight 16

/-- The macro `NEXT_POW_2`. -/
def nextPow2 (v : BitVec 32) : BitVec 32 := smear (v - 1) + 1

structure Hashtable where
  numBuckets : BitVec 32
  hashMask : BitVec 32
  skipBits : BitVec 32

/-- The fields `allocate_hashtable` sets. A negative bucket count asks for more memory than there is. -/
def allocateHashtable (nbuckets : BitVec 32) : Option Hashtable :=
  let numBuckets := nextPow2 nbuckets
  if numBuckets.msb then none
  else
    let skipBits : BitVec 32 := 0
    some { numBuckets := numBuckets, hashMask := (numBuckets - 1) <<< skipBits, skipBits := skipBits }

/-! ### The indices -/

/-- The macro `HASH`. -/
def HASH (x mask skip : BitVec 64) : BitVec 64 := (x &&& mask) >>> skip

def murmurHash32 (value : BitVec 32) : BitVec 32 :=
  let value := value ^^^ (value >>> 16)
  let value := value * 0x85ebca6b
  let value := value ^^^ (value >>> 13)
  let value := value * 0xc2b2ae35
  value ^^^ (value >>> 16)

def altMod (x n : BitVec 32) : BitVec 32 := ((x.setWidth 64 * n.setWidth 64) >>> 32).setWidth 32

/-- The bucket index of the scalar build and probe. -/
def scalarIndex (useMurmur3Hash : Bool) (ht : Hashtable) (key : BitVec 32) : BitVec 64 :=
  if useMurmur3Hash then (altMod (murmurHash32 key) ht.numBuckets).setWidth 64
  else HASH (key.setWidth 64) (ht.hashMask.setWidth 64) (ht.skipBits.setWidth 64)

/-- The hash of the vectorised functions: that of `murmur_hash_32` on 64-bit lanes. -/
def imvHash (key : BitVec 64) : BitVec 64 :=
  let x1 := key ^^^ (key >>> 16)
  let s1 := x1 * 0x85ebca6b
  let x2 := s1 ^^^ (s1 >>> 13)
  let s2 := x2 * 0xc2b2ae35
  s2 ^^^ (s2 >>> 16)

/-- The bucket index of one lane in the vectorised build and probe. -/
def imvIndex (useMurmur3Hash : Bool) (ht : Hashtable) (lane : BitVec 64) : BitVec 64 :=
  let cellHash := if useMurmur3Hash then imvHash lane else lane
  (cellHash &&& ht.hashMask.setWidth 64) >>> ht.skipBits.setWidth 64

/-! ### The bucket count is a power of two -/

/-- Bit `i` of an `int32_t`, the sign bit going on forever. -/
def signBit (v : BitVec 32) (i : ℕ) : Bool := if i < 32 then v.getLsbD i else v.msb

theorem signBit_sshiftRight (v : BitVec 32) (s i : ℕ) : signBit (v.sshiftRight s) i = signBit v (s + i) := by
  unfold signBit
  rw [BitVec.getLsbD_sshiftRight, BitVec.msb_sshiftRight]
  by_cases hi : i < 32
  · simp [hi]
  · have hsi : ¬ s + i < 32 := by omega
    simp [hi, hsi]

theorem signBit_or (v w : BitVec 32) (i : ℕ) : signBit (v ||| w) i = (signBit v i || signBit w i) := by
  unfold signBit
  split_ifs <;> simp

/-- Each bit of `y` says whether one of `s` bits of `v` from there on is set. -/
def Smeared (v y : BitVec 32) (s : ℕ) : Prop :=
  ∀ i, signBit y i = true ↔ ∃ d < s, signBit v (i + d) = true

/-- One round of the smearing doubles its width. -/
theorem Smeared.round {v y : BitVec 32} {s : ℕ} (h : Smeared v y s) :
    Smeared v (y ||| y.sshiftRight s) (s + s) := by
  intro i
  rw [signBit_or, Bool.or_eq_true, signBit_sshiftRight, h i, h (s + i)]
  constructor
  · intro hor
    rcases hor with ⟨d, hd, hbit⟩ | ⟨d, hd, hbit⟩
    · exact ⟨d, by omega, hbit⟩
    · exact ⟨s + d, by omega, by rwa [show i + (s + d) = s + i + d by omega]⟩
  · intro ⟨d, hd, hbit⟩
    rcases Nat.lt_or_ge d s with hlt | hge
    · exact Or.inl ⟨d, hlt, hbit⟩
    · exact Or.inr ⟨d - s, by omega, by rwa [show s + i + (d - s) = i + d by omega]⟩

theorem smeared_smear (v : BitVec 32) : Smeared v (smear v) 32 := by
  have h1 : Smeared v v 1 := by
    intro i
    constructor
    · exact fun h => ⟨0, Nat.one_pos, h⟩
    · intro ⟨d, hd, hbit⟩
      rwa [show d = 0 by omega] at hbit
  exact h1.round.round.round.round.round

/-- The smearing sets every bit below the highest one. -/
theorem smear_toNat {v : BitVec 32} (hmsb : v.msb = false) (hv : v ≠ 0) :
    (smear v).toNat = 2 ^ (v.toNat.log2 + 1) - 1 := by
  have hne : v.toNat ≠ 0 := fun h => hv (BitVec.eq_of_toNat_eq h)
  have hhigh : ∀ i, signBit v i = true ↔ i < 32 ∧ v.toNat.testBit i = true := by
    intro i
    rw [signBit, BitVec.testBit_toNat]
    split_ifs with hi <;> simp [hi, hmsb]
  have hlog : v.toNat.log2 < 32 := (Nat.log2_lt hne).mpr v.isLt
  apply Nat.eq_of_testBit_eq
  intro i
  rw [Nat.testBit_two_pow_sub_one, BitVec.testBit_toNat, Bool.eq_iff_iff, decide_eq_true_iff]
  rcases Nat.lt_or_ge i 32 with hi | hi
  · have hbit : (smear v).getLsbD i = signBit (smear v) i := (if_pos hi).symm
    rw [hbit, smeared_smear v i]
    constructor
    · intro ⟨d, hd, hset⟩
      by_contra hgt
      have hzero : v.toNat.testBit (i + d) = false :=
        Nat.testBit_lt_two_pow (lt_of_lt_of_le (Nat.lt_log2_self) (Nat.pow_le_pow_right (by omega) (by omega)))
      rw [hhigh, hzero] at hset
      exact absurd hset.2 (by simp)
    · intro hle
      refine ⟨v.toNat.log2 - i, by omega, ?_⟩
      rw [hhigh, show i + (v.toNat.log2 - i) = v.toNat.log2 by omega]
      exact ⟨hlog, Nat.testBit_log2 hne⟩
  · rw [BitVec.getLsbD_of_ge _ _ hi]
    exact iff_of_false (by simp) (by omega)

theorem smear_of_msb {v : BitVec 32} (hmsb : v.msb = true) : smear v = BitVec.allOnes 32 := by
  ext i hi
  have hbit : (smear v)[i] = signBit (smear v) i := by
    rw [signBit, if_pos hi, BitVec.getLsbD_eq_getElem]
  rw [hbit, BitVec.getElem_allOnes, smeared_smear v i]
  refine ⟨31, by omega, ?_⟩
  rw [signBit]
  split_ifs with hlt
  · obtain rfl : i = 0 := by omega
    rwa [BitVec.msb_eq_getLsbD_last] at hmsb
  · exact hmsb

/-- What `allocate_hashtable` promises of a table that has buckets. -/
structure Hashtable.Valid (ht : Hashtable) : Prop where
  pow : ∃ k < 31, ht.numBuckets.toNat = 2 ^ k
  mask_eq : ht.hashMask = ht.numBuckets - 1
  skip_eq : ht.skipBits = 0

/-- **An allocated table** with any buckets has a power of two of them and the mask for it. -/
theorem allocateHashtable_valid {nbuckets : BitVec 32} {ht : Hashtable}
    (h : allocateHashtable nbuckets = some ht) (hne : ht.numBuckets ≠ 0) : ht.Valid := by
  unfold allocateHashtable at h
  dsimp only at h
  split_ifs at h with hneg
  obtain rfl := Option.some.inj h
  refine ⟨?_, by simp, rfl⟩
  dsimp only at hne ⊢
  have hlt : (nextPow2 nbuckets).toNat < 2 ^ 31 := by
    rw [BitVec.msb_eq_decide, decide_eq_true_iff] at hneg
    exact not_le.mp hneg
  unfold nextPow2 at hne hlt ⊢
  cases hmsb : (nbuckets - 1).msb with
  | true =>
    rw [smear_of_msb hmsb] at hne
    exact absurd (by decide) hne
  | false =>
    by_cases hzero : nbuckets - 1 = 0
    · rw [hzero]
      exact ⟨0, by norm_num, by decide⟩
    · have hpow := smear_toNat hmsb hzero
      generalize (nbuckets - 1).toNat.log2 = k at hpow
      generalize smear (nbuckets - 1) = y at hpow hne hlt ⊢
      have hone : 2 ^ (k + 1) - 1 + 1 = 2 ^ (k + 1) := Nat.sub_add_cancel (Nat.two_pow_pos (k + 1))
      have hk : k + 1 ≤ 32 := (Nat.pow_le_pow_iff_right (by norm_num : 1 < 2)).mp (by have := y.isLt; omega)
      have hnat : (y + 1).toNat = 2 ^ (k + 1) % 2 ^ 32 := by
        rw [BitVec.toNat_add, hpow, show BitVec.toNat (1 : BitVec 32) = 1 from rfl, hone]
      have hk' : k + 1 ≠ 32 := by
        intro heq
        rw [heq, Nat.mod_self] at hnat
        exact hne (BitVec.eq_of_toNat_eq hnat)
      rw [Nat.mod_eq_of_lt (Nat.pow_lt_pow_right (by norm_num) (by omega))] at hnat
      rw [hnat] at hlt ⊢
      exact ⟨k + 1, (Nat.pow_lt_pow_iff_right (by norm_num)).mp hlt, rfl⟩

theorem Hashtable.Valid.pos {ht : Hashtable} (hv : ht.Valid) : 0 < ht.numBuckets.toNat := by
  obtain ⟨k, -, hk⟩ := hv.pow
  rw [hk]
  exact Nat.two_pow_pos k

/-! ### The indices stay in the table -/

theorem Hashtable.Valid.toNat_mask {ht : Hashtable} (hv : ht.Valid) :
    (ht.hashMask.setWidth 64).toNat = ht.numBuckets.toNat - 1 := by
  have hpos := hv.pos
  have hlt := ht.numBuckets.isLt
  rw [hv.mask_eq, BitVec.toNat_setWidth, BitVec.toNat_sub, show BitVec.toNat (1 : BitVec 32) = 1 from rfl,
    show 2 ^ 32 - 1 + ht.numBuckets.toNat = ht.numBuckets.toNat - 1 + 2 ^ 32 by omega, Nat.add_mod_right,
    Nat.mod_eq_of_lt (show ht.numBuckets.toNat - 1 < 2 ^ 32 by omega), Nat.mod_eq_of_lt (by omega)]

theorem toNat_and_mask_lt {ht : Hashtable} (hv : ht.Valid) (x : BitVec 64) :
    (x &&& ht.hashMask.setWidth 64).toNat < ht.numBuckets.toNat := by
  have hpos := hv.pos
  have hle : x.toNat &&& (ht.hashMask.setWidth 64).toNat ≤ _ := Nat.and_le_right
  rw [hv.toNat_mask] at hle
  rw [BitVec.toNat_and, hv.toNat_mask]
  omega

theorem altMod_toNat (x n : BitVec 32) : (altMod x n).toNat = x.toNat * n.toNat / 2 ^ 32 := by
  have hmul : x.toNat * n.toNat < 2 ^ 32 * 2 ^ 32 := Nat.mul_lt_mul'' x.isLt n.isLt
  have hdiv : x.toNat * n.toNat / 2 ^ 32 < 2 ^ 32 := Nat.div_lt_of_lt_mul hmul
  have hx : x.toNat % 2 ^ 64 = x.toNat := Nat.mod_eq_of_lt (x.isLt.trans (by norm_num))
  have hn : n.toNat % 2 ^ 64 = n.toNat := Nat.mod_eq_of_lt (n.isLt.trans (by norm_num))
  rw [altMod, BitVec.toNat_setWidth, BitVec.toNat_ushiftRight, BitVec.toNat_mul, BitVec.toNat_setWidth,
    BitVec.toNat_setWidth, hx, hn, Nat.mod_eq_of_lt (hmul.trans_le (by norm_num)), Nat.shiftRight_eq_div_pow,
    Nat.mod_eq_of_lt hdiv]

theorem altMod_lt (x : BitVec 32) {n : BitVec 32} (hn : 0 < n.toNat) : (altMod x n).toNat < n.toNat := by
  rw [altMod_toNat]
  exact Nat.div_lt_of_lt_mul (Nat.mul_lt_mul_of_pos_right x.isLt hn)

theorem scalarIndex_lt {ht : Hashtable} (hv : ht.Valid) (useMurmur3Hash : Bool) (key : BitVec 32) :
    (scalarIndex useMurmur3Hash ht key).toNat < ht.numBuckets.toNat := by
  unfold scalarIndex
  cases useMurmur3Hash with
  | true =>
    have hlt := altMod_lt (murmurHash32 key) hv.pos
    rw [if_pos rfl, BitVec.toNat_setWidth, Nat.mod_eq_of_lt (by omega)]
    exact hlt
  | false =>
    have hlt := toNat_and_mask_lt hv (key.setWidth 64)
    simpa [HASH, hv.skip_eq] using hlt

theorem imvIndex_lt {ht : Hashtable} (hv : ht.Valid) (useMurmur3Hash : Bool) (lane : BitVec 64) :
    (imvIndex useMurmur3Hash ht lane).toNat < ht.numBuckets.toNat := by
  have hlt := toNat_and_mask_lt hv (if useMurmur3Hash then imvHash lane else lane)
  simpa [imvIndex, hv.skip_eq] using hlt

/-- The head bucket of a key in the scalar functions, `ht->buckets + idx`: none where the table has no bucket
there. -/
def scalarBucket (useMurmur3Hash : Bool) (ht : Hashtable) (key : BitVec 32) : Option (Fin ht.numBuckets.toNat) :=
  let idx := (scalarIndex useMurmur3Hash ht key).toNat
  if h : idx < ht.numBuckets.toNat then some ⟨idx, h⟩ else none

theorem scalarBucket_of_valid (useMurmur3Hash : Bool) {ht : Hashtable} (hv : ht.Valid) (key : BitVec 32) :
    scalarBucket useMurmur3Hash ht key =
      some ⟨(scalarIndex useMurmur3Hash ht key).toNat, scalarIndex_lt hv useMurmur3Hash key⟩ :=
  dif_pos _

theorem scalarBucket_of_no_buckets (useMurmur3Hash : Bool) {ht : Hashtable} (hzero : ht.numBuckets = 0)
    (key : BitVec 32) : scalarBucket useMurmur3Hash ht key = none := by
  apply dif_neg
  rw [hzero]
  exact Nat.not_lt_zero _

/-- The head bucket of a lane in the vectorised functions. -/
def imvBucket (useMurmur3Hash : Bool) {ht : Hashtable} (hv : ht.Valid) (lane : BitVec 64) :
    Fin ht.numBuckets.toNat :=
  ⟨(imvIndex useMurmur3Hash ht lane).toNat, imvIndex_lt hv useMurmur3Hash lane⟩

end HashingArchive.Join
