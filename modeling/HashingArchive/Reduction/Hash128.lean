import HashingArchive.Library.Words

/-!
# Words of 128 bits

`to_hash128` packs two words, the first of them above the second. `lower` and `higher` take them apart again, and
`hash_128_to_64` mixes them into one word.
-/

namespace HashingArchive.Reduction

/-! ### The code -/

def toHash128 (higher lower : BitVec 64) : BitVec 128 := higher.setWidth 128 <<< 64 ||| lower.setWidth 128

def lower (value : BitVec 128) : BitVec 64 := (value &&& 0xFFFFFFFFFFFFFFFF#128).setWidth 64

def higher (value : BitVec 128) : BitVec 64 := (value >>> 64).setWidth 64

def kMul : BitVec 64 := 0x9ddfea08eb382d69#64

def hash128To64 (x : BitVec 128) : BitVec 64 :=
  let a := (lower x ^^^ higher x) * kMul
  let a := a ^^^ a >>> 47
  let b := (higher x ^^^ a) * kMul
  let b := b ^^^ b >>> 47
  b * kMul

/-! ### Packing -/

/-- The mask is the low word. -/
theorem lower_eq_setWidth (value : BitVec 128) : lower value = value.setWidth 64 := by
  apply BitVec.eq_of_toNat_eq
  rw [lower, BitVec.toNat_setWidth, BitVec.toNat_and, BitVec.toNat_setWidth,
    show (0xFFFFFFFFFFFFFFFF#128).toNat = 2 ^ 64 - 1 from rfl, Nat.and_two_pow_sub_one_eq_mod, Nat.mod_mod]

@[simp] theorem lower_toHash128 (h l : BitVec 64) : lower (toHash128 h l) = l := by
  ext i hi
  simp [lower_eq_setWidth, toHash128]

@[simp] theorem higher_toHash128 (h l : BitVec 64) : higher (toHash128 h l) = h := by
  ext i hi
  simp [higher, toHash128, show 64 + i < 128 by omega, show i < 128 by omega, BitVec.getLsbD_eq_getElem hi]

/-- Packing loses neither word. -/
theorem toHash128_inj {h l h' l' : BitVec 64} : toHash128 h l = toHash128 h' l' ↔ h = h' ∧ l = l' := by
  constructor
  · intro heq
    have hhigher : higher (toHash128 h l) = higher (toHash128 h' l') := congrArg higher heq
    have hlower : lower (toHash128 h l) = lower (toHash128 h' l') := congrArg lower heq
    simpa using And.intro hhigher hlower
  · rintro ⟨rfl, rfl⟩
    rfl

end HashingArchive.Reduction
