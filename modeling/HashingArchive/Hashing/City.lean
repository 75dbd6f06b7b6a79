import HashingArchive.Hashing.Murmur

/-!
# The adapted CityHash

The helpers that `city.hpp` shares with other hashes of the repository. Its copy of the murmur step adds the constant
that `Murmur3Hash32` multiplies by: the two agree on a single key for every seed (`murmur3Hash32_eq_fmix_iff`). Of its
two `HashLen16`, the one with two arguments takes its first for the high word, while the one with three takes it for
the low word: they agree on equal words only (`hashLen16_overloads_iff`).
-/

namespace HashingArchive.Hashing

open HashingArchive.Library.Words HashingArchive.Reduction

/-! ### The code -/

def c1 : BitVec 32 := 0xcc9e2d51#32

def c2 : BitVec 32 := 0x1b873593#32

def fmix (h : BitVec 32) : BitVec 32 :=
  let h := h ^^^ h >>> 16
  let h := h * 0x85ebca6b#32
  let h := h ^^^ h >>> 13
  let h := h * 0xc2b2ae35#32
  h ^^^ h >>> 16

def Rotate32 (val : BitVec 32) (shift : ℕ) : BitVec 32 :=
  if shift = 0 then val else val >>> shift ||| val <<< (32 - shift)

def Mur (a h : BitVec 32) : BitVec 32 :=
  let a := a * c1
  let a := Rotate32 a 17
  let a := a * c2
  let h := h ^^^ a
  let h := Rotate32 h 19
  h * 5#32 + 0xe6546b64#32

/-- `HashLen16` of two arguments. -/
def HashLen16 (u v : BitVec 64) : BitVec 64 := hash128To64 (toHash128 u v)

/-- `HashLen16` of three arguments. -/
def HashLen16Mul (u v mul : BitVec 64) : BitVec 64 :=
  let a := (u ^^^ v) * mul
  let a := a ^^^ a >>> 47
  let b := (v ^^^ a) * mul
  let b := b ^^^ b >>> 47
  b * mul

/-! ### The murmur step -/

/-- The two copies of the finalizer are one. -/
theorem fmix_eq : fmix = MurmurFinalizer32 := rfl

/-- Rotating right by the other bits is rotating left. -/
theorem Rotate32_eq {shift : ℕ} (hpos : 0 < shift) (hlt : shift < 32) (val : BitVec 32) :
    Rotate32 val shift = val.rotateLeft (32 - shift) := by
  rw [Rotate32, if_neg hpos.ne', shiftRight_or_shiftLeft hpos hlt]

theorem Mur_eq (a h : BitVec 32) : Mur a h = body32 h a * 5#32 + 0xe6546b64#32 := by
  rw [Mur, Rotate32_eq (show 0 < 17 by norm_num) (by norm_num), Rotate32_eq (show 0 < 19 by norm_num) (by norm_num)]
  rfl

/-- The one key on which multiplying by the constant does what adding it does, traced back through the body. -/
def agreeingKey (seed : BitVec 32) : BitVec 32 :=
  ((seed ^^^ BitVec.rotateRight 0x3face2dc#32 13) * 0x56ed309b#32).rotateRight 15 * 0xdee13bb1#32

theorem body32_eq_iff (seed key : BitVec 32) : body32 seed key = 0x3face2dc#32 ↔ key = agreeingKey seed := by
  have hc1 : 0xcc9e2d51#32 * 0xdee13bb1#32 = 1#32 := by decide
  have hc2 : 0x1b873593#32 * 0x56ed309b#32 = 1#32 := by decide
  rw [body32, rotateLeft_eq_iff (by norm_num), xor_eq_iff, scramble_eq_iff (by norm_num) hc1 hc2, agreeingKey]

/-- The two steps differ by a product with an odd number and a constant. -/
theorem mul_eq_add_iff (h : BitVec 32) : h * 5#32 * 0xe6546b64#32 = h * 5#32 + 0xe6546b64#32 ↔ h = 0x3face2dc#32 := by
  have hsplit : h * 5#32 * 0xe6546b64#32 = h * 5#32 + h * 0x7fa618ef#32 := by
    rw [BitVec.mul_assoc, ← BitVec.mul_add]
    rfl
  have hinverse : 0x7fa618ef#32 * 0x72e0160f#32 = 1#32 := by decide
  rw [hsplit, BitVec.add_right_inj, mul_eq_iff hinverse]
  rfl

theorem Murmur3Hash32_eq_iff (seed key : BitVec 32) :
    Murmur3Hash32 seed key = fmix (Mur key seed ^^^ 4#32) ↔ key = agreeingKey seed := by
  rw [Murmur3Hash32_eq, fmix_eq, Mur_eq, MurmurFinalizer32_bijective.injective.eq_iff, BitVec.xor_left_inj,
    mul_eq_add_iff, body32_eq_iff]

/-- **The 32-bit murmur hash is the murmur step of `city.hpp`** on one key, and a bijection for no seed. -/
theorem murmur3Hash32_eq_fmix_iff (seed : BitVec 32) :
    (∀ key, Murmur3Hash32 seed key = fmix (Mur key seed ^^^ 4#32) ↔ key = agreeingKey seed) ∧
      ¬Function.Bijective (Murmur3Hash32 seed) :=
  ⟨Murmur3Hash32_eq_iff seed, fun hbij => Murmur3Hash32_not_injective seed hbij.injective⟩

/-- The seed of the benchmark and the key 0. -/
theorem murmur3Hash32_ne_fmix : ¬Murmur3Hash32 0x238EF8E3#32 0#32 = fmix (Mur 0#32 0x238EF8E3#32 ^^^ 4#32) := by
  decide

/-! ### Mixing two words -/

/-- The end of both: what they make of the second product can be undone. -/
theorem shiftMix_mul_injective {mul : BitVec 64} (hodd : Odd mul.toNat) :
    Function.Injective fun b : BitVec 64 => (b ^^^ b >>> 47) * mul :=
  (mul_injective hodd).comp (xorShift_injective (by norm_num))

/-- **The two forms agree** on equal words only. -/
theorem hashLen16_overloads_iff (u v : BitVec 64) :
    HashLen16 u v = HashLen16Mul u v 0x9ddfea08eb382d69#64 ↔ u = v := by
  have hodd : Odd kMul.toNat := by decide
  have htwo : HashLen16 u v = HashLen16Mul v u kMul := by
    simp only [HashLen16, hash128To64, lower_toHash128, higher_toHash128, HashLen16Mul]
  rw [htwo, show 0x9ddfea08eb382d69#64 = kMul from rfl]
  simp only [HashLen16Mul, BitVec.xor_comm v u]
  generalize (u ^^^ v) * kMul ^^^ ((u ^^^ v) * kMul) >>> 47 = a
  rw [(shiftMix_mul_injective hodd).eq_iff, (mul_injective hodd).eq_iff, BitVec.xor_left_inj]

/-- The words 1 and 0. -/
theorem hashLen16_overloads_differ : ¬HashLen16 1#64 0#64 = HashLen16Mul 1#64 0#64 0x9ddfea08eb382d69#64 := by
  decide

end HashingArchive.Hashing
