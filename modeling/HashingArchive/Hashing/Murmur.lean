import HashingArchive.Reduction.Hash128

/-!
# Murmur hashes

Every step of the two finalizers can be undone, so they are bijections, and the 128-bit hash keeps the whole key: its
tail reads the eight bytes back into the key, the mixing of the key can be undone, and so can the additions across the
two lanes (`murmur_loses_no_key`). The 32-bit hash multiplies where the original adds, and by an even constant: it
takes different keys to one hash for every seed (`Murmur3Hash32_not_injective`).
-/

namespace HashingArchive.Hashing

open HashingArchive.Library.Words HashingArchive.Reduction

/-! ### The code -/

/-- The steps of `MurmurFinalizer` in both word sizes. The products are cut to the word. -/
def finalize {w : ℕ} (s₁ s₂ s₃ : ℕ) (c₁ c₂ key : BitVec w) : BitVec w :=
  let key := key ^^^ key >>> s₁
  let key := key * c₁
  let key := key ^^^ key >>> s₂
  let key := key * c₂
  key ^^^ key >>> s₃

/-- `MurmurFinalizer<HASH_32>`. -/
def MurmurFinalizer32 (key : BitVec 32) : BitVec 32 := finalize 16 13 16 0x85ebca6b 0xc2b2ae35 key

/-- `MurmurFinalizer<HASH_64>`. -/
def MurmurFinalizer64 (key : BitVec 64) : BitVec 64 := finalize 33 33 33 0xff51afd7ed558ccd 0xc4ceb9fe1a85ec53 key

def rotl32 (x : BitVec 32) (r : ℕ) : BitVec 32 := x <<< r ||| x >>> (32 - r)

/-- `Murmur3Hash32<seed>`. The length has the type `size_t`, and the argument of the finalizer is cut to 32 bits. -/
def Murmur3Hash32 (seed key : BitVec 32) : BitVec 32 :=
  let len := 4#64
  let h1 := seed
  let c1 := 0xcc9e2d51#32
  let c2 := 0x1b873593#32
  let k1 := key
  let k1 := k1 * c1
  let k1 := rotl32 k1 15
  let k1 := k1 * c2
  let h1 := h1 ^^^ k1
  let h1 := rotl32 h1 13
  let h1 := h1 * 5#32 * 0xe6546b64#32
  MurmurFinalizer32 ((h1.setWidth 64 ^^^ len).setWidth 32)

def rotl64 (x : BitVec 64) (r : ℕ) : BitVec 64 := x <<< r ||| x >>> (64 - r)

/-- Byte `i` of the key in memory, the lowest first. -/
def tail (key : BitVec 64) (i : ℕ) : BitVec 8 := (key >>> (8 * i)).setWidth 8

/-- `Murmur3Hash128<seed>`. -/
def Murmur3Hash128 (seed key : BitVec 64) : BitVec 128 :=
  let h1 := seed
  let h2 := seed
  let c1 := 0x87c37b91114253d5#64
  let c2 := 0x4cf5ad432745937f#64
  let k1 := 0#64
  let k1 := k1 ^^^ (tail key 7).setWidth 64 <<< 56
  let k1 := k1 ^^^ (tail key 6).setWidth 64 <<< 48
  let k1 := k1 ^^^ (tail key 5).setWidth 64 <<< 40
  let k1 := k1 ^^^ (tail key 4).setWidth 64 <<< 32
  let k1 := k1 ^^^ (tail key 3).setWidth 64 <<< 24
  let k1 := k1 ^^^ (tail key 2).setWidth 64 <<< 16
  let k1 := k1 ^^^ (tail key 1).setWidth 64 <<< 8
  let k1 := k1 ^^^ (tail key 0).setWidth 64 <<< 0
  let k1 := k1 * c1
  let k1 := rotl64 k1 31
  let k1 := k1 * c2
  let h1 := h1 ^^^ k1
  let h1 := h1 ^^^ 8#64
  let h2 := h2 ^^^ 8#64
  let h1 := h1 + h2
  let h2 := h2 + h1
  let h1 := MurmurFinalizer64 h1
  let h2 := MurmurFinalizer64 h2
  let h1 := h1 + h2
  let h2 := h2 + h1
  toHash128 h1 h2

/-! ### The finalizers -/

theorem finalize_bijective {w s₁ s₂ s₃ : ℕ} {c₁ c₂ : BitVec w} (h₁ : 0 < s₁) (h₂ : 0 < s₂) (h₃ : 0 < s₃)
    (hc₁ : Odd c₁.toNat) (hc₂ : Odd c₂.toNat) : Function.Bijective (finalize s₁ s₂ s₃ c₁ c₂) :=
  (xorShift_bijective h₃).comp <| (mul_bijective hc₂).comp <| (xorShift_bijective h₂).comp <|
    (mul_bijective hc₁).comp (xorShift_bijective h₁)

theorem MurmurFinalizer32_bijective : Function.Bijective MurmurFinalizer32 :=
  finalize_bijective (by norm_num) (by norm_num) (by norm_num) (by decide) (by decide)

theorem MurmurFinalizer64_bijective : Function.Bijective MurmurFinalizer64 :=
  finalize_bijective (by norm_num) (by norm_num) (by norm_num) (by decide) (by decide)

/-! ### The body -/

/-- What the body of the hashes does to a block of the key. -/
def scramble {w : ℕ} (c₁ c₂ : BitVec w) (r : ℕ) (k : BitVec w) : BitVec w := (k * c₁).rotateLeft r * c₂

theorem scramble_bijective {w r : ℕ} {c₁ c₂ : BitVec w} (hr : r < w) (hc₁ : Odd c₁.toNat) (hc₂ : Odd c₂.toNat) :
    Function.Bijective (scramble c₁ c₂ r) :=
  (mul_bijective hc₂).comp <| (rotateLeft_bijective hr).comp (mul_bijective hc₁)

/-- The block of the key that a result comes from, given the inverses of the constants. -/
theorem scramble_eq_iff {w r : ℕ} {c₁ c₂ i₁ i₂ : BitVec w} (hr : r < w) (hc₁ : c₁ * i₁ = 1#w) (hc₂ : c₂ * i₂ = 1#w)
    {k y : BitVec w} : scramble c₁ c₂ r k = y ↔ k = (y * i₂).rotateRight r * i₁ := by
  rw [scramble, mul_eq_iff hc₂, rotateLeft_eq_iff hr, mul_eq_iff hc₁]

/-! ### The 32-bit hash -/

/-- The state of the 32-bit hash after it took in the key. -/
def body32 (seed key : BitVec 32) : BitVec 32 :=
  (seed ^^^ scramble 0xcc9e2d51#32 0x1b873593#32 15 key).rotateLeft 13

theorem body32_bijective (seed : BitVec 32) : Function.Bijective (body32 seed) :=
  (rotateLeft_bijective (by norm_num)).comp <| (xor_bijective seed).comp <|
    scramble_bijective (by norm_num) (by decide) (by decide)

theorem Murmur3Hash32_eq (seed key : BitVec 32) :
    Murmur3Hash32 seed key = MurmurFinalizer32 (body32 seed key * 5#32 * 0xe6546b64#32 ^^^ 4#32) := by
  rw [body32, scramble, ← shiftLeft_or_shiftRight (by norm_num), ← shiftLeft_or_shiftRight (by norm_num)]
  have hcut : ∀ h : BitVec 32, (h.setWidth 64 ^^^ 4#64).setWidth 32 = h ^^^ 4#32 := by
    intro h
    rw [BitVec.setWidth_xor, BitVec.setWidth_setWidth_of_le _ (by norm_num), BitVec.setWidth_eq]
    rfl
  exact congrArg MurmurFinalizer32 (hcut _)

/-- The factor of the body is a multiple of four, so that it takes the words 0 and `2 ^ 30` to one. -/
theorem Murmur3Hash32_not_injective (seed : BitVec 32) : ¬Function.Injective (Murmur3Hash32 seed) := by
  intro hinj
  obtain ⟨key, hkey⟩ := (body32_bijective seed).surjective 0#32
  obtain ⟨key', hkey'⟩ := (body32_bijective seed).surjective 0x40000000#32
  have heq : key = key' := by
    apply hinj
    rw [Murmur3Hash32_eq, Murmur3Hash32_eq, hkey, hkey']
    rfl
  rw [heq, hkey'] at hkey
  exact absurd hkey (by decide)

/-! ### The 128-bit hash -/

/-- The tail of the hash is the key: each byte fills the lowest byte that is not there yet. -/
theorem tail_eq (key : BitVec 64) :
    0#64 ^^^ (tail key 7).setWidth 64 <<< 56 ^^^ (tail key 6).setWidth 64 <<< 48 ^^^ (tail key 5).setWidth 64 <<< 40 ^^^
      (tail key 4).setWidth 64 <<< 32 ^^^ (tail key 3).setWidth 64 <<< 24 ^^^ (tail key 2).setWidth 64 <<< 16 ^^^
      (tail key 1).setWidth 64 <<< 8 ^^^ (tail key 0).setWidth 64 <<< 0 = key := by
  rw [← clearLow_width key]
  simp only [tail, clearLow_step]
  exact clearLow_zero key

/-- The mixing of the two lanes after the body. -/
def mixLanes (h1 h2 : BitVec 64) : BitVec 128 :=
  let f1 := MurmurFinalizer64 (h1 + h2)
  let f2 := MurmurFinalizer64 (h2 + (h1 + h2))
  toHash128 (f1 + f2) (f2 + (f1 + f2))

/-- The low word less the high one is the second lane, and the high word less that lane is the first. -/
theorem mixLanes_injective (h2 : BitVec 64) : Function.Injective fun h1 => mixLanes h1 h2 := by
  intro h1 h1' heq
  obtain ⟨hhigh, hlow⟩ := toHash128_inj.mp heq
  have hlane2 : MurmurFinalizer64 (h2 + (h1 + h2)) = MurmurFinalizer64 (h2 + (h1' + h2)) := by
    rw [hhigh] at hlow
    exact add_right_cancel hlow
  have hlane1 : MurmurFinalizer64 (h1 + h2) = MurmurFinalizer64 (h1' + h2) := by
    rw [hlane2] at hhigh
    exact add_right_cancel hhigh
  exact add_right_cancel (MurmurFinalizer64_bijective.injective hlane1)

theorem Murmur3Hash128_eq (seed key : BitVec 64) :
    Murmur3Hash128 seed key =
      mixLanes (seed ^^^ scramble 0x87c37b91114253d5#64 0x4cf5ad432745937f#64 31 key ^^^ 8#64) (seed ^^^ 8#64) := by
  rw [scramble, ← shiftLeft_or_shiftRight (by norm_num)]
  conv_rhs => rw [← tail_eq key]
  rfl

theorem Murmur3Hash128_injective (seed : BitVec 64) : Function.Injective (Murmur3Hash128 seed) := by
  intro key key' heq
  rw [Murmur3Hash128_eq, Murmur3Hash128_eq] at heq
  have hlane := mixLanes_injective _ heq
  rw [BitVec.xor_left_inj, BitVec.xor_right_inj] at hlane
  exact (scramble_bijective (by norm_num) (by decide) (by decide)).injective hlane

/-- **The finalizers are bijections, and no two keys share a 128-bit hash**, whatever the seed. -/
theorem murmur_loses_no_key :
    Function.Bijective MurmurFinalizer32 ∧ Function.Bijective MurmurFinalizer64 ∧
      ∀ seed, Function.Injective (Murmur3Hash128 seed) :=
  ⟨MurmurFinalizer32_bijective, MurmurFinalizer64_bijective, Murmur3Hash128_injective⟩

end HashingArchive.Hashing
