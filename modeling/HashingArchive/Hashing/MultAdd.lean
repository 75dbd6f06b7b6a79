import HashingArchive.Library.Words

/-!
# Multiply-add-shift hashes

`MultiplicationAddHash` multiplies and adds in a type of twice the key's width, and shifts there. Its comment reduces
the sum to the key's width before the shift; the code does so after it, and for `p < w` the shift then moves bits from
above the key's width into the result (`multiplicationAddHash_documented_iff`).
-/

namespace HashingArchive.Hashing

/-! ### The code -/

/-- `MultiplicationAddHash<T, R, constant1, constant2, base_name, p>` for a `T` of `t` and an `R` of `r` bits. The key
is converted to `R`, the result back to `T`. -/
def MultiplicationAddHash {t r : ℕ} (constant1 constant2 : BitVec r) (p : ℕ) (key : BitVec t) : BitVec t :=
  ((key.setWidth r * constant1 + constant2) >>> (t - p)).setWidth t

def MultAddShiftHash32 (p : ℕ) (key : BitVec 32) : BitVec 32 :=
  MultiplicationAddHash 0xC16FD7EEC0213493#64 0xA501000042C9A6E3#64 p key

def MultAddShiftHash64 (p : ℕ) (key : BitVec 64) : BitVec 64 :=
  MultiplicationAddHash 0x9B6E895FDDB88E3109E77036171A861D#128 0xF89E2E1E25B514732113E4015584C8AF#128 p key

def MultAddHash32 : BitVec 32 → BitVec 32 := MultAddShiftHash32 32

def MultAddHash64 : BitVec 64 → BitVec 64 := MultAddShiftHash64 64

/-! ### The documented hash -/

/-- The comment on the hash: `((key * constant1 + constant2) % 2^w) >> (w - p)`, a value of `p` bits. -/
def Documented {t r : ℕ} (constant1 constant2 : BitVec r) (p : ℕ) (key hash : BitVec t) : Prop :=
  hash.toNat = (key.toNat * constant1.toNat + constant2.toNat) % 2 ^ t / 2 ^ (t - p) ∧ hash.toNat < 2 ^ p

instance {t r : ℕ} (constant1 constant2 : BitVec r) (p : ℕ) (key hash : BitVec t) :
    Decidable (Documented constant1 constant2 p key hash) :=
  inferInstanceAs (Decidable (_ ∧ _))

/-- With the width `r` twice the key's, no bit of the sum that can reach the result is lost. -/
theorem toNat_MultiplicationAddHash {t r : ℕ} (hr : r = t + t) (constant1 constant2 : BitVec r) (p : ℕ)
    (key : BitVec t) :
    (MultiplicationAddHash constant1 constant2 p key).toNat =
      (key.toNat * constant1.toNat + constant2.toNat) / 2 ^ (t - p) % 2 ^ t := by
  have hkey : key.toNat < 2 ^ r := key.isLt.trans_le (Nat.pow_le_pow_right (by norm_num) (by omega))
  have hsplit : 2 ^ r = 2 ^ (t - p) * (2 ^ t * 2 ^ (t - (t - p))) := by
    rw [← pow_add, ← pow_add, hr]
    congr 1
    omega
  rw [MultiplicationAddHash, BitVec.toNat_setWidth, BitVec.toNat_ushiftRight, BitVec.toNat_add, BitVec.toNat_mul,
    BitVec.toNat_setWidth, Nat.mod_eq_of_lt hkey, Nat.mod_add_mod, Nat.shiftRight_eq_div_pow, hsplit,
    Nat.mod_mul_right_div_self, Nat.mod_mul_right_mod]

/-- Shifting and cutting to `t` bits keeps the `t - p` bits above the ones it should keep. -/
theorem div_mod_eq_add {t p : ℕ} (hp : p ≤ t) (sum : ℕ) :
    sum / 2 ^ (t - p) % 2 ^ t = sum % 2 ^ t / 2 ^ (t - p) + 2 ^ p * (sum / 2 ^ t % 2 ^ (t - p)) := by
  rw [← pow_mul_pow_sub 2 hp, Nat.mod_mul, Nat.mul_comm (2 ^ p) (2 ^ (t - p)), Nat.mod_mul_right_div_self,
    Nat.div_div_eq_div_mul]

theorem MultiplicationAddHash.documented_iff {t r p : ℕ} (hr : r = t + t) (hp : p ≤ t) (constant1 constant2 : BitVec r)
    (key : BitVec t) :
    Documented constant1 constant2 p key (MultiplicationAddHash constant1 constant2 p key) ↔
      (key.toNat * constant1.toNat + constant2.toNat) / 2 ^ t % 2 ^ (t - p) = 0 := by
  rw [Documented, toNat_MultiplicationAddHash hr, div_mod_eq_add hp]
  generalize key.toNat * constant1.toNat + constant2.toNat = sum
  have hlt : sum % 2 ^ t / 2 ^ (t - p) < 2 ^ p := by
    rw [Nat.div_lt_iff_lt_mul (Nat.two_pow_pos _), pow_mul_pow_sub 2 hp]
    exact Nat.mod_lt _ (Nat.two_pow_pos t)
  constructor
  · rintro ⟨heq, -⟩
    have hzero : 2 ^ p * (sum / 2 ^ t % 2 ^ (t - p)) = 0 := by omega
    exact (Nat.mul_eq_zero.mp hzero).resolve_left (Nat.two_pow_pos p).ne'
  · intro hzero
    rw [hzero, Nat.mul_zero, Nat.add_zero]
    exact ⟨rfl, hlt⟩

/-- Without a shift the hash is the documented one. -/
theorem MultiplicationAddHash.documented_full {t r : ℕ} (hr : r = t + t) (constant1 constant2 : BitVec r)
    (key : BitVec t) : Documented constant1 constant2 t key (MultiplicationAddHash constant1 constant2 t key) := by
  rw [MultiplicationAddHash.documented_iff hr le_rfl, Nat.sub_self, pow_zero, Nat.mod_one]

theorem MultAddHash_documented (key : BitVec 32) (key' : BitVec 64) :
    Documented 0xC16FD7EEC0213493#64 0xA501000042C9A6E3#64 32 key (MultAddHash32 key) ∧
      Documented 0x9B6E895FDDB88E3109E77036171A861D#128 0xF89E2E1E25B514732113E4015584C8AF#128 64 key'
        (MultAddHash64 key') :=
  ⟨MultiplicationAddHash.documented_full rfl _ _ key, MultiplicationAddHash.documented_full rfl _ _ key'⟩

/-- **The hash is the documented one** exactly where the `w - p` bits of the sum above the key's width are zero, in both
word sizes. -/
theorem multiplicationAddHash_documented_iff {t r p : ℕ} (hword : t = 32 ∧ r = 64 ∨ t = 64 ∧ r = 128)
    (hp : 1 ≤ p ∧ p ≤ t) (constant1 constant2 : BitVec r) (key : BitVec t) :
    Documented constant1 constant2 p key (MultiplicationAddHash constant1 constant2 p key) ↔
      (key.toNat * constant1.toNat + constant2.toNat) / 2 ^ t % 2 ^ (t - p) = 0 :=
  MultiplicationAddHash.documented_iff (by omega) hp.2 constant1 constant2 key

/-- The benchmark's 28 bits of the key 1 are not 28 bits. -/
theorem multAddShiftHash64_not_documented :
    ¬Documented 0x9B6E895FDDB88E3109E77036171A861D#128 0xF89E2E1E25B514732113E4015584C8AF#128 28 1#64
      (MultAddShiftHash64 28 1#64) := by
  decide

/-- With small constants the sum has no bits above the word. -/
theorem multiplicationAddHash_documented_small :
    Documented 5#128 7#128 28 1#64 (MultiplicationAddHash 5#128 7#128 28 1#64) ∧
      Documented 5#64 7#64 28 1#32 (MultiplicationAddHash 5#64 7#64 28 1#32) :=
  ⟨(multiplicationAddHash_documented_iff (by norm_num) (by norm_num) 5#128 7#128 1#64).mpr (by decide),
    (multiplicationAddHash_documented_iff (by norm_num) (by norm_num) 5#64 7#64 1#32).mpr (by decide)⟩

end HashingArchive.Hashing
