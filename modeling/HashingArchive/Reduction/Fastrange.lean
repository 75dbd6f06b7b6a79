import HashingArchive.Library.Ranges
import HashingArchive.Library.Words

/-!
# Reducers

`Fastrange` of `reduction.hpp` in its two word sizes: the high word of a product of double width. The widths are
large enough for every product (`toNat_Fastrange32`, `toNat_Fastrange64`), so both are `x ↦ x * N / 2 ^ w`.
`FastModulo` multiplies the exact quotient back, as the divider it is built from specifies.
-/

namespace HashingArchive.Reduction

open HashingArchive.Library HashingArchive.Library.Words

/-! ### The code -/

/-- `Fastrange<HASH_32>`, with `N` a `size_t`. -/
def Fastrange32 (N : BitVec 64) (value : BitVec 32) : BitVec 32 := ((value.setWidth 64 * N) >>> 32).setWidth 32

/-- `Fastrange<HASH_64>`, with the product in `__uint128_t`. -/
def Fastrange64 (N value : BitVec 64) : BitVec 64 := ((value.setWidth 128 * N.setWidth 128) >>> 64).setWidth 64

/-- `FastModulo<HASH_64>`. -/
def FastModulo64 (N hash : BitVec 64) : BitVec 64 :=
  let div := hash / N
  hash - div * N

/-! ### Values -/

theorem toNat_Fastrange32 {N : BitVec 64} (hpos : 1 ≤ N.toNat) (hN : N.toNat ≤ 2 ^ 32) (value : BitVec 32) :
    (Fastrange32 N value).toNat = value.toNat * N.toNat / 2 ^ 32 := by
  have hv := value.isLt
  have hfit : value.toNat * N.toNat < 2 ^ 64 := by
    calc value.toNat * N.toNat < 2 ^ 32 * 2 ^ 32 := Nat.mul_lt_mul_of_lt_of_le hv hN (by norm_num)
      _ = 2 ^ 64 := by norm_num
  have hlt : value.toNat * N.toNat / 2 ^ 32 < 2 ^ 32 :=
    (mul_div_lt (show 0 < N.toNat from hpos) (by norm_num) hv).trans_le hN
  rw [Fastrange32, BitVec.toNat_setWidth, BitVec.toNat_ushiftRight, BitVec.toNat_mul, BitVec.toNat_setWidth,
    Nat.mod_eq_of_lt (hv.trans (by norm_num)), Nat.mod_eq_of_lt hfit, Nat.shiftRight_eq_div_pow,
    Nat.mod_eq_of_lt hlt]

theorem toNat_Fastrange64 {N : BitVec 64} (hpos : 1 ≤ N.toNat) (value : BitVec 64) :
    (Fastrange64 N value).toNat = value.toNat * N.toNat / 2 ^ 64 := by
  have hv := value.isLt
  have hN := N.isLt
  have hfit : value.toNat * N.toNat < 2 ^ 128 := by
    calc value.toNat * N.toNat < 2 ^ 64 * 2 ^ 64 := Nat.mul_lt_mul_of_lt_of_le hv hN.le (by norm_num)
      _ = 2 ^ 128 := by norm_num
  have hlt : value.toNat * N.toNat / 2 ^ 64 < 2 ^ 64 :=
    (mul_div_lt (show 0 < N.toNat from hpos) (by norm_num) hv).trans hN
  rw [Fastrange64, BitVec.toNat_setWidth, BitVec.toNat_ushiftRight, BitVec.toNat_mul, BitVec.toNat_setWidth,
    BitVec.toNat_setWidth, Nat.mod_eq_of_lt (hv.trans (by norm_num)), Nat.mod_eq_of_lt (hN.trans (by norm_num)),
    Nat.mod_eq_of_lt hfit, Nat.shiftRight_eq_div_pow, Nat.mod_eq_of_lt hlt]

theorem toNat_FastModulo64 (N hash : BitVec 64) : (FastModulo64 N hash).toNat = hash.toNat % N.toNat := by
  have hle : hash.toNat / N.toNat * N.toNat ≤ hash.toNat := Nat.div_mul_le_self _ _
  have hsub : (hash / N * N).toNat = hash.toNat / N.toNat * N.toNat := by
    rw [BitVec.toNat_mul, BitVec.toNat_udiv, Nat.mod_eq_of_lt (hle.trans_lt hash.isLt)]
  rw [FastModulo64, BitVec.toNat_sub_of_le (BitVec.le_def.mpr (hsub.trans_le hle)), hsub, Nat.mod_def,
    Nat.mul_comm N.toNat]

/-! ### Even and in order -/

/-- The reducer `f` maps into `N` buckets, in order, and as many words to one bucket as to another, but for one. -/
structure ReducesEvenly {w : ℕ} (N : ℕ) (f : BitVec w → BitVec w) : Prop where
  lt : ∀ hash, (f hash).toNat < N
  mono : ∀ hash hash', hash ≤ hash' → f hash ≤ f hash'
  card : ∀ r < N, (Finset.univ.filter fun hash => (f hash).toNat = r).card =
    (r + 1) * 2 ^ w ⌈/⌉ N - r * 2 ^ w ⌈/⌉ N
  even : ∀ r < N, ∀ r' < N, (Finset.univ.filter fun hash => (f hash).toNat = r).card ≤
    (Finset.univ.filter fun hash => (f hash).toNat = r').card + 1

theorem ReducesEvenly.of_toNat {w N : ℕ} {f : BitVec w → BitVec w} (hN : 0 < N)
    (hf : ∀ hash, (f hash).toNat = hash.toNat * N / 2 ^ w) : ReducesEvenly N f := by
  have hW : 0 < 2 ^ w := Nat.two_pow_pos w
  have hcard : ∀ r < N, (Finset.univ.filter fun hash => (f hash).toNat = r).card =
      (r + 1) * 2 ^ w ⌈/⌉ N - r * 2 ^ w ⌈/⌉ N := by
    intro r hr
    simp only [hf]
    rw [card_filter_toNat fun x => x * N / 2 ^ w = r, card_fiber hN hW hr]
  refine ⟨fun hash => ?_, fun hash hash' hle => ?_, hcard, fun r hr r' hr' => ?_⟩
  · rw [hf]
    exact mul_div_lt hN hW hash.isLt
  · rw [BitVec.le_def, hf, hf]
    exact Nat.div_le_div_right (Nat.mul_le_mul_right N (BitVec.le_def.mp hle))
  · rw [hcard r hr, hcard r' hr']
    have hlen := fiber_length (W := 2 ^ w) hN r
    have hlen' := fiber_length (W := 2 ^ w) hN r'
    omega

/-- **`Fastrange` reduces evenly and in order**, in both word sizes and up to the largest number of buckets. -/
theorem fastrange_reducesEvenly :
    (∀ N : BitVec 64, 1 ≤ N.toNat → N.toNat ≤ 2 ^ 32 → ReducesEvenly N.toNat (Fastrange32 N)) ∧
      ∀ N : BitVec 64, 1 ≤ N.toNat → ReducesEvenly N.toNat (Fastrange64 N) :=
  ⟨fun _ hpos hN => .of_toNat hpos (toNat_Fastrange32 hpos hN), fun _ hpos => .of_toNat hpos (toNat_Fastrange64 hpos)⟩

/-- A number of buckets that does not divide the number of words, and the largest one. -/
theorem fastrange_reducesEvenly_ten :
    ReducesEvenly 10 (Fastrange32 10#64) ∧ ReducesEvenly (2 ^ 64 - 1) (Fastrange64 (-1#64)) :=
  ⟨fastrange_reducesEvenly.1 10#64 (by decide) (by decide), fastrange_reducesEvenly.2 (-1#64) (by decide)⟩

end HashingArchive.Reduction
