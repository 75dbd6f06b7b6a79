import HashingArchive.Hashtable.Probe
import HashingArchive.Reduction.Fastrange
import HashingArchive.Reduction.Libdivide

/-!
# Reducers built from dividers

`FastModulo` and `BranchlessFastModulo` of `reduction.hpp` as the code has them: a divider made from the number of
buckets in the constructor, and the quotient it yields multiplied back. They are the remainder as long as the number of
buckets is one of the type of the hash, and one the divider can be made from (`remainder_iff`); the tables reduce with
the remainder itself (`apply_eq_FastModulo64`, `apply_eq_QuadraticProbingFunc`).
-/

namespace HashingArchive.Reduction

open HashingArchive.Reduction.Libdivide

/-! ### The code -/

/-- The members that the two reducers share. -/
structure DividerModulo (t : Unsigned) (algo : Branching) where
  magicDiv : Denom t algo
  N : BitVec 64

namespace DividerModulo

variable {t : Unsigned} {algo : Branching}

def construct (t : Unsigned) (algo : Branching) (numBuckets : BitVec 64) : Except Fault (DividerModulo t algo) :=
  (gen t algo (numBuckets.setWidth t.bits)).map fun magicDiv => { magicDiv, N := numBuckets }

/-- `remainder` in the operator, a `size_t`. -/
def remainder (f : DividerModulo t algo) (hash : BitVec t.bits) : BitVec 64 :=
  let div := divide hash f.magicDiv
  hash.setWidth 64 - div.setWidth 64 * f.N

/-- The operator, without its assertion that `remainder` is less than `N`. -/
def apply (f : DividerModulo t algo) (hash : BitVec t.bits) : BitVec t.bits := (f.remainder hash).setWidth t.bits

end DividerModulo

abbrev FastModulo (t : Unsigned) := DividerModulo t .branchfull

abbrev BranchlessFastModulo (t : Unsigned) := DividerModulo t .branchfree

/-! ### What the reducers compute -/

namespace DividerModulo

variable {t : Unsigned} {algo : Branching} {numBuckets : BitVec 64} {f : DividerModulo t algo}

theorem bits_le (t : Unsigned) : t.bits ≤ 64 := by
  cases t <;> decide

theorem construct_of_accepts (h : Accepts algo (numBuckets.setWidth t.bits)) :
    ∃ f, construct t algo numBuckets = .ok f := by
  obtain ⟨denom, hgen, -⟩ := exists_gen h
  exact ⟨{ magicDiv := denom, N := numBuckets }, by rw [construct, hgen]; rfl⟩

/-- A reducer that was constructed has a divider by the lower word of the number of buckets. -/
theorem construct_ok (h : construct t algo numBuckets = .ok f) :
    Accepts algo (numBuckets.setWidth t.bits) ∧ f.N = numBuckets ∧
      ∀ hash, (divide hash f.magicDiv).toNat = hash.toNat / (numBuckets.setWidth t.bits).toNat := by
  rw [construct] at h
  by_cases haccepts : Accepts algo (numBuckets.setWidth t.bits)
  · obtain ⟨denom, hgen, hdivide⟩ := exists_gen haccepts
    rw [hgen] at h
    obtain rfl := Except.ok.inj h
    exact ⟨haccepts, rfl, hdivide⟩
  · rw [gen_of_not_accepts haccepts] at h
    cases h

/-- Whatever the number of buckets is, the operator computes a remainder: the one by its lower word. -/
theorem toNat_apply (h : construct t algo numBuckets = .ok f) (hash : BitVec t.bits) :
    (f.apply hash).toNat = hash.toNat % (numBuckets.setWidth t.bits).toNat := by
  obtain ⟨-, hN, hdivide⟩ := construct_ok h
  have hsum : f.apply hash + divide hash f.magicDiv * numBuckets.setWidth t.bits = hash := by
    have hwide : f.remainder hash + (divide hash f.magicDiv).setWidth 64 * numBuckets = hash.setWidth 64 := by
      rw [remainder, hN, BitVec.sub_add_cancel]
    have hnarrow := congrArg (BitVec.setWidth t.bits) hwide
    rwa [BitVec.setWidth_add _ _ (bits_le t), BitVec.setWidth_mul _ _ (bits_le t),
      BitVec.setWidth_setWidth_of_le _ (bits_le t), BitVec.setWidth_setWidth_of_le _ (bits_le t), BitVec.setWidth_eq,
      BitVec.setWidth_eq] at hnarrow
  rw [BitVec.eq_sub_iff_add_eq.mpr hsum, toNat_sub_mul (hdivide hash)]

/-- With a number of buckets of the type of the hash, no word wraps. -/
theorem toNat_remainder (h : construct t algo numBuckets = .ok f) (hfit : numBuckets.toNat < 2 ^ t.bits)
    (hash : BitVec t.bits) : (f.remainder hash).toNat = hash.toNat % numBuckets.toNat := by
  obtain ⟨-, hN, hdivide⟩ := construct_ok h
  have hwiden (x : BitVec t.bits) : (x.setWidth 64).toNat = x.toNat := BitVec.toNat_setWidth_of_le (bits_le t)
  have hq : ((divide hash f.magicDiv).setWidth 64).toNat = (hash.setWidth 64).toNat / numBuckets.toNat := by
    rw [hwiden, hwiden, hdivide, BitVec.toNat_setWidth, Nat.mod_eq_of_lt hfit]
  rw [remainder, hN, toNat_sub_mul hq, hwiden]

/-- The smallest number of buckets that the constructor takes. -/
def least : Branching → ℕ
  | .branchfull => 1
  | .branchfree => 2

theorem accepts_iff (hfit : numBuckets.toNat < 2 ^ t.bits) :
    Accepts algo (numBuckets.setWidth t.bits) ↔ least algo ≤ numBuckets.toNat := by
  have hpow : 1 < 2 ^ t.bits := Nat.one_lt_two_pow t.bits_pos.ne'
  have hzero : numBuckets.setWidth t.bits = 0#t.bits ↔ numBuckets.toNat = 0 := by
    rw [← BitVec.toNat_inj, BitVec.toNat_setWidth, Nat.mod_eq_of_lt hfit, BitVec.toNat_ofNat, Nat.zero_mod]
  have hone : numBuckets.setWidth t.bits = 1#t.bits ↔ numBuckets.toNat = 1 := by
    rw [← BitVec.toNat_inj, BitVec.toNat_setWidth, Nat.mod_eq_of_lt hfit, BitVec.toNat_ofNat, Nat.mod_eq_of_lt hpow]
  rw [Accepts, Ne, hzero, Ne, hone]
  cases algo with
  | branchfull =>
    simp only [least]
    exact ⟨fun h => Nat.one_le_iff_ne_zero.mpr h.1, fun h => ⟨Nat.one_le_iff_ne_zero.mp h, fun h => nomatch h⟩⟩
  | branchfree =>
    simp only [least, forall_const]
    omega

/-- A number of buckets beyond the type of the hash sends the largest hash elsewhere. -/
theorem fits_of_remainder (h : construct t algo numBuckets = .ok f)
    (hexact : ∀ hash, (f.apply hash).toNat = hash.toNat % numBuckets.toNat) : numBuckets.toNat < 2 ^ t.bits := by
  obtain ⟨⟨hzero, -⟩, -, -⟩ := construct_ok h
  have hpos : 0 < (numBuckets.setWidth t.bits).toNat := by
    refine Nat.pos_of_ne_zero fun hnat => hzero (BitVec.eq_of_toNat_eq ?_)
    rw [hnat, BitVec.toNat_ofNat, Nat.zero_mod]
  have hlt := (numBuckets.setWidth t.bits).isLt
  by_contra hlarge
  have hmod := hexact (BitVec.allOnes t.bits)
  have hlast := Nat.mod_lt (2 ^ t.bits - 1) hpos
  rw [toNat_apply h, BitVec.toNat_allOnes, Nat.mod_eq_of_lt (by omega : 2 ^ t.bits - 1 < numBuckets.toNat)] at hmod
  omega

/-- **The reducers are the remainder exactly if the number of buckets fits** the type of the hash and the divider takes
it: at least one bucket, or two without branches. The assertion of the operator holds then. -/
theorem remainder_iff (t : Unsigned) (algo : Branching) (numBuckets : BitVec 64) :
    (∃ f, construct t algo numBuckets = .ok f ∧ ∀ hash, (f.apply hash).toNat = hash.toNat % numBuckets.toNat ∧
      f.remainder hash < f.N) ↔ least algo ≤ numBuckets.toNat ∧ numBuckets.toNat < 2 ^ t.bits := by
  constructor
  · rintro ⟨f, hf, hexact⟩
    have hfit := fits_of_remainder hf fun hash => (hexact hash).1
    exact ⟨(accepts_iff hfit).mp (construct_ok hf).1, hfit⟩
  · rintro ⟨hleast, hfit⟩
    have haccepts : Accepts algo (numBuckets.setWidth t.bits) := (accepts_iff hfit).mpr hleast
    obtain ⟨f, hf⟩ := construct_of_accepts haccepts
    have hpos : 0 < numBuckets.toNat := by
      cases algo <;> simp only [least] at hleast <;> omega
    refine ⟨f, hf, fun hash => ⟨?_, ?_⟩⟩
    · rw [toNat_apply hf, BitVec.toNat_setWidth, Nat.mod_eq_of_lt hfit]
    · rw [BitVec.lt_def, toNat_remainder hf hfit, (construct_ok hf).2.1]
      exact Nat.mod_lt _ hpos

theorem remainder_iff_thousand : ∃ f, construct .u64 .branchfree 1000#64 = .ok f ∧ ∀ hash,
    (f.apply hash).toNat = hash.toNat % (1000#64).toNat ∧ f.remainder hash < f.N :=
  (remainder_iff .u64 .branchfree 1000#64).mpr (by decide)

/-! ### The reducers of the tables -/

theorem apply_eq_FastModulo64 {f : FastModulo .u64} (h : construct .u64 .branchfull numBuckets = .ok f)
    (hash : BitVec 64) : f.apply hash = FastModulo64 numBuckets hash := by
  apply BitVec.eq_of_toNat_eq
  rw [toNat_apply h, toNat_FastModulo64, BitVec.setWidth_eq]

/-- `QuadraticProbingFunc` keeps a `FastModulo` and applies it to the sum, which wraps. -/
theorem apply_eq_QuadraticProbingFunc {f : FastModulo .u64} (h : construct .u64 .branchfull numBuckets = .ok f)
    (index probingStep : BitVec 64) : (f.apply (index + probingStep * probingStep)).toNat =
      Hashtable.QuadraticProbingFunc numBuckets.toNat index.toNat probingStep.toNat := by
  rw [toNat_apply h, BitVec.setWidth_eq, BitVec.toNat_add, BitVec.toNat_mul, Nat.add_mod_mod,
    Hashtable.QuadraticProbingFunc]

end DividerModulo

end HashingArchive.Reduction
