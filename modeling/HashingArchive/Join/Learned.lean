import HashingArchive.Library.Lanes
import HashingArchive.Library.Rounding
import HashingArchive.Join.Hashtable

/-!
# The learned join: which bucket a key goes to

A root model picks one of the leaf models, and the prediction of that one, scaled to `FANOUT`, is the bucket. The
scalar code rounds and clamps; the vectorised code adds a half, clamps and cuts off, on 8 lanes under a mask, and
gathers the leaf model from a byte offset. The arithmetic of `double` is exact here. Both compute the same bucket
(`learned_imv_same_bucket`).

The operations on vectors are those of the instruction set: a lane that is not in the mask keeps what the source
register holds.
-/

namespace HashingArchive.Join.Learned

open HashingArchive.Library HashingArchive.Lanes

/-! ### The models -/

structure LinearModel where
  slope : ℚ
  intercept : ℚ

/-- The cached model parameters: the root model `models[0][0]`, and the slopes and intercepts of the leaf models. -/
structure Rmi where
  root : LinearModel
  num_models : BitVec 32
  slopes : Fin num_models.toNat → ℚ
  intercepts : Fin num_models.toNat → ℚ
  FANOUT : BitVec 32

/-! ### The scalar code -/

/-- `static_cast<uint64_t>(std::max(0., std::min(n - 1., round(x))))` -/
def roundInto (n : BitVec 32) (x : ℚ) : ℕ := ⌊max 0 (min ((n.toNat : ℚ) - 1) (roundAway x : ℚ))⌋₊

/-- The leaf model `hash_build_rel_r_partition_learned` and `hash_probe_rel_s_partition_learned` use for a key. -/
def leafIdx (root : LinearModel) (num_models key : BitVec 32) : ℕ :=
  roundInto num_models (root.slope * key.toNat + root.intercept)

/-- The bucket they use for a key, none if there is no such leaf model. -/
def Rmi.idx (rmi : Rmi) (key : BitVec 32) : Option ℕ :=
  let leaf := leafIdx rmi.root rmi.num_models key
  if h : leaf < rmi.num_models.toNat then
    let pred_cdf := rmi.slopes ⟨leaf, h⟩ * key.toNat + rmi.intercepts ⟨leaf, h⟩
    some (roundInto rmi.FANOUT (pred_cdf * rmi.FANOUT.toNat))
  else none

/-! ### Vector operations -/

section
variable {γ : Type}

/-- The lanes of the mask from `v`, the others from `src`. -/
def maskMov (src : Fin 8 → γ) (m : Mask 8) (v : Fin 8 → γ) : Fin 8 → γ := fun i => if m i then v i else src i

theorem maskMov_of_mem {src v : Fin 8 → γ} {m : Mask 8} {i : Fin 8} (hi : m i = true) : maskMov src m v i = v i :=
  if_pos hi

end

def maskCvtepi64Pd (src : Fin 8 → ℚ) (m : Mask 8) (a : Fin 8 → BitVec 64) : Fin 8 → ℚ :=
  maskMov src m fun i => (a i).toInt

def maskFmaddPd (a : Fin 8 → ℚ) (m : Mask 8) (b c : Fin 8 → ℚ) : Fin 8 → ℚ := maskMov a m fun i => a i * b i + c i

def maskAddPd (src : Fin 8 → ℚ) (m : Mask 8) (a b : Fin 8 → ℚ) : Fin 8 → ℚ := maskMov src m fun i => a i + b i

def maskMulPd (src : Fin 8 → ℚ) (m : Mask 8) (a b : Fin 8 → ℚ) : Fin 8 → ℚ := maskMov src m fun i => a i * b i

def maskMinPd (src : Fin 8 → ℚ) (m : Mask 8) (a b : Fin 8 → ℚ) : Fin 8 → ℚ := maskMov src m fun i => min (a i) (b i)

def maskMaxPd (src : Fin 8 → ℚ) (m : Mask 8) (a b : Fin 8 → ℚ) : Fin 8 → ℚ := maskMov src m fun i => max (a i) (b i)

def maskFloorPd (src : Fin 8 → ℚ) (m : Mask 8) (a : Fin 8 → ℚ) : Fin 8 → ℚ := maskMov src m fun i => (⌊a i⌋ : ℚ)

/-- Conversion rounds to the nearest integer, halves to even. -/
def maskCvtpdEpi64 (src : Fin 8 → BitVec 64) (m : Mask 8) (a : Fin 8 → ℚ) : Fin 8 → BitVec 64 :=
  maskMov src m fun i => BitVec.ofInt 64 (roundEven (a i))

/-- The element of 8 bytes at a byte offset in a vector of doubles, if an element begins there. -/
def loadPd {n : ℕ} (xs : Fin n → ℚ) (offset : BitVec 64) : Option ℚ :=
  if h : offset.toNat % 8 = 0 ∧ offset.toNat / 8 < n then some (xs ⟨offset.toNat / 8, h.2⟩) else none

/-- Gather from a vector of doubles at byte offsets, none if a lane of the mask reads anything else. -/
def maskI64gatherPd {n : ℕ} (src : Fin 8 → ℚ) (m : Mask 8) (offset : Fin 8 → BitVec 64) (xs : Fin n → ℚ) :
    Option (Fin 8 → ℚ) :=
  if ∃ i, m i = true ∧ loadPd xs (offset i) = none then none
  else some (maskMov src m fun i => (loadPd xs (offset i)).getD 0)

/-! ### The vectorised code -/

/-- The registers all states share, with what the last stage left in them. -/
structure Registers where
  general_reg_2_double : Fin 8 → ℚ
  slopes_avx : Fin 8 → ℚ
  intercepts_avx : Fin 8 → ℚ

/-- The steps both levels end with: add a half, clamp between zero and `n - 1`, cut off. -/
def addHalfClampFloor (n : BitVec 32) (m : Mask 8) (x : Fin 8 → ℚ) : Fin 8 → ℚ :=
  let x := maskAddPd x m x fun _ => 1 / 2
  let x := maskMinPd x m x fun _ => (n.toNat : ℚ) - 1
  let x := maskMaxPd x m x fun _ => 0
  maskFloorPd x m x

/-- Stage 1 of `hash_build_rel_r_partition_learned_imv`: the byte offset of the leaf model of each tuple. -/
def Rmi.rootLevel (rmi : Rmi) (r : Registers) (m : Mask 8) (key : Fin 8 → Tuple) (ht_off : Fin 8 → BitVec 64) :
    Fin 8 → BitVec 64 :=
  let general_reg_2_double := maskCvtepi64Pd r.general_reg_2_double m key
  let x := maskFmaddPd general_reg_2_double m (fun _ => rmi.root.slope) fun _ => rmi.root.intercept
  let x := addHalfClampFloor rmi.num_models m x
  let x := maskMulPd x m x fun _ => 8
  maskCvtpdEpi64 ht_off m x

/-- Stage 0: the bucket of each tuple, up to the multiplication by the size of a bucket. -/
def Rmi.leafLevel (rmi : Rmi) (r : Registers) (m : Mask 8) (key : Fin 8 → Tuple) (ht_off : Fin 8 → BitVec 64) :
    Option (Fin 8 → BitVec 64) := do
  let general_reg_2_double := maskCvtepi64Pd r.general_reg_2_double m key
  let slopes_avx ← maskI64gatherPd r.slopes_avx m ht_off rmi.slopes
  let intercepts_avx ← maskI64gatherPd r.intercepts_avx m ht_off rmi.intercepts
  let x := maskFmaddPd general_reg_2_double m slopes_avx intercepts_avx
  let x := maskMulPd x m x fun _ => (rmi.FANOUT.toNat : ℚ)
  let x := addHalfClampFloor rmi.FANOUT m x
  return maskCvtpdEpi64 ht_off m x

/-- The address each lane goes on with. -/
def htOff (v_ht_addr v_bucket_size : BitVec 64) (m : Mask 8) (idx : Fin 8 → BitVec 64) : Fin 8 → BitVec 64 :=
  let ht_off := maskMov idx m fun i => idx i * v_bucket_size
  maskMov ht_off m fun i => ht_off i + v_ht_addr

/-! ### Both compute the same -/

theorem sub_one_cast {n : BitVec 32} (hn : 1 ≤ n.toNat) : (n.toNat : ℚ) - 1 = ((n.toNat - 1 : ℕ) : ℚ) := by
  rw [Nat.cast_sub hn, Nat.cast_one]

theorem roundInto_eq_clamp {n : BitVec 32} (hn : 1 ≤ n.toNat) (x : ℚ) :
    (roundInto n x : ℤ) = max 0 (min ((n.toNat - 1 : ℕ) : ℤ) (roundAway x)) := by
  have hclamp : max 0 (min ((n.toNat : ℚ) - 1) (roundAway x : ℚ)) =
      ((max 0 (min ((n.toNat - 1 : ℕ) : ℤ) (roundAway x)) : ℤ) : ℚ) := by
    rw [sub_one_cast hn]
    push_cast
    rfl
  rw [roundInto, hclamp, Int.natCast_floor_eq_floor (by exact_mod_cast le_max_left _ _), Int.floor_intCast]

theorem roundInto_eq {n : BitVec 32} (hn : 1 ≤ n.toNat) (x : ℚ) :
    (roundInto n x : ℤ) = ⌊max (min (x + 1 / 2) ((n.toNat : ℚ) - 1)) 0⌋ := by
  rw [roundInto_eq_clamp hn, clamp_roundAway, sub_one_cast hn]

theorem roundInto_lt {n : BitVec 32} (hn : 1 ≤ n.toNat) (x : ℚ) : roundInto n x < n.toNat := by
  have hclamp := roundInto_eq_clamp hn x
  have hle : max 0 (min ((n.toNat - 1 : ℕ) : ℤ) (roundAway x)) ≤ ((n.toNat - 1 : ℕ) : ℤ) :=
    max_le (Int.natCast_nonneg _) (min_le_left _ _)
  omega

/-- A value in range is rounded. -/
theorem roundInto_of_mem {n : BitVec 32} (hn : 1 ≤ n.toNat) {x : ℚ} (hx : 0 ≤ x) (hle : x ≤ (n.toNat : ℚ) - 1) :
    (roundInto n x : ℤ) = roundAway x := by
  have hlower : 0 ≤ roundAway x := by
    rw [roundAway_of_nonneg hx]
    exact Int.floor_nonneg.mpr (by linarith)
  have hupper : roundAway x ≤ ((n.toNat - 1 : ℕ) : ℤ) := by
    rw [roundAway_of_nonneg hx, ← Int.lt_add_one_iff, Int.floor_lt]
    push_cast
    rw [← sub_one_cast hn]
    linarith
  rw [roundInto_eq_clamp hn, min_eq_right hupper, max_eq_right hlower]

/-- A lane of the mask ends up with the rounded and clamped value. -/
theorem addHalfClampFloor_eq {n : BitVec 32} (hn : 1 ≤ n.toNat) {m : Mask 8} {i : Fin 8} (hi : m i = true)
    (x : Fin 8 → ℚ) : addHalfClampFloor n m x i = roundInto n (x i) := by
  have hlane : addHalfClampFloor n m x i = ⌊max (min (x i + 1 / 2) ((n.toNat : ℚ) - 1)) 0⌋ := by
    simp only [addHalfClampFloor, maskFloorPd, maskMaxPd, maskMinPd, maskAddPd, maskMov_of_mem hi]
  rw [hlane, ← roundInto_eq hn, Int.cast_natCast]

theorem toNat_maskCvtpdEpi64 {src : Fin 8 → BitVec 64} {m : Mask 8} {i : Fin 8} (hi : m i = true) {a : Fin 8 → ℚ}
    {x : ℕ} (ha : a i = x) (hx : x < 2 ^ 64) : (maskCvtpdEpi64 src m a i).toNat = x := by
  have hround : roundEven (a i) = x := by
    rw [ha, ← Int.cast_natCast, roundEven_intCast]
  rw [maskCvtpdEpi64, maskMov_of_mem hi, hround, BitVec.ofInt_natCast, BitVec.toNat_ofNat, Nat.mod_eq_of_lt hx]

/-- Gathering from places where elements begin. -/
theorem maskI64gatherPd_eq {n : ℕ} (src : Fin 8 → ℚ) (xs : Fin n → ℚ) {m : Mask 8} {offset : Fin 8 → BitVec 64}
    {idx : Fin 8 → Fin n} (hidx : ∀ i, m i = true → (offset i).toNat = idx i * 8) :
    ∃ v, maskI64gatherPd src m offset xs = some v ∧ ∀ i, m i = true → v i = xs (idx i) := by
  have hload : ∀ i, m i = true → loadPd xs (offset i) = some (xs (idx i)) := by
    intro i hi
    have hdiv : (offset i).toNat / 8 = idx i := by rw [hidx i hi]; exact Nat.mul_div_cancel _ (by norm_num)
    have hin : (offset i).toNat % 8 = 0 ∧ (offset i).toNat / 8 < n := by
      rw [hdiv]
      exact ⟨by rw [hidx i hi]; exact Nat.mul_mod_left _ _, (idx i).isLt⟩
    rw [loadPd, dif_pos hin]
    exact congrArg (fun j => some (xs j)) (Fin.ext hdiv)
  refine ⟨_, if_neg ?_, fun i hi => ?_⟩
  · rintro ⟨i, hi, hnone⟩
    rw [hload i hi] at hnone
    exact absurd hnone (by simp)
  · rw [maskMov_of_mem hi, hload i hi, Option.getD_some]

theorem toInt_mk_zero (key : BitVec 32) : (Tuple.mk key 0).toInt = key.toNat := by
  have hkey := key.isLt
  have hnat : (Tuple.mk key 0).toNat = key.toNat := by
    rw [Tuple.mk, BitVec.toNat_append]
    simp
  rw [BitVec.toInt_eq_toNat_cond, hnat, if_pos (by omega)]

/-- Stage 1 leaves every lane of the mask with the byte offset of a leaf model, for a tuple without payload that of
the model the scalar code uses. -/
theorem rootLevel_spec (rmi : Rmi) (hM : 1 ≤ rmi.num_models.toNat) (r : Registers) (m : Mask 8)
    (key : Fin 8 → Tuple) (ht_off : Fin 8 → BitVec 64) :
    ∃ leaf : Fin 8 → Fin rmi.num_models.toNat, ∀ i, m i = true →
      (rmi.rootLevel r m key ht_off i).toNat = leaf i * 8 ∧
        ∀ k, key i = Tuple.mk k 0 → leafIdx rmi.root rmi.num_models k = leaf i := by
  refine ⟨fun i => ⟨roundInto rmi.num_models (rmi.root.slope * (key i).toInt + rmi.root.intercept),
    roundInto_lt hM _⟩, fun i hi => ⟨?_, fun k hk => ?_⟩⟩
  · have hlt := roundInto_lt hM (rmi.root.slope * (key i).toInt + rmi.root.intercept)
    have hmodels := rmi.num_models.isLt
    apply toNat_maskCvtpdEpi64 hi
    · have hlane : maskFmaddPd (maskCvtepi64Pd r.general_reg_2_double m key) m (fun _ => rmi.root.slope)
          (fun _ => rmi.root.intercept) i = rmi.root.slope * (key i).toInt + rmi.root.intercept := by
        rw [maskFmaddPd, maskMov_of_mem hi, maskCvtepi64Pd, maskMov_of_mem hi, mul_comm]
      rw [maskMulPd, maskMov_of_mem hi, addHalfClampFloor_eq hM hi, hlane]
      push_cast
      rfl
    · dsimp only
      omega
  · have hint : (key i).toInt = k.toNat := by rw [hk, toInt_mk_zero]
    dsimp only
    rw [hint, Int.cast_natCast, leafIdx]

/-- **The scalar and the vectorised build use the same bucket** for a tuple without payload, whatever the models
are, and it is one of the `FANOUT` buckets. -/
theorem learned_imv_same_bucket (rmi : Rmi) (hM : 1 ≤ rmi.num_models.toNat) (hF : 1 ≤ rmi.FANOUT.toNat)
    (r r' : Registers) (m : Mask 8) (key : Fin 8 → Tuple) (ht_off : Fin 8 → BitVec 64) :
    ∃ idx, rmi.leafLevel r' m key (rmi.rootLevel r m key ht_off) = some idx ∧
      ∀ i, m i = true → ∀ k, key i = Tuple.mk k 0 →
        ∃ b < rmi.FANOUT.toNat, rmi.idx k = some b ∧ (idx i).toNat = b ∧ ∀ v_ht_addr v_bucket_size,
          htOff v_ht_addr v_bucket_size m idx i = BitVec.ofNat 64 b * v_bucket_size + v_ht_addr := by
  obtain ⟨leaf, hleaf⟩ := rootLevel_spec rmi hM r m key ht_off
  obtain ⟨slopes, hslopes, hslope⟩ := maskI64gatherPd_eq r'.slopes_avx rmi.slopes fun i hi => (hleaf i hi).1
  obtain ⟨intercepts, hintercepts, hintercept⟩ :=
    maskI64gatherPd_eq r'.intercepts_avx rmi.intercepts fun i hi => (hleaf i hi).1
  refine ⟨_, by rw [Rmi.leafLevel, hslopes, hintercepts]; rfl, fun i hi k hk => ?_⟩
  have hint : (key i).toInt = k.toNat := by rw [hk, toInt_mk_zero]
  have hkey := (hleaf i hi).2 k hk
  have hidx : rmi.idx k = some (roundInto rmi.FANOUT
      ((rmi.slopes (leaf i) * k.toNat + rmi.intercepts (leaf i)) * rmi.FANOUT.toNat)) := by
    have hlt : leafIdx rmi.root rmi.num_models k < rmi.num_models.toNat := hkey ▸ (leaf i).isLt
    have hfin : (⟨leafIdx rmi.root rmi.num_models k, hlt⟩ : Fin rmi.num_models.toNat) = leaf i := Fin.ext hkey
    rw [Rmi.idx, dif_pos hlt, hfin]
  have hlt := roundInto_lt hF ((rmi.slopes (leaf i) * k.toNat + rmi.intercepts (leaf i)) * rmi.FANOUT.toNat)
  have hfanout := rmi.FANOUT.isLt
  have hlane : (maskCvtpdEpi64 (rmi.rootLevel r m key ht_off) m (addHalfClampFloor rmi.FANOUT m
      (maskMulPd (maskFmaddPd (maskCvtepi64Pd r'.general_reg_2_double m key) m slopes intercepts) m
        (maskFmaddPd (maskCvtepi64Pd r'.general_reg_2_double m key) m slopes intercepts)
          fun _ => (rmi.FANOUT.toNat : ℚ))) i).toNat =
      roundInto rmi.FANOUT ((rmi.slopes (leaf i) * k.toNat + rmi.intercepts (leaf i)) * rmi.FANOUT.toNat) := by
    apply toNat_maskCvtpdEpi64 hi
    · rw [addHalfClampFloor_eq hF hi, maskMulPd, maskMov_of_mem hi, maskFmaddPd, maskMov_of_mem hi, maskCvtepi64Pd,
        maskMov_of_mem hi, hslope i hi, hintercept i hi, hint, Int.cast_natCast, mul_comm (k.toNat : ℚ)]
    · omega
  refine ⟨_, hlt, hidx, hlane, fun v_ht_addr v_bucket_size => ?_⟩
  rw [htOff, maskMov_of_mem hi, maskMov_of_mem hi, ← hlane, BitVec.ofNat_toNat, BitVec.setWidth_eq]

/-- Two leaf models and three buckets; the root model is half way between the leaves for key `5`. -/
def halfWay : Rmi where
  root := { slope := 1 / 10, intercept := 0 }
  num_models := 2
  slopes _ := 1 / 5
  intercepts i := -i.val
  FANOUT := 3

/-- All lanes hold key `5`, in a state whose registers hold anything. -/
theorem learned_imv_same_bucket_half_way : ∃ idx,
    halfWay.leafLevel ⟨fun _ => 7, fun _ => 8, fun _ => 9⟩ (allLanes 8) (fun _ => Tuple.mk 5 0)
      (halfWay.rootLevel ⟨fun _ => 7, fun _ => 8, fun _ => 9⟩ (allLanes 8) (fun _ => Tuple.mk 5 0) fun _ => 6) =
        some idx ∧ ∀ i, ∃ b < 3, halfWay.idx 5 = some b ∧ (idx i).toNat = b := by
  obtain ⟨idx, hidx, hlane⟩ := learned_imv_same_bucket halfWay (by decide) (by decide)
    ⟨fun _ => 7, fun _ => 8, fun _ => 9⟩ ⟨fun _ => 7, fun _ => 8, fun _ => 9⟩ (allLanes 8) (fun _ => Tuple.mk 5 0)
    fun _ => 6
  refine ⟨idx, hidx, fun i => ?_⟩
  obtain ⟨b, hlt, hb, hi, -⟩ := hlane i rfl 5 rfl
  exact ⟨b, hlt, hb, hi⟩

end HashingArchive.Join.Learned
