import HashingArchive.Join.Learned

/-!
# The learned join: training

Thread 0 of `sample_and_train_models_threaded` trains the root model through the first and the last key of the sorted
sample, gives every sample point to a leaf model, and trains the leaf models in order. Vectors of points are lists, in
exact arithmetic but for the keys, which are words: a difference of keys is one of `uint32_t`.

The leaf of a point is cut off from the prediction of the root model, where build and probe round it: they agree on the
keys whose prediction has a fraction below a half (`leaf_agrees_iff`).
-/

namespace HashingArchive.Join.Learned

open HashingArchive.Library

/-! ### The root model -/

structure TrainingPoint where
  x : Tuple
  y : ℚ

/-- `training_data[0][0]`: the sample points with their ranks. -/
def trainingData (training_sample : List Tuple) : List TrainingPoint :=
  training_sample.zipIdx.map fun p => { x := p.1, y := (p.2 : ℚ) / training_sample.length }

/-- The root model for `arch1` leaf models, none if all keys are the same. -/
def trainRoot (arch1 : BitVec 32) (training_sample : List Tuple) : Option LinearModel := do
  let first ← training_sample.head?
  let last ← training_sample.getLast?
  if first.key = last.key then none
  else
    let min ← (trainingData training_sample).head?
    let max ← (trainingData training_sample).getLast?
    let slope : ℚ := 1 / (max.x.key - min.x.key).toNat
    let intercept := -slope * min.x.key.toNat
    return { slope := slope * (arch1 - 1).toNat, intercept := intercept * (arch1 - 1).toNat }

/-- The leaf model a point is given to. Conversion to `unsigned int` cuts off. -/
def rank (arch1 : BitVec 32) (root : LinearModel) (key : BitVec 32) : ℕ :=
  max 0 (min (arch1 - 1).toNat ⌊root.slope * key.toNat + root.intercept⌋₊)

/-! ### What the root model predicts -/

/-- A sorted sample with two different keys. -/
structure Sorted (training_sample : List Tuple) (first last : Tuple) : Prop where
  sorted : training_sample.Pairwise fun t t' => t.key.toNat ≤ t'.key.toNat
  ne : first.key ≠ last.key
  head_eq : training_sample.head? = some first
  last_eq : training_sample.getLast? = some last

variable {arch1 : BitVec 32} {training_sample : List Tuple} {first last : Tuple}

/-- The root model through the keys of `first` and `last`. -/
def rootModel (arch1 : BitVec 32) (first last : Tuple) : LinearModel where
  slope := 1 / (last.key - first.key).toNat * (arch1 - 1).toNat
  intercept := -(1 / (last.key - first.key).toNat) * first.key.toNat * (arch1 - 1).toNat

theorem map_x_trainingData (training_sample : List Tuple) :
    (trainingData training_sample).map TrainingPoint.x = training_sample := by
  rw [trainingData, List.map_map]
  exact List.zipIdx_map_fst 0 _

theorem trainRoot_eq (h : Sorted training_sample first last) :
    trainRoot arch1 training_sample = some (rootModel arch1 first last) := by
  have hmap := map_x_trainingData training_sample
  obtain ⟨min, hmin, hminx⟩ : ∃ min, (trainingData training_sample).head? = some min ∧ min.x = first := by
    have hhead := h.head_eq
    rw [← hmap, List.head?_map, Option.map_eq_some_iff] at hhead
    exact hhead
  obtain ⟨max, hmax, hmaxx⟩ : ∃ max, (trainingData training_sample).getLast? = some max ∧ max.x = last := by
    have hlast := h.last_eq
    rw [← hmap, List.getLast?_map, Option.map_eq_some_iff] at hlast
    exact hlast
  subst hminx hmaxx
  simp only [trainRoot, h.head_eq, h.last_eq, hmin, hmax, Option.bind_eq_bind, Option.bind_some, if_neg h.ne]
  rfl

theorem key_head_le (hsorted : training_sample.Pairwise fun t t' => t.key.toNat ≤ t'.key.toNat)
    (hhead : training_sample.head? = some first) {t : Tuple} (ht : t ∈ training_sample) :
    first.key.toNat ≤ t.key.toNat := by
  obtain ⟨rest, rfl⟩ := List.head?_eq_some_iff.mp hhead
  rcases List.mem_cons.mp ht with rfl | ht
  · exact le_rfl
  · exact (List.pairwise_cons.mp hsorted).1 t ht

theorem key_le_getLast (hsorted : training_sample.Pairwise fun t t' => t.key.toNat ≤ t'.key.toNat)
    (hlast : training_sample.getLast? = some last) {t : Tuple} (ht : t ∈ training_sample) :
    t.key.toNat ≤ last.key.toNat := by
  obtain ⟨before, rfl⟩ := List.getLast?_eq_some_iff.mp hlast
  rcases List.mem_append.mp ht with ht | ht
  · exact (List.pairwise_append.mp hsorted).2.2 t ht last (List.mem_singleton_self last)
  · rw [List.mem_singleton.mp ht]

theorem Sorted.first_le (h : Sorted training_sample first last) {t : Tuple} (ht : t ∈ training_sample) :
    first.key.toNat ≤ t.key.toNat := key_head_le h.sorted h.head_eq ht

theorem Sorted.le_last (h : Sorted training_sample first last) {t : Tuple} (ht : t ∈ training_sample) :
    t.key.toNat ≤ last.key.toNat := key_le_getLast h.sorted h.last_eq ht

theorem Sorted.lt (h : Sorted training_sample first last) : first.key.toNat < last.key.toNat :=
  lt_of_le_of_ne (h.first_le (List.mem_of_getLast? h.last_eq)) (BitVec.toNat_ne_iff_ne.mpr h.ne)

theorem toNat_sub_one (hM : 1 ≤ arch1.toNat) : (arch1 - 1).toNat = arch1.toNat - 1 :=
  BitVec.toNat_sub_of_le (BitVec.le_def.mpr hM)

/-- The prediction of the root model, as a quotient of numbers. -/
theorem rootModel_apply (hM : 1 ≤ arch1.toNat) (hlt : first.key.toNat < last.key.toNat) {key : BitVec 32}
    (hkey : first.key.toNat ≤ key.toNat) :
    (rootModel arch1 first last).slope * key.toNat + (rootModel arch1 first last).intercept =
      (((arch1.toNat - 1) * (key.toNat - first.key.toNat) : ℕ) : ℚ) /
        ((last.key.toNat - first.key.toNat : ℕ) : ℚ) := by
  have hsub : (last.key - first.key).toNat = last.key.toNat - first.key.toNat :=
    BitVec.toNat_sub_of_le (BitVec.le_def.mpr hlt.le)
  rw [rootModel, hsub, toNat_sub_one hM, Nat.cast_mul, Nat.cast_sub hkey]
  ring

/-- The predictions are in range. -/
theorem rootModel_le (hM : 1 ≤ arch1.toNat) (hlt : first.key.toNat < last.key.toNat) {key : BitVec 32}
    (hfirst : first.key.toNat ≤ key.toNat) (hlast : key.toNat ≤ last.key.toNat) :
    (rootModel arch1 first last).slope * key.toNat + (rootModel arch1 first last).intercept ≤
      ((arch1.toNat - 1 : ℕ) : ℚ) := by
  rw [rootModel_apply hM hlt hfirst, div_le_iff₀ (by exact_mod_cast Nat.sub_pos_of_lt hlt)]
  exact_mod_cast Nat.mul_le_mul_left _ (Nat.sub_le_sub_right hlast _)

theorem rank_rootModel (hM : 1 ≤ arch1.toNat) (hlt : first.key.toNat < last.key.toNat) {key : BitVec 32}
    (hfirst : first.key.toNat ≤ key.toNat) (hlast : key.toNat ≤ last.key.toNat) :
    rank arch1 (rootModel arch1 first last) key =
      (arch1.toNat - 1) * (key.toNat - first.key.toNat) / (last.key.toNat - first.key.toNat) := by
  have hle := Nat.floor_le_of_le (rootModel_le hM hlt hfirst hlast)
  rw [rank, toNat_sub_one hM, min_eq_right hle, max_eq_right (Nat.zero_le _), rootModel_apply hM hlt hfirst,
    Nat.floor_div_natCast, Nat.floor_natCast]

theorem rank_eq_leafIdx_iff (hM : 1 ≤ arch1.toNat) (hlt : first.key.toNat < last.key.toNat) {key : BitVec 32}
    (hfirst : first.key.toNat ≤ key.toNat) (hlast : key.toNat ≤ last.key.toNat) :
    rank arch1 (rootModel arch1 first last) key = leafIdx (rootModel arch1 first last) arch1 key ↔
      2 * ((arch1.toNat - 1) * (key.toNat - first.key.toNat) % (last.key.toNat - first.key.toNat)) <
        last.key.toNat - first.key.toNat := by
  have hle := rootModel_le hM hlt hfirst hlast
  rw [rank_rootModel hM hlt hfirst hlast, leafIdx]
  rw [rootModel_apply hM hlt hfirst] at hle ⊢
  generalize (arch1.toNat - 1) * (key.toNat - first.key.toNat) = a at hle ⊢
  have hd : 0 < last.key.toNat - first.key.toNat := Nat.sub_pos_of_lt hlt
  generalize last.key.toNat - first.key.toNat = d at hle hd ⊢
  have hd' : (0 : ℚ) < d := by exact_mod_cast hd
  have hfloor : ((a / d : ℕ) : ℤ) = ⌊(a : ℚ) / d⌋ := by
    rw [← Nat.floor_div_eq_div (K := ℚ), Int.natCast_floor_eq_floor (by positivity)]
  rw [← Int.natCast_inj, roundInto_of_mem hM (by positivity) (by rwa [sub_one_cast hM]), hfloor,
    floor_eq_roundAway_iff (by positivity), Int.fract_div_natCast_eq_div_natCast_mod, div_lt_div_iff₀ hd' (by norm_num)]
  constructor
  · intro h
    have hnat : ((a % d * 2 : ℕ) : ℚ) < ((1 * d : ℕ) : ℚ) := by exact_mod_cast h
    have := Nat.cast_lt.mp hnat
    omega
  · intro h
    have hnat : a % d * 2 < 1 * d := by omega
    exact_mod_cast hnat

/-- **When a key is looked up in the leaf model it was given to**: for a sorted sample with two different keys, exactly
when the prediction of the root model for it has a fraction below a half. -/
theorem leaf_agrees_iff (arch1 : BitVec 32) (hM : 1 ≤ arch1.toNat) (h : Sorted training_sample first last) :
    ∃ root, trainRoot arch1 training_sample = some root ∧ ∀ t ∈ training_sample,
      (rank arch1 root t.key = leafIdx root arch1 t.key ↔
        2 * ((arch1.toNat - 1) * (t.key.toNat - first.key.toNat) % (last.key.toNat - first.key.toNat)) <
          last.key.toNat - first.key.toNat) :=
  ⟨_, trainRoot_eq h, fun _ ht => rank_eq_leafIdx_iff hM h.lt (h.first_le ht) (h.le_last ht)⟩

/-- The keys `0`, `1` and `2`. -/
def threeKeys : List Tuple := [Tuple.mk 0 0, Tuple.mk 1 0, Tuple.mk 2 0]

theorem sorted_threeKeys : Sorted threeKeys (Tuple.mk 0 0) (Tuple.mk 2 0) where
  sorted := by decide
  ne := by decide
  head_eq := rfl
  last_eq := rfl

/-- With two leaf models key `1` is given to the first one and looked up in the second. -/
theorem leaf_disagrees : ∃ root, trainRoot 2 threeKeys = some root ∧ Tuple.mk 1 0 ∈ threeKeys ∧
    rank 2 root 1 ≠ leafIdx root 2 1 := by
  refine ⟨_, trainRoot_eq sorted_threeKeys, by decide, fun hagree => ?_⟩
  rw [rank_eq_leafIdx_iff (by decide) (by decide) (by decide) (by decide)] at hagree
  exact absurd hagree (by decide)

/-- With three leaf models it is looked up where it was trained. -/
theorem leaf_agrees_three : ∃ root, trainRoot 3 threeKeys = some root ∧ rank 3 root 1 = leafIdx root 3 1 := by
  obtain ⟨root, hroot, hiff⟩ := leaf_agrees_iff 3 (by decide) sorted_threeKeys
  exact ⟨root, hroot, (hiff (Tuple.mk 1 0) (by decide)).mpr (by decide)⟩

end HashingArchive.Join.Learned
