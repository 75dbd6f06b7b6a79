import HashingArchive.LearnedModels.RmiBuckets

/-!
# Construction and use of `RMIHash`

On a sorted sample the second level models of the sample points are monotone in their order, so the construction makes
the training buckets of `Trained` (`training_eq`). The hash of a key is its place on the line of its bucket
(`construct_eq`), which keeps the order of the sample (`rmi_hash_safe`).
-/

namespace HashingArchive.LearnedModels.Rmi

open HashingArchive.Library

/-! ### The construction -/

/-- The `j`-th key of the sample. -/
def key (sample : List ℕ) (j : ℕ) : ℕ := sample.getD j 0

/-- The root model: from the smallest key to the largest. -/
def root (sample : List ℕ) : LinearImpl :=
  lineModel { x := key sample 0, y := 0 } { x := key sample (sample.length - 1), y := 1 }

/-- The second level model the root model picks for a key. -/
def bucketOf (M : ℕ) (sample : List ℕ) (x : ℕ) : ℕ := (root sample).apply x (M - 1)

/-- The second level model of the `j`-th sample point. -/
def bucketOfPoint (M : ℕ) (sample : List ℕ) (j : ℕ) : ℕ := bucketOf M sample (key sample j)

section
variable {M : ℕ} {sample : List ℕ}

theorem key_of_lt {j : ℕ} (hj : j < sample.length) : key sample j = sample[j] := List.getD_eq_getElem _ _ hj

theorem exists_key_of_mem {x : ℕ} (hx : x ∈ sample) : ∃ j < sample.length, key sample j = x := by
  obtain ⟨j, hj, rfl⟩ := List.getElem_of_mem hx
  exact ⟨j, hj, key_of_lt hj⟩

theorem zipIdx_eq : sample.zipIdx = (List.range sample.length).map fun j => (key sample j, j) := by
  apply List.ext_getElem (by simp)
  intro j hj _
  have hlt : j < sample.length := by simpa using hj
  simp [key_of_lt hlt]

theorem bucketOf_lt (hM : 0 < M) (x : ℕ) : bucketOf M sample x < M := by
  have hle := scale_le (M - 1) (line { x := key sample 0, y := 0 } { x := key sample (sample.length - 1), y := 1 } x)
  rw [bucketOf, root, lineModel_apply]
  omega

/-- The second level model of a key, for a sample from `0` to `L`. -/
theorem bucketOf_of_zero {L : ℕ} (hM : 0 < M) (hL : 0 < L) (hfirst : key sample 0 = 0)
    (hlast : key sample (sample.length - 1) = L) (x : ℕ) : bucketOf M sample x = min (M - 1) (M * x / L) := by
  have hM' : ((M - 1 : ℕ) : ℚ) + 1 = M := by
    rw [Nat.cast_sub hM]
    simp
  rw [bucketOf, root, lineModel_apply, hfirst, hlast, scale, hM', line, computeSlope, if_neg hL.ne]
  congr 1
  rw [← Nat.floor_div_eq_div (K := ℚ)]
  congr 1
  push_cast
  ring

variable (hsorted : sample.Pairwise (· ≤ ·))
include hsorted

theorem key_mono {i j : ℕ} (hij : i ≤ j) (hj : j < sample.length) : key sample i ≤ key sample j := by
  rw [key_of_lt (by omega), key_of_lt hj]
  rcases hij.lt_or_eq with hlt | rfl
  · exact List.pairwise_iff_getElem.mp hsorted i j _ hj hlt
  · exact le_rfl

variable (hne : sample ≠ [])
include hne

theorem bucketOf_mono {x y : ℕ} (h : x ≤ y) : bucketOf M sample x ≤ bucketOf M sample y := by
  have hlast : key sample 0 ≤ key sample (sample.length - 1) :=
    key_mono hsorted (Nat.zero_le _) (Nat.sub_lt (List.length_pos_iff.mpr hne) one_pos)
  rw [bucketOf, bucketOf, root, lineModel_apply, lineModel_apply]
  exact scale_mono _ (line_mono hlast zero_le_one h)

theorem bucketOfPoint_mono (i j : ℕ) (hij : i ≤ j) (hj : j < sample.length) :
    bucketOfPoint M sample i ≤ bucketOfPoint M sample j :=
  bucketOf_mono hsorted hne (key_mono hsorted hij hj)

omit hsorted hne in
theorem bucketOfPoint_zero : bucketOfPoint M sample 0 = 0 := by
  rw [bucketOfPoint, bucketOf, root, lineModel_apply]
  exact scale_of_nonpos (by simp [line])

/-- The first bucket has a sample point. -/
theorem below_one_pos : 0 < below (bucketOfPoint M sample) sample.length 1 := by
  rw [lt_below_iff (bucketOfPoint_mono hsorted hne) (List.length_pos_iff.mpr hne), bucketOfPoint_zero]
  exact one_pos

/-- The construction succeeds, and makes the training buckets and models `Trained` says. -/
theorem training_eq (hM : 0 < M) (hlength : sample.length < 2 ^ 31) :
    ∃ s, training M sample = .ok (root sample, s) ∧
      Trained (key sample) (bucketOfPoint M sample) sample.length M s := by
  have hpos : 0 < sample.length := List.length_pos_iff.mpr hne
  have hfirst : sample.head? = some (key sample 0) := by
    rw [key_of_lt hpos, List.head?_eq_getElem?, List.getElem?_eq_getElem hpos]
  have hlast : sample.getLast? = some (key sample (sample.length - 1)) := by
    rw [key_of_lt (by omega), List.getLast?_eq_getElem?, List.getElem?_eq_getElem (by omega)]
  have hr := bucketOfPoint_mono (M := M) hsorted hne
  have hroot : LinearImpl.train [{ x := key sample 0, y := 0 }, { x := key sample (sample.length - 1), y := 1 }] =
      .ok (root sample) := train_eq rfl rfl
  have hfill : sample.zipIdx.foldlM (fillStep M sample.length (root sample)) (fun _ => []) =
      .ok (bucketAt (key sample) (bucketOfPoint M sample) sample.length sample.length) := by
    rw [zipIdx_eq, List.foldlM_map]
    exact foldlM_fillStep (fun _ => rfl) (fun j => bucketOf_lt hM (key sample j)) hr hlength le_rfl
  obtain ⟨s, hs, htrained⟩ := foldlM_trainStep hr (below_one_pos hsorted hne)
    (trained_zero fun _ => { slope := 0, intercept := 0 }) M
  refine ⟨s, ?_, htrained⟩
  simp only [training, hfirst, hlast, hroot, hfill, if_neg hM.ne', hs, bind, Except.bind, pure, Except.pure]

/-- The value the second level model of `x` gives, before it is scaled. -/
def predict (M : ℕ) (sample : List ℕ) (x : ℕ) : ℚ :=
  line (front (key sample) (bucketOfPoint M sample) sample.length (bucketOf M sample x))
    (knot (key sample) (bucketOfPoint M sample) sample.length (bucketOf M sample x)) x

theorem construct_eq (hM : 0 < M) (hlength : sample.length < 2 ^ 31) (full_size : ℕ) :
    ∃ rmi, RMIHash.construct M sample full_size = .ok rmi ∧
      ∀ x, rmi.apply x = .ok (scale full_size (predict M sample x)) := by
  obtain ⟨s, hs, htrained⟩ := training_eq hsorted hne hM hlength
  refine ⟨{ root_model := root sample, second_level_models := s.2, full_size := full_size }, ?_, fun x => ?_⟩
  · rw [RMIHash.construct, hs]
    rfl
  · have hlt : bucketOf M sample x < M := bucketOf_lt hM x
    rw [RMIHash.apply]
    dsimp only
    rw [← bucketOf, if_neg (not_le.mpr hlt), htrained.model _ hlt, lineModel_apply, predict]

end

/-- **The construction is safe, the hash stays in its range and keeps the order of the sample.** -/
theorem rmi_hash_safe (M : ℕ) (hM : 1 ≤ M) (sample : List ℕ) (hne : sample ≠ []) (hsorted : sample.Pairwise (· ≤ ·))
    (hlength : sample.length < 2 ^ 31) (full_size : ℕ) :
    (∃ root_model training_buckets models, training M sample = .ok (root_model, training_buckets, models) ∧
      ∀ b < M, 2 ≤ (training_buckets b).length ∧ (0 < b → training_buckets (b - 1) ≠ [])) ∧
    ∃ rmi, RMIHash.construct M sample full_size = .ok rmi ∧
      (∀ x, ∃ h ≤ full_size, rmi.apply x = .ok h) ∧
      ∀ x ∈ sample, ∀ y ∈ sample, x ≤ y → ∃ hx hy, rmi.apply x = .ok hx ∧ rmi.apply y = .ok hy ∧ hx ≤ hy := by
  obtain ⟨s, hs, htrained⟩ := training_eq hsorted hne hM hlength
  obtain ⟨rmi, hrmi, happly⟩ := construct_eq hsorted hne hM hlength full_size
  refine ⟨⟨root sample, s.1, s.2, hs, fun b hb => ⟨?_, fun hpos => ?_⟩⟩, rmi, hrmi, fun x => ?_, ?_⟩
  · rw [htrained.bucket b hb]
    exact length_trainedBucket b
  · rw [htrained.bucket (b - 1) (by omega)]
    apply List.ne_nil_of_length_pos
    have hlength := length_trainedBucket (k := key sample) (r := bucketOfPoint M sample) (n := sample.length) (b - 1)
    omega
  · exact ⟨_, scale_le _ _, happly x⟩
  · intro x hx y hy hxy
    refine ⟨_, _, happly x, happly y, scale_mono _ ?_⟩
    obtain ⟨i, hi, rfl⟩ := exists_key_of_mem hx
    obtain ⟨j, hj, rfl⟩ := exists_key_of_mem hy
    have hk := fun i j (hij : i ≤ j) hj => key_mono hsorted hij hj
    have hr := bucketOfPoint_mono (M := M) hsorted hne
    have hone := below_one_pos (M := M) hsorted hne
    rcases le_total i j with hij | hji
    · exact line_le_line hr hk hone hij hj
    · -- then the keys are equal
      rw [le_antisymm hxy (hk j i hji hi)]

/-- Three keys, two second level models and places up to 9. -/
theorem rmi_hash_safe_three_keys :
    ∃ rmi, RMIHash.construct 2 [0, 1, 10] 9 = .ok rmi ∧ (∀ x, ∃ h ≤ 9, rmi.apply x = .ok h) := by
  obtain ⟨-, rmi, hrmi, hrange, -⟩ := rmi_hash_safe 2 (by norm_num) [0, 1, 10] (by simp) (by simp) (by simp) 9
  exact ⟨rmi, hrmi, hrange⟩

end HashingArchive.LearnedModels.Rmi
