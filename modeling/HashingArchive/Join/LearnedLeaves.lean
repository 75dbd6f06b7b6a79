import HashingArchive.Join.LearnedTraining
import HashingArchive.Library.Loop

/-!
# The learned join: the leaf models

A leaf model is trained through the last point of the leaf before it and its own last point, and a leaf without points
takes over the last point of the leaf before it. The difference of the two keys is one of `uint32_t`, and it is taken the
wrong way round: the slope of every leaf but the first has the wrong sign and size. So the last leaf, which always has
the largest key, misses its last point (`leaves_never_interpolate`).
-/

namespace HashingArchive.Join.Learned

open HashingArchive.Library HashingArchive.Loop

/-! ### The code -/

/-- `training_data[1]`, a vector of points for every leaf model. -/
abbrev Leaves := ℕ → List TrainingPoint

/-- Every point goes to the vector of its rank. -/
def assignLeaves (arch1 : BitVec 32) (root : LinearModel) (current_training_data : List TrainingPoint) : Leaves :=
  current_training_data.foldl (fun training_data d =>
    let rank := rank arch1 root d.x.key
    Function.update training_data rank (training_data rank ++ [d])) fun _ => []

/-- The training data of the leaf models and `models[1]`, none for a model that is not trained or has no finite
slope. -/
structure Training where
  training_data : Leaves
  models : ℕ → Option LinearModel

/-- The points and the model of one leaf. -/
def Training.set (s : Training) (model_idx : ℕ) (points : List TrainingPoint) (model : Option LinearModel) :
    Training where
  training_data := Function.update s.training_data model_idx points
  models := Function.update s.models model_idx model

section
variable (s : Training) (model_idx : ℕ) (points : List TrainingPoint) (model : Option LinearModel)

@[simp] theorem Training.training_data_set_self : (s.set model_idx points model).training_data model_idx = points :=
  Function.update_self _ _ _

@[simp] theorem Training.models_set_self : (s.set model_idx points model).models model_idx = model :=
  Function.update_self _ _ _

variable {model_idx} in
theorem Training.training_data_set_of_ne {i : ℕ} (hi : i ≠ model_idx) :
    (s.set model_idx points model).training_data i = s.training_data i :=
  Function.update_of_ne hi _ _

end

/-- The line through `min` with the slope `rise / run`, none for a division by zero. -/
def lineModel (min : TrainingPoint) (rise : ℚ) (run : BitVec 32) : Option LinearModel :=
  if run = 0 then none
  else
    let slope := rise / run.toNat
    some { slope := slope, intercept := min.y - slope * min.x.key.toNat }

/-- One round of the loop over the leaf models, none for `back()` of an empty vector. -/
def trainLeaf (arch1 : BitVec 32) (s : Training) (model_idx : ℕ) : Option Training :=
  let current_training_data := s.training_data model_idx
  if model_idx = 0 then
    if current_training_data.length < 2 then -- case 1
      let tp : TrainingPoint := { x := Tuple.mk 0 0, y := 0 }
      some (s.set model_idx (current_training_data ++ [tp]) (some { slope := 0, intercept := 0 }))
    else do -- case 2
      let min ← current_training_data.head?
      let max ← current_training_data.getLast?
      return s.set model_idx current_training_data (lineModel min max.y (max.x.key - min.x.key))
  else if model_idx = (arch1 - 1).toNat then
    if current_training_data.isEmpty then -- case 3
      some (s.set model_idx current_training_data (some { slope := 0, intercept := 1 }))
    else do -- case 4
      let min ← (s.training_data (model_idx - 1)).getLast?
      let max ← current_training_data.getLast?
      return s.set model_idx current_training_data (lineModel min (min.y - 1) (min.x.key - max.x.key))
  else
    if current_training_data.isEmpty then do -- case 5
      let tp ← (s.training_data (model_idx - 1)).getLast?
      return s.set model_idx (current_training_data ++ [tp]) (some { slope := 0, intercept := tp.y })
    else do -- case 6
      let min ← (s.training_data (model_idx - 1)).getLast?
      let max ← current_training_data.getLast?
      return s.set model_idx current_training_data (lineModel min (min.y - max.y) (min.x.key - max.x.key))

/-- The training of thread 0: the root model, and the leaf models with their training data. -/
def trainModels (arch1 : BitVec 32) (training_sample : List Tuple) : Option (LinearModel × Training) := do
  let root ← trainRoot arch1 training_sample
  let leaves := assignLeaves arch1 root (trainingData training_sample)
  let s ← (List.range arch1.toNat).foldlM (trainLeaf arch1) { training_data := leaves, models := fun _ => none }
  return (root, s)

/-! ### Interpolation -/

def LinearModel.predict (model : LinearModel) (key : BitVec 32) : ℚ := model.slope * key.toNat + model.intercept

/-- The model is there and has the value `y` at `key`. -/
def Meets (model : Option LinearModel) (key : BitVec 32) (y : ℚ) : Prop := ∃ m, model = some m ∧ m.predict key = y

/-- The leaf models interpolate their training data: a middle leaf with sample points through the last training point of
the leaf before it and its own, the last leaf likewise with the value one at its last key; and the predictions for the
sample keys, each in its leaf, are in the order of the keys. -/
structure Interpolates (arch1 : BitVec 32) (training_sample : List Tuple) (root : LinearModel) (s : Training) :
    Prop where
  middle : ∀ i, 1 ≤ i → i + 1 < arch1.toNat → ∀ before own, (s.training_data (i - 1)).getLast? = some before →
    (assignLeaves arch1 root (trainingData training_sample) i).getLast? = some own →
    Meets (s.models i) before.x.key before.y ∧ Meets (s.models i) own.x.key own.y
  last : ∀ before own, (s.training_data (arch1.toNat - 2)).getLast? = some before →
    (assignLeaves arch1 root (trainingData training_sample) (arch1.toNat - 1)).getLast? = some own →
    Meets (s.models (arch1.toNat - 1)) before.x.key before.y ∧ Meets (s.models (arch1.toNat - 1)) own.x.key 1
  mono : ∀ t ∈ training_sample, ∀ t' ∈ training_sample, t.key.toNat ≤ t'.key.toNat →
    ∃ m m', s.models (rank arch1 root t.key) = some m ∧ s.models (rank arch1 root t'.key) = some m' ∧
      m.predict t.key ≤ m'.predict t'.key

/-! ### The points of a leaf -/

theorem assignLeaves_eq (arch1 : BitVec 32) (root : LinearModel) (data : List TrainingPoint) (i : ℕ) :
    assignLeaves arch1 root data i = data.filter fun d => rank arch1 root d.x.key = i := by
  induction data using List.reverseRecOn with
  | nil => rfl
  | append_singleton data d ih =>
    rw [assignLeaves, List.foldl_append, List.filter_append, ← ih]
    rw [List.foldl_cons, List.foldl_nil, ← assignLeaves]
    by_cases hi : rank arch1 root d.x.key = i
    · subst hi
      simp
    · rw [Function.update_of_ne (Ne.symm hi)]
      simp [hi]

theorem mem_trainingData {training_sample : List Tuple} {d : TrainingPoint} (hd : d ∈ trainingData training_sample) :
    d.x ∈ training_sample ∧ d.y < 1 := by
  rw [trainingData, List.mem_map] at hd
  obtain ⟨⟨t, j⟩, hmem, rfl⟩ := hd
  rw [List.mem_zipIdx_iff_getElem?] at hmem
  dsimp only at hmem ⊢
  obtain ⟨hj, rfl⟩ := List.getElem?_eq_some_iff.mp hmem
  refine ⟨List.getElem_mem hj, ?_⟩
  rw [div_lt_one (by exact_mod_cast Nat.zero_lt_of_lt hj)]
  exact_mod_cast hj

variable {arch1 : BitVec 32} {training_sample : List Tuple} {first last : Tuple}

/-- The points of the leaves but the last one are below the last key and below one. -/
theorem of_mem_leaf (hM : 1 ≤ arch1.toNat) (h : Sorted training_sample first last) {i : ℕ} (hi : i + 1 < arch1.toNat)
    {d : TrainingPoint}
    (hd : d ∈ assignLeaves arch1 (rootModel arch1 first last) (trainingData training_sample) i) :
    d.x.key.toNat < last.key.toNat ∧ d.y < 1 := by
  rw [assignLeaves_eq, List.mem_filter, decide_eq_true_eq] at hd
  obtain ⟨hmem, hrank⟩ := hd
  obtain ⟨hsample, hy⟩ := mem_trainingData hmem
  refine ⟨lt_of_le_of_ne (h.le_last hsample) fun heq => ?_, hy⟩
  rw [rank_rootModel hM h.lt (h.first_le hsample) (h.le_last hsample), heq,
    Nat.mul_div_cancel _ (Nat.sub_pos_of_lt h.lt)] at hrank
  omega

/-- The last leaf has the largest key, as its last point. -/
theorem getLast?_last_leaf (hM : 1 ≤ arch1.toNat) (h : Sorted training_sample first last) :
    ∃ own, (assignLeaves arch1 (rootModel arch1 first last) (trainingData training_sample)
      (arch1.toNat - 1)).getLast? = some own ∧ own.x = last := by
  have hlast := h.last_eq
  rw [← map_x_trainingData training_sample, List.getLast?_map, Option.map_eq_some_iff] at hlast
  obtain ⟨own, hown, rfl⟩ := hlast
  refine ⟨own, ?_, rfl⟩
  obtain ⟨before, hbefore⟩ := List.getLast?_eq_some_iff.mp hown
  have hrank : rank arch1 (rootModel arch1 first own.x) own.x.key = arch1.toNat - 1 := by
    rw [rank_rootModel hM h.lt h.lt.le le_rfl, Nat.mul_div_cancel _ (Nat.sub_pos_of_lt h.lt)]
  rw [assignLeaves_eq, hbefore, List.filter_append, List.filter_cons_of_pos (by simp [hrank]), List.filter_nil]
  exact List.getLast?_concat

/-! ### The loop over the leaf models -/

/-- What the loop keeps up to the last leaf: the first `k` leaves have points, the others are as they were assigned, and
the points of all leaves but the last are below the last key and below one. -/
structure Trained (arch1 : BitVec 32) (leaves : Leaves) (last : Tuple) (k : ℕ) (s : Training) : Prop where
  points : ∀ i < k, s.training_data i ≠ []
  rest : ∀ i, k ≤ i → s.training_data i = leaves i
  below : ∀ i, i + 1 < arch1.toNat → ∀ d ∈ s.training_data i, d.x.key.toNat < last.key.toNat ∧ d.y < 1

section
variable {leaves : Leaves} {k : ℕ} {s : Training} (hs : Trained arch1 leaves last k s)
include hs

theorem Trained.set {points : List TrainingPoint} (hne : points ≠ [])
    (hbelow : ∀ d ∈ points, d.x.key.toNat < last.key.toNat ∧ d.y < 1) (model : Option LinearModel) :
    Trained arch1 leaves last (k + 1) (s.set k points model) := by
  refine ⟨fun i hi => ?_, fun i hi => ?_, fun i hi d hd => ?_⟩
  · rcases Nat.lt_succ_iff_lt_or_eq.mp hi with hi | rfl
    · rw [s.training_data_set_of_ne points model hi.ne]
      exact hs.points i hi
    · rwa [Training.training_data_set_self]
  · rw [s.training_data_set_of_ne points model (by omega)]
    exact hs.rest i (by omega)
  · by_cases hik : i = k
    · subst hik
      rw [Training.training_data_set_self] at hd
      exact hbelow d hd
    · rw [s.training_data_set_of_ne points model hik] at hd
      exact hs.below i hi d hd

/-- The last point of the leaf before. -/
theorem Trained.exists_before (hk : 0 < k) (hkM : k < arch1.toNat) : ∃ before,
    (s.training_data (k - 1)).getLast? = some before ∧ before.x.key.toNat < last.key.toNat ∧ before.y < 1 := by
  obtain ⟨before, hbefore⟩ := Option.isSome_iff_exists.mp
    (List.getLast?_isSome.mpr (hs.points (k - 1) (Nat.sub_lt hk Nat.one_pos)))
  exact ⟨before, hbefore, hs.below (k - 1) (by omega) before (List.mem_of_getLast? hbefore)⟩

/-- The step lemma: a leaf before the last one is trained, whatever the case. -/
theorem Trained.step (hlast : 0 < last.key.toNat) (hk : k + 1 < arch1.toNat) :
    ∃ s', trainLeaf arch1 s k = some s' ∧ Trained arch1 leaves last (k + 1) s' := by
  have hbelow := hs.below k hk
  have hmid : k ≠ (arch1 - 1).toNat := by rw [toNat_sub_one (by omega)]; omega
  unfold trainLeaf
  dsimp only
  by_cases hzero : k = 0
  · rw [if_pos hzero]
    by_cases hshort : (s.training_data k).length < 2
    · rw [if_pos hshort]
      refine ⟨_, rfl, hs.set (by simp) (fun d hd => ?_) _⟩
      rcases List.mem_append.mp hd with hd | hd
      · exact hbelow d hd
      · rw [List.mem_singleton.mp hd, Tuple.key_mk]
        exact ⟨hlast, one_pos⟩
    · rw [if_neg hshort]
      have hne : s.training_data k ≠ [] := by
        intro hnil
        rw [hnil] at hshort
        exact hshort (by norm_num)
      obtain ⟨min, hmin⟩ := Option.isSome_iff_exists.mp (List.isSome_head?.mpr hne)
      obtain ⟨max, hmax⟩ := Option.isSome_iff_exists.mp (List.getLast?_isSome.mpr hne)
      rw [hmin, hmax]
      exact ⟨_, rfl, hs.set hne hbelow _⟩
  · rw [if_neg hzero, if_neg hmid]
    obtain ⟨before, hbefore, hkey, hy⟩ := hs.exists_before (Nat.pos_of_ne_zero hzero) (by omega)
    by_cases hempty : (s.training_data k).isEmpty
    · rw [if_pos hempty, hbefore]
      refine ⟨_, rfl, hs.set (by simp) (fun d hd => ?_) _⟩
      rcases List.mem_append.mp hd with hd | hd
      · exact hbelow d hd
      · rw [List.mem_singleton.mp hd]
        exact ⟨hkey, hy⟩
    · have hne : s.training_data k ≠ [] := mt List.isEmpty_iff.mpr hempty
      obtain ⟨max, hmax⟩ := Option.isSome_iff_exists.mp (List.getLast?_isSome.mpr hne)
      rw [if_neg hempty, hbefore, hmax]
      exact ⟨_, rfl, hs.set hne hbelow _⟩

end

/-- A line with a slope of the wrong sign does not reach one. -/
theorem not_meets_one {before : TrainingPoint} {key : BitVec 32} (hkey : before.x.key.toNat < key.toNat)
    (hy : before.y < 1) : ¬Meets (lineModel before (before.y - 1) (before.x.key - key)) key 1 := by
  rintro ⟨m, hm, hpredict⟩
  unfold lineModel at hm
  split_ifs at hm with hrun
  obtain rfl := Option.some.inj hm
  have hpos : (0 : ℚ) < (before.x.key - key).toNat := by
    have hne : (before.x.key - key).toNat ≠ 0 := fun hzero => hrun (BitVec.eq_of_toNat_eq hzero)
    exact_mod_cast Nat.pos_of_ne_zero hne
  have hslope : (before.y - 1) / (before.x.key - key).toNat < 0 := div_neg_of_neg_of_pos (by linarith) hpos
  have hrise : (before.y - 1) / (before.x.key - key).toNat * ((key.toNat : ℚ) - before.x.key.toNat) < 0 :=
    mul_neg_of_neg_of_pos hslope (sub_pos.mpr (by exact_mod_cast hkey))
  rw [LinearModel.predict] at hpredict
  linarith

/-- The last leaf is trained from the last point of the leaf before it to its own. -/
theorem trainLeaf_last (hM : 3 ≤ arch1.toNat) {s : Training} {before own : TrainingPoint}
    (hbefore : (s.training_data (arch1.toNat - 2)).getLast? = some before)
    (hown : (s.training_data (arch1.toNat - 1)).getLast? = some own) :
    trainLeaf arch1 s (arch1.toNat - 1) = some (s.set (arch1.toNat - 1) (s.training_data (arch1.toNat - 1))
      (lineModel before (before.y - 1) (before.x.key - own.x.key))) := by
  have hne : ¬(s.training_data (arch1.toNat - 1)).isEmpty := by
    intro hempty
    rw [List.isEmpty_iff.mp hempty] at hown
    exact absurd hown (by simp)
  unfold trainLeaf
  dsimp only
  rw [if_neg (by omega), if_pos (toNat_sub_one (by omega)).symm, if_neg hne,
    show arch1.toNat - 1 - 1 = arch1.toNat - 2 by omega, hbefore, hown]
  rfl

/-- The last leaf has the line from a point before the last key, with the difference of the keys the wrong way round. -/
def LastLeaf (arch1 : BitVec 32) (last : Tuple) (s : Training) : Prop :=
  ∃ before, (s.training_data (arch1.toNat - 2)).getLast? = some before ∧
    before.x.key.toNat < last.key.toNat ∧ before.y < 1 ∧
    s.models (arch1.toNat - 1) = lineModel before (before.y - 1) (before.x.key - last.key)

/-- Training goes through all leaves. -/
theorem trainModels_eq (hM : 3 ≤ arch1.toNat) (h : Sorted training_sample first last) : ∃ s,
    trainModels arch1 training_sample = some (rootModel arch1 first last, s) ∧ LastLeaf arch1 last s := by
  have hM1 : 1 ≤ arch1.toNat := by omega
  obtain ⟨own, hown, hownx⟩ := getLast?_last_leaf hM1 h
  let leaves := assignLeaves arch1 (rootModel arch1 first last) (trainingData training_sample)
  have hstart : Trained arch1 leaves last 0 { training_data := leaves, models := fun _ => none } :=
    ⟨fun i hi => absurd hi (Nat.not_lt_zero i), fun _ _ => rfl, fun _ hi _ hd => of_mem_leaf hM1 h hi hd⟩
  obtain ⟨s, hs, htrained⟩ := foldlM_range_of_invariant hstart (arch1.toNat - 1) fun k s hk htrained =>
    htrained.step (Nat.zero_lt_of_lt h.lt) (by omega)
  obtain ⟨before, hbefore, hkey, hy⟩ := htrained.exists_before (by omega) (by omega)
  have hlastLeaf : s.training_data (arch1.toNat - 1) = leaves (arch1.toNat - 1) := htrained.rest _ le_rfl
  have hstep := trainLeaf_last hM (s := s) hbefore (by rw [hlastLeaf]; exact hown)
  have hrange : List.range arch1.toNat = List.range (arch1.toNat - 1) ++ [arch1.toNat - 1] := by
    rw [← List.range_succ]
    congr 1
    omega
  refine ⟨s.set (arch1.toNat - 1) (s.training_data (arch1.toNat - 1))
    (lineModel before (before.y - 1) (before.x.key - own.x.key)), ?_, before, ?_, hkey, hy, ?_⟩
  · rw [trainModels, trainRoot_eq h]
    simp only [Option.bind_eq_bind, Option.bind_some]
    rw [hrange, List.foldlM_append, hs]
    simp only [Option.bind_eq_bind, Option.bind_some, List.foldlM_cons, hstep, List.foldlM_nil]
    rfl
  · rw [Training.training_data_set_of_ne _ _ _ (by omega)]
    exact hbefore
  · rw [Training.models_set_self, hownx]

/-- Such a line misses the last point. -/
theorem LastLeaf.not_interpolates (hM : 1 ≤ arch1.toNat) (h : Sorted training_sample first last) {s : Training}
    (hlast : LastLeaf arch1 last s) : ¬Interpolates arch1 training_sample (rootModel arch1 first last) s := by
  obtain ⟨before, hbefore, hkey, hy, hmodel⟩ := hlast
  obtain ⟨own, hown, hownx⟩ := getLast?_last_leaf hM h
  intro hinterpolates
  obtain ⟨-, hmeets⟩ := hinterpolates.last before own hbefore hown
  rw [hmodel, hownx] at hmeets
  exact not_meets_one hkey hy hmeets

/-- **The leaf models never interpolate their training data**: for every sorted sample with two different keys and three
or more leaf models training goes through, and leaves models that do not. -/
theorem leaves_never_interpolate (arch1 : BitVec 32) (hM : 3 ≤ arch1.toNat) (h : Sorted training_sample first last) :
    ∃ root s, trainModels arch1 training_sample = some (root, s) ∧ ¬Interpolates arch1 training_sample root s := by
  obtain ⟨s, hs, hlast⟩ := trainModels_eq hM h
  exact ⟨_, s, hs, hlast.not_interpolates (by omega) h⟩

/-- The keys `0`, `1` and `2`, one for each of three leaf models. -/
theorem three_leaves_do_not_interpolate :
    ∃ root s, trainModels 3 threeKeys = some (root, s) ∧ ¬Interpolates 3 threeKeys root s := by
  have hM : 3 ≤ (3 : BitVec 32).toNat := by decide
  obtain ⟨s, hs, hlast⟩ := trainModels_eq hM sorted_threeKeys
  exact ⟨_, s, hs, hlast.not_interpolates (by decide) sorted_threeKeys⟩

/-- The same with more leaf models than keys. -/
theorem four_leaves_do_not_interpolate :
    ∃ root s, trainModels 4 threeKeys = some (root, s) ∧ ¬Interpolates 4 threeKeys root s :=
  leaves_never_interpolate 4 (by decide) sorted_threeKeys

end HashingArchive.Join.Learned
