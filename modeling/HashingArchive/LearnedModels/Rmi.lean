import HashingArchive.Library.Scaling

/-!
# `RMIHash`

The two level model over a sorted sample, in exact arithmetic: a root model picks one of the second level models, and
that one maps the key to a place in `[0, full_size]`. The construction sorts the sample points into one training
bucket for every second level model, starts a bucket with the last point of the bucket before it, fills up buckets
with fewer than two points, and draws a line from the first to the last point of every bucket. Vectors are functions
of the index with every access checked.

A trained model scales the value of its `line`, and a line between two points in order lies between them.
-/

namespace HashingArchive.LearnedModels.Rmi

open HashingArchive.Library

/-! ### The code -/

inductive Failure where
  | outOfRange
  | emptyVector
  | assertion
  | overflow
  deriving DecidableEq

structure Datapoint where
  x : ℕ
  y : ℚ

structure LinearImpl where
  slope : ℚ
  intercept : ℚ

def computeSlope (min max : Datapoint) : ℚ := if min.x = max.x then 0 else (max.y - min.y) / ((max.x : ℚ) - min.x)

def computeIntercept (min max : Datapoint) : ℚ := min.y - computeSlope min max * min.x

/-- The constructor that trains a model: the line from the first to the last datapoint. -/
def LinearImpl.train (datapoints : List Datapoint) : Except Failure LinearImpl :=
  match datapoints.head?, datapoints.getLast? with
  | some front, some back => .ok { slope := computeSlope front back, intercept := computeIntercept front back }
  | _, _ => .error .emptyVector

/-- `operator()` of a model. -/
def LinearImpl.apply (model : LinearImpl) (k max_value : ℕ) : ℕ :=
  let pred := ((max_value : ℚ) + 1) * (model.slope * k + model.intercept)
  if pred < 0 then 0 else if (max_value : ℚ) < pred then max_value else ⌊pred⌋₊

abbrev Buckets := ℕ → List Datapoint

/-- The `i`-th sample point goes into its training bucket. The counter `i` is an `int`. -/
def fillStep (SecondLevelModelCount sample_size : ℕ) (root_model : LinearImpl) (training_buckets : Buckets)
    (it : ℕ × ℕ) : Except Failure Buckets :=
  let second_level_index := root_model.apply it.1 (SecondLevelModelCount - 1)
  if SecondLevelModelCount ≤ second_level_index then .error .outOfRange
  else if 2 ^ 31 ≤ it.2 + 1 then .error .overflow
  else
    let bucket := training_buckets second_level_index
    -- a bucket begins with the last point of the bucket before it, if there is one
    let linked := if bucket.isEmpty ∧ 0 < second_level_index then
      (training_buckets (second_level_index - 1)).getLast?.toList else bucket
    .ok (Function.update training_buckets second_level_index
      (linked ++ [{ x := it.1, y := (it.2 : ℚ) / sample_size }]))

/-- `while (bucket.size() < 2) bucket.insert(bucket.begin(), point)` -/
def fillUp (point : Datapoint) (bucket : List Datapoint) : List Datapoint :=
  List.replicate (2 - bucket.length) point ++ bucket

/-- The training bucket `model_idx` with datapoints propagated from the training bucket before it if necessary. -/
def propagate (training_buckets : Buckets) (model_idx : ℕ) : Except Failure (List Datapoint) :=
  if (training_buckets model_idx).length < 2 then
    if model_idx = 0 then .error .outOfRange
    else
      match (training_buckets (model_idx - 1)).getLast? with
      | none => .error .assertion
      | some back => .ok (fillUp back (training_buckets model_idx))
  else .ok (training_buckets model_idx)

/-- Trains the second level model `model_idx`. -/
def trainStep (s : Buckets × (ℕ → LinearImpl)) (model_idx : ℕ) : Except Failure (Buckets × (ℕ → LinearImpl)) := do
  let training_bucket ← propagate s.1 model_idx
  if training_bucket.length < 2 then .error .assertion
  else
    let model ← LinearImpl.train training_bucket
    return (Function.update s.1 model_idx training_bucket, Function.update s.2 model_idx model)

/-- The root model, the training buckets at the end, and the second level models. -/
def training (SecondLevelModelCount : ℕ) (sample : List ℕ) :
    Except Failure (LinearImpl × Buckets × (ℕ → LinearImpl)) := do
  let some first := sample.head? | .error .emptyVector
  let some last := sample.getLast? | .error .emptyVector
  let root_model ← LinearImpl.train [{ x := first, y := 0 }, { x := last, y := 1 }]
  let training_buckets ←
    sample.zipIdx.foldlM (fillStep SecondLevelModelCount sample.length root_model) fun _ => []
  if SecondLevelModelCount = 0 then .error .outOfRange
  else
    let filled := Function.update training_buckets 0 (fillUp { x := 0, y := 0 } (training_buckets 0))
    let s ← (List.range SecondLevelModelCount).foldlM trainStep
      (filled, fun _ => { slope := 0, intercept := 0 })
    return (root_model, s)

structure RMIHash (SecondLevelModelCount : ℕ) where
  root_model : LinearImpl
  second_level_models : ℕ → LinearImpl
  full_size : ℕ

def RMIHash.construct (SecondLevelModelCount : ℕ) (sample : List ℕ) (full_size : ℕ) :
    Except Failure (RMIHash SecondLevelModelCount) := do
  let (root_model, _, second_level_models) ← training SecondLevelModelCount sample
  return { root_model := root_model, second_level_models := second_level_models, full_size := full_size }

/-- `operator()` of the hash. -/
def RMIHash.apply {SecondLevelModelCount : ℕ} (rmi : RMIHash SecondLevelModelCount) (key : ℕ) : Except Failure ℕ :=
  let second_level_index := rmi.root_model.apply key (SecondLevelModelCount - 1)
  if SecondLevelModelCount ≤ second_level_index then .error .outOfRange
  else .ok ((rmi.second_level_models second_level_index).apply key rmi.full_size)

/-! ### Lines -/

/-- The value at `k` of the line from `front` to `back`. -/
def line (front back : Datapoint) (k : ℕ) : ℚ := front.y + computeSlope front back * ((k : ℚ) - front.x)

/-- The line from `front` to `back`, as a model. -/
def lineModel (front back : Datapoint) : LinearImpl where
  slope := computeSlope front back
  intercept := computeIntercept front back

theorem train_eq {datapoints : List Datapoint} {front back : Datapoint} (hfront : datapoints.head? = some front)
    (hback : datapoints.getLast? = some back) : LinearImpl.train datapoints = .ok (lineModel front back) := by
  rw [LinearImpl.train, hfront, hback]
  rfl

theorem lineModel_apply (front back : Datapoint) (k max_value : ℕ) :
    (lineModel front back).apply k max_value = scale max_value (line front back k) := by
  rw [← clamp_eq_scale, LinearImpl.apply]
  have hvalue : (lineModel front back).slope * k + (lineModel front back).intercept = line front back k := by
    simp only [lineModel, computeIntercept, line]
    ring
  rw [hvalue]

section
variable {front back : Datapoint} (hx : front.x ≤ back.x) (hy : front.y ≤ back.y)
include hx hy

theorem computeSlope_nonneg : 0 ≤ computeSlope front back := by
  unfold computeSlope
  split_ifs
  · exact le_rfl
  · exact div_nonneg (sub_nonneg.mpr hy) (sub_nonneg.mpr (by exact_mod_cast hx))

theorem line_mono {j k : ℕ} (h : j ≤ k) : line front back j ≤ line front back k := by
  have hjk : (j : ℚ) - front.x ≤ (k : ℚ) - front.x := sub_le_sub_right (by exact_mod_cast h) _
  exact add_le_add_right (mul_le_mul_of_nonneg_left hjk (computeSlope_nonneg hx hy)) _

theorem le_line {k : ℕ} (h : front.x ≤ k) : front.y ≤ line front back k := by
  have hk : (0 : ℚ) ≤ (k : ℚ) - front.x := sub_nonneg.mpr (by exact_mod_cast h)
  exact le_add_of_nonneg_right (mul_nonneg (computeSlope_nonneg hx hy) hk)

omit hx in
theorem line_back : line front back back.x ≤ back.y := by
  unfold line computeSlope
  split_ifs with heq
  · simpa using hy
  · have hne : (back.x : ℚ) - front.x ≠ 0 := sub_ne_zero.mpr (Nat.cast_injective.ne (Ne.symm heq))
    rw [div_mul_cancel₀ _ hne]
    linarith

theorem line_le {k : ℕ} (h : k ≤ back.x) : line front back k ≤ back.y :=
  (line_mono hx hy h).trans (line_back hy)

end

end HashingArchive.LearnedModels.Rmi
