import HashingArchive.Library.Loads
import HashingArchive.Library.Loop

/-!
# Collision measurements

`measure_collisions` counts the keys that a hash and a reducer send to each slot, and walks over the counters once.
What it reports accounts for every key and every slot (`measureCollisions_accounts`), but the standard deviation
divides the squared deviations of the slots by the number of keys: its square is the variance only if there are as many
keys as slots, or the slots do not deviate at all (`stdDev_sq_eq_variance_iff`).

Arithmetic is exact, and the time the measurement takes is left out.
-/

namespace HashingArchive.Benchmark

open HashingArchive.Library.Loads HashingArchive.Loop

/-! ### The code -/

/-- The counters count the entries of vectors, of which there are fewer than `uint64_t` has values. -/
structure CollisionStats where
  min : ℕ
  max : ℕ
  emptySlots : ℕ
  collidingSlots : ℕ
  totalCollidingKeys : ℕ
  /-- What `std_dev` is the square root of. -/
  stdDevSquare : ℚ

/-- The constructor. The minimum starts at the largest value. -/
def CollisionStats.start : CollisionStats where
  min := 0xFFFFFFFFFFFFFFFF
  max := 0
  emptySlots := 0
  collidingSlots := 0
  totalCollidingKeys := 0
  stdDevSquare := 0

noncomputable def CollisionStats.stdDev (stats : CollisionStats) : ℝ := Real.sqrt stats.stdDevSquare

/-- The second loop's body, with `std_dev_square_sum` next to the statistics. -/
def countBucket (average : ℚ) (s : CollisionStats × ℚ) (bucketCnt : ℕ) : CollisionStats × ℚ :=
  ({ s.1 with
      min := Min.min bucketCnt s.1.min
      max := Max.max bucketCnt s.1.max
      emptySlots := s.1.emptySlots + if bucketCnt = 0 then 1 else 0
      collidingSlots := s.1.collidingSlots + if bucketCnt > 1 then 1 else 0
      totalCollidingKeys := s.1.totalCollidingKeys + if bucketCnt > 1 then bucketCnt else 0 },
    s.2 + (bucketCnt - average) * (bucketCnt - average))

section
variable {Data Hash : Type} {N : ℕ}

/-- The second loop. -/
def countBuckets (average : ℚ) (collisionCounter : Fin N → ℕ) : CollisionStats × ℚ :=
  (List.finRange N).foldl (fun s i => countBucket average s (collisionCounter i)) (.start, 0)

/-- The first loop's body. -/
def countKey (hashfn : Data → Hash) (reducefn : Hash → Fin N) (collisionCounter : Fin N → ℕ) (key : Data) :
    Fin N → ℕ :=
  let htAddress := reducefn (hashfn key)
  Function.update collisionCounter htAddress (collisionCounter htAddress + 1)

/-- `std::fill` of the counters with 0. -/
def fill (_collisionCounter : Fin N → ℕ) : Fin N → ℕ := fun _ => 0

/-- `measure_collisions` of a dataset, with `reducefn` built for the `N` slots. It returns the statistics and leaves the
counters behind. -/
def measureCollisions (dataset : List Data) (collisionCounter : Fin N → ℕ) (hashfn : Data → Hash)
    (reducefn : Hash → Fin N) : (Fin N → ℕ) × CollisionStats :=
  let collisionCounter := fill collisionCounter
  let collisionCounter := dataset.foldl (countKey hashfn reducefn) collisionCounter
  let average : ℚ := dataset.length / N
  let (stats, stdDevSquareSum) := countBuckets average collisionCounter
  (collisionCounter, { stats with stdDevSquare := stdDevSquareSum / dataset.length })

/-! ### The counters -/

/-- The slot of an entry of the dataset. -/
def slot (dataset : List Data) (hashfn : Data → Hash) (reducefn : Hash → Fin N) (k : Fin dataset.length) : Fin N :=
  reducefn (hashfn dataset[k])

variable (dataset : List Data) (collisionCounter : Fin N → ℕ) (hashfn : Data → Hash) (reducefn : Hash → Fin N)

theorem measureCollisions_counter :
    (measureCollisions dataset collisionCounter hashfn reducefn).1 = load (slot dataset hashfn reducefn) := by
  funext i
  have hstep : ∀ (c : Fin N → ℕ) (key : Data),
      countKey hashfn reducefn c key i = c i + if reducefn (hashfn key) = i then 1 else 0 := by
    intro c key
    rw [countKey, Function.update_apply]
    split_ifs with h1 h2 h2
    · rw [h1]
    · exact absurd h1.symm h2
    · exact absurd h2.symm h1
    · rfl
  show dataset.foldl (countKey hashfn reducefn) (fill collisionCounter) i = _
  rw [foldl_add (f := fun c : Fin N → ℕ => c i) hstep, load, Finset.card_filter, ← Fin.sum_univ_fun_getElem, fill,
    Nat.zero_add]
  rfl

/-! ### The statistics -/

section
variable (average : ℚ) (c : Fin N → ℕ)

/-- What the second loop adds up, as a sum over the slots. -/
theorem countBuckets_sum {M : Type*} [AddCommMonoid M] {f : CollisionStats × ℚ → M} {g : ℕ → M}
    (hstart : f (.start, 0) = 0) (hstep : ∀ s n, f (countBucket average s n) = f s + g n) :
    f (countBuckets average c) = ∑ i, g (c i) := by
  rw [countBuckets, foldl_add (fun s i => hstep s (c i)), hstart, zero_add, Fin.sum_univ_def]

theorem countBuckets_emptySlots :
    (countBuckets average c).1.emptySlots = ∑ i, if c i = 0 then 1 else 0 :=
  countBuckets_sum average c (f := fun s => s.1.emptySlots) rfl fun _ _ => rfl

theorem countBuckets_collidingSlots :
    (countBuckets average c).1.collidingSlots = ∑ i, if 1 < c i then 1 else 0 :=
  countBuckets_sum average c (f := fun s => s.1.collidingSlots) rfl fun _ _ => rfl

theorem countBuckets_totalCollidingKeys :
    (countBuckets average c).1.totalCollidingKeys = ∑ i, if 1 < c i then c i else 0 :=
  countBuckets_sum average c (f := fun s => s.1.totalCollidingKeys) rfl fun _ _ => rfl

theorem countBuckets_squareSum : (countBuckets average c).2 = ∑ i, (c i - average) * (c i - average) :=
  countBuckets_sum average c (f := Prod.snd) rfl fun _ _ => rfl

theorem le_countBuckets_min_iff (m : ℕ) :
    m ≤ (countBuckets average c).1.min ↔ m ≤ 0xFFFFFFFFFFFFFFFF ∧ ∀ i, m ≤ c i := by
  refine (foldl_iff (P := fun s : CollisionStats × ℚ => m ≤ s.1.min) (Q := fun i => m ≤ c i)
    (fun s i => ?_) _ _).trans ?_
  · simp [countBucket, and_comm]
  · simp [CollisionStats.start]

theorem countBuckets_max_le_iff (m : ℕ) : (countBuckets average c).1.max ≤ m ↔ ∀ i, c i ≤ m := by
  refine (foldl_iff (P := fun s : CollisionStats × ℚ => s.1.max ≤ m) (Q := fun i => c i ≤ m)
    (fun s i => ?_) _ _).trans ?_
  · simp [countBucket, and_comm]
  · simp [CollisionStats.start]

end

/-- The mean number of keys a slot gets. -/
theorem mean_load : mean (fun i => (load (slot dataset hashfn reducefn) i : ℚ)) = dataset.length / N := by
  rw [mean, ← Nat.cast_sum, sum_load, Fintype.card_fin, Fintype.card_fin]

end

/-- The statistics account for every entry of the dataset and every slot. -/
structure Accounts {Data Hash : Type} {N : ℕ} (dataset : List Data) (hashfn : Data → Hash) (reducefn : Hash → Fin N)
    (collisionCounter : Fin N → ℕ) (stats : CollisionStats) : Prop where
  counters : ∑ i, collisionCounter i = dataset.length
  slots : stats.emptySlots + stats.collidingSlots + (dataset.length - stats.totalCollidingKeys) = N
  keys : stats.totalCollidingKeys =
    (Finset.univ.filter fun k => Shares (slot dataset hashfn reducefn) k).card
  min_le : (stats.min : ℚ) ≤ dataset.length / N
  le_max : dataset.length / N ≤ (stats.max : ℚ)

section
variable {Data Hash : Type} {N : ℕ} (dataset : List Data) (collisionCounter : Fin N → ℕ) (hashfn : Data → Hash)
  (reducefn : Hash → Fin N)

/-- The statistics are those of the loads. -/
theorem measureCollisions_eq :
    measureCollisions dataset collisionCounter hashfn reducefn =
      (load (slot dataset hashfn reducefn),
        { (countBuckets (dataset.length / N) (load (slot dataset hashfn reducefn))).1 with
          stdDevSquare := (∑ i, ((load (slot dataset hashfn reducefn) i : ℚ) - dataset.length / N) *
            (load (slot dataset hashfn reducefn) i - dataset.length / N)) / dataset.length }) := by
  rw [← measureCollisions_counter dataset collisionCounter, ← countBuckets_squareSum]
  rfl

/-- **Every key and every slot is accounted for**, whatever the counters held before. -/
theorem measureCollisions_accounts (hN : 1 ≤ N) :
    Accounts dataset hashfn reducefn (measureCollisions dataset collisionCounter hashfn reducefn).1
      (measureCollisions dataset collisionCounter hashfn reducefn).2 := by
  have hnonempty : Nonempty (Fin N) := ⟨⟨0, hN⟩⟩
  rw [measureCollisions_eq]
  have hshared := card_shares (slot dataset hashfn reducefn)
  have hbalance := slots_balance (slot dataset hashfn reducefn)
  have hle : (Finset.univ.filter fun k => Shares (slot dataset hashfn reducefn) k).card ≤ dataset.length := by
    simpa using Finset.card_filter_le Finset.univ fun k => Shares (slot dataset hashfn reducefn) k
  rw [Fintype.card_fin, Fintype.card_fin] at hbalance
  constructor
  · rw [sum_load, Fintype.card_fin]
  · dsimp only
    rw [countBuckets_emptySlots, countBuckets_collidingSlots, countBuckets_totalCollidingKeys]
    omega
  · exact (countBuckets_totalCollidingKeys _ _).trans hshared.symm
  · rw [← mean_load dataset hashfn reducefn]
    exact le_mean fun i => by exact_mod_cast ((le_countBuckets_min_iff _ _ _).mp le_rfl).2 i
  · rw [← mean_load dataset hashfn reducefn]
    exact mean_le fun i => by exact_mod_cast (countBuckets_max_le_iff _ _ _).mp le_rfl i

/-- Five keys in two slots. -/
theorem measureCollisions_accounts_five :
    Accounts [3, 5, 8, 3, 9] id (Fin.ofNat 2) (measureCollisions [3, 5, 8, 3, 9] (fun _ => 7) id (Fin.ofNat 2)).1
      (measureCollisions [3, 5, 8, 3, 9] (fun _ => 7) id (Fin.ofNat 2)).2 :=
  measureCollisions_accounts [3, 5, 8, 3, 9] (fun _ => 7) id (Fin.ofNat 2) (by norm_num)

/-! ### The standard deviation -/

theorem stdDev_sq : (measureCollisions dataset collisionCounter hashfn reducefn).2.stdDev ^ 2 =
    ((measureCollisions dataset collisionCounter hashfn reducefn).2.stdDevSquare : ℝ) := by
  rw [CollisionStats.stdDev, Real.sq_sqrt]
  rw [measureCollisions_eq]
  exact_mod_cast div_nonneg (Finset.sum_nonneg fun i _ => mul_self_nonneg _) (Nat.cast_nonneg _)

/-- **The reported deviation is the true one** exactly for as many keys as slots, or for equal loads. -/
theorem stdDev_sq_eq_variance_iff (hN : 1 ≤ N) (hdataset : dataset ≠ []) :
    (measureCollisions dataset collisionCounter hashfn reducefn).2.stdDev ^ 2 =
        (variance (fun i => (load (slot dataset hashfn reducefn) i : ℚ)) : ℝ) ↔
      dataset.length = N ∨ ∀ i j, load (slot dataset hashfn reducefn) i = load (slot dataset hashfn reducefn) j := by
  have hnonempty : Nonempty (Fin N) := ⟨⟨0, hN⟩⟩
  have hlength : (dataset.length : ℚ) ≠ 0 := by exact_mod_cast (List.length_pos_iff.mpr hdataset).ne'
  have hslots : (N : ℚ) ≠ 0 := by exact_mod_cast (Nat.one_le_iff_ne_zero.mp hN)
  have hequal := sum_sq_deviation_eq_zero_iff (x := fun i => (load (slot dataset hashfn reducefn) i : ℚ))
  rw [stdDev_sq, measureCollisions_eq, variance, Fintype.card_fin, Rat.cast_inj, ← mean_load dataset hashfn reducefn]
  dsimp only at hequal ⊢
  rw [div_eq_div_iff hlength hslots, mul_eq_mul_left_iff, hequal, Nat.cast_inj, eq_comm]
  simp only [Nat.cast_inj]

end

/-- One key in two slots: `1 / 2` is reported for the square, and the variance is `1 / 4`. -/
theorem stdDev_sq_ne_variance :
    ¬(measureCollisions [0] (fun _ => 0) id (fun _ => (0 : Fin 2))).2.stdDev ^ 2 =
      (variance (fun i => (load (slot [0] id fun _ : ℕ => (0 : Fin 2)) i : ℚ)) : ℝ) := by
  have hload : load (slot [0] id fun _ : ℕ => (0 : Fin 2)) = ![1, 0] := by decide
  rw [stdDev_sq, Rat.cast_inj, measureCollisions_eq, hload]
  norm_num [variance, mean, Fin.sum_univ_two]

/-- Two keys in two slots, both in the first. -/
theorem stdDev_sq_eq_variance_two :
    (measureCollisions [0, 1] (fun _ => 0) id (fun _ => (0 : Fin 2))).2.stdDev ^ 2 =
      (variance (fun i => (load (slot [0, 1] id fun _ : ℕ => (0 : Fin 2)) i : ℚ)) : ℝ) :=
  (stdDev_sq_eq_variance_iff [0, 1] (fun _ => 0) id (fun _ => (0 : Fin 2)) (by norm_num) (by simp)).mpr (Or.inl rfl)

end HashingArchive.Benchmark
