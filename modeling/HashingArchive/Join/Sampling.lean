import HashingArchive.Library.Tiling

/-!
# Sampling with several threads

The driver allocates a buffer for the training sample, `initialize_hash_thread_args` gives every thread a part of the
relation and a place in the buffer, and every thread of `sample_and_train_models_threaded` copies each `offset_R`-th
tuple of its part to its place. A write is the position in the buffer and the index of the tuple in the relation.

A thread's place begins at the thread's share of the allocation, and its samples are as many as its part divided by
the stride: `sampling_fills_iff` says when the two agree.

The product `sampling_rate * n` is a product of floats and enters as the function `rate`. The stride is the quotient of
two unsigned integers in double precision, whose integer part is that of the exact quotient.
-/

namespace HashingArchive.Join.Sampling

open HashingArchive.Library

/-! ### The code -/

def minSortingSize : ℕ := 10000

/-- The sample size for a relation of this size, in arithmetic of `unsigned int`. -/
def sampleSize (rate : ℕ → ℕ) (size : ℕ) : ℕ := min (size % 2 ^ 32) (max (rate size % 2 ^ 32) minSortingSize)

/-- `SAMPLE_SZ_R` of the driver. -/
def sampleSzR (rate : ℕ → ℕ) (num_tuples : ℕ) : ℕ := (sampleSize rate num_tuples + 1) % 2 ^ 32

/-- `SAMPLE_SZ_S` of the driver. -/
def sampleSzS : ℕ := 0

structure ThreadArgs where
  tid : ℕ
  /-- Where the part of the thread begins in the relation. -/
  tuples : ℕ
  num_tuples : ℕ
  tmp_training_sample_offset : ℕ
  deriving DecidableEq

/-- The loop over the threads; the first component of the state is what is left of `numR`. -/
def initializeHashThreadArgs (NUM_THREADS numR sampleSzR sampleSzS : ℕ) : List ThreadArgs :=
  let numRthr := numR / NUM_THREADS
  ((List.range NUM_THREADS).foldl (fun s i => (s.1 - numRthr, s.2 ++ [{
    tid := i
    tuples := numRthr * i
    num_tuples := if i + 1 = NUM_THREADS then s.1 else numRthr
    tmp_training_sample_offset := (sampleSzR / NUM_THREADS + sampleSzS / NUM_THREADS) * i % 2 ^ 32 }]))
    (numR, ([] : List ThreadArgs))).2

/-- The loop of a thread, at tuple `i` of its part: the writes and the final `sample_count`. -/
def sampleLoop (args : ThreadArgs) (offsetR : ℕ) (h : 0 < offsetR) (i sample_count : ℕ) : List (ℕ × ℕ) × ℕ :=
  if i < args.num_tuples then
    let rest := sampleLoop args offsetR h (i + offsetR) ((sample_count + 1) % 2 ^ 32)
    ((args.tmp_training_sample_offset + sample_count, args.tuples + i) :: rest.1, rest.2)
  else ([], sample_count)
termination_by args.num_tuples - i

/-- The stride of a thread, zero for the quotient of zero by zero. -/
def offsetR (rate : ℕ → ℕ) (original_num_tuples : ℕ) : ℕ :=
  original_num_tuples % 2 ^ 32 / sampleSize rate (original_num_tuples % 2 ^ 32)

/-- The sampling of one thread, none if it has no stride to go by. -/
def sampleAndTrainModelsThreaded (rate : ℕ → ℕ) (original_num_tuples : ℕ) (args : ThreadArgs) :
    Option (List (ℕ × ℕ) × ℕ) :=
  if h : 0 < offsetR rate original_num_tuples then some (sampleLoop args (offsetR rate original_num_tuples) h 0 0)
  else none

/-- The writes of all threads, and the `total_sample_count` of thread 0. -/
def sampling (rate : ℕ → ℕ) (NUM_THREADS num_tuples : ℕ) : Option (List (List (ℕ × ℕ)) × ℕ) := do
  let threads ← (initializeHashThreadArgs NUM_THREADS num_tuples (sampleSzR rate num_tuples) 0).mapM
    (sampleAndTrainModelsThreaded rate num_tuples)
  return (threads.map Prod.fst, (threads.map Prod.snd).foldl (fun total n => (total + n) % 2 ^ 32) 0)

/-- The entries the driver allocates. -/
def allocated (rate : ℕ → ℕ) (num_tuples : ℕ) : ℕ := sampleSzR rate num_tuples + sampleSzS

/-- The writes stay in the buffer, no two threads write to one position, and together they fill the sample. -/
structure Fills (allocated : ℕ) (writes : List (List (ℕ × ℕ))) (total_sample_count : ℕ) : Prop where
  inside : ∀ thread ∈ writes, ∀ w ∈ thread, w.1 < allocated
  separate : writes.Pairwise fun thread thread' => ∀ w ∈ thread, ∀ w' ∈ thread', w.1 ≠ w'.1
  covers : ∀ p, (∃ thread ∈ writes, ∃ w ∈ thread, w.1 = p) ↔ p < total_sample_count

/-! ### What a thread writes -/

/-- How many steps of length `o` there are in `m` tuples. -/
def steps (m o : ℕ) : ℕ := (m + o - 1) / o

theorem lt_steps_iff {m o : ℕ} (ho : 0 < o) (j : ℕ) : j < steps m o ↔ o * j < m := by
  rw [steps, Nat.lt_iff_add_one_le, Nat.le_div_iff_mul_le ho, Nat.add_mul, Nat.one_mul, Nat.mul_comm]
  omega

theorem sampleLoop_eq (args : ThreadArgs) {o : ℕ} (ho : 0 < o) (d : ℕ) :
    ∀ j, j + d = steps args.num_tuples o → sampleLoop args o ho (o * j) (j % 2 ^ 32) =
      ((List.range' j d).map fun k => (args.tmp_training_sample_offset + k % 2 ^ 32, args.tuples + o * k),
        steps args.num_tuples o % 2 ^ 32) := by
  induction d with
  | zero =>
    intro j hj
    rw [sampleLoop, if_neg (by rw [← lt_steps_iff ho]; omega), ← hj]
    rfl
  | succ d ih =>
    intro j hj
    have hnext := ih (j + 1) (by omega)
    rw [sampleLoop, if_pos ((lt_steps_iff ho j).mp (by omega)), Nat.mod_add_mod, ← Nat.mul_succ, hnext,
      List.range'_succ, List.map_cons]

/-- The arguments of thread `i`. -/
def threadArgs (NUM_THREADS numR sampleSzR i : ℕ) : ThreadArgs where
  tid := i
  tuples := numR / NUM_THREADS * i
  num_tuples := if i + 1 = NUM_THREADS then numR - numR / NUM_THREADS * i else numR / NUM_THREADS
  tmp_training_sample_offset := sampleSzR / NUM_THREADS * i % 2 ^ 32

theorem initializeHashThreadArgs_eq (T numR sampleSzR : ℕ) :
    initializeHashThreadArgs T numR sampleSzR 0 = (List.range T).map (threadArgs T numR sampleSzR) := by
  have hloop : ∀ k, (List.range k).foldl (fun s i => (s.1 - numR / T, s.2 ++ [{
      tid := i
      tuples := numR / T * i
      num_tuples := if i + 1 = T then s.1 else numR / T
      tmp_training_sample_offset := (sampleSzR / T + 0 / T) * i % 2 ^ 32 }])) (numR, ([] : List ThreadArgs)) =
      (numR - numR / T * k, (List.range k).map (threadArgs T numR sampleSzR)) := by
    intro k
    induction k with
    | zero => rfl
    | succ k ih =>
      rw [List.range_succ, List.foldl_append, ih, List.map_append, Nat.zero_div]
      simp only [List.foldl_cons, List.foldl_nil, List.map_cons, List.map_nil, threadArgs, Nat.add_zero]
      rw [Nat.mul_succ, Nat.sub_sub]
  have h := hloop T
  rw [initializeHashThreadArgs]
  exact congrArg Prod.snd h

/-! ### What all threads write -/

/-- The writes of threads with the counts `c`, whose places begin at multiples of `D`. -/
def blocks (D : ℕ) (c : ℕ → ℕ) (tuple : ℕ → ℕ → ℕ) (T : ℕ) : List (List (ℕ × ℕ)) :=
  (List.range T).map fun i => (List.range' 0 (c i)).map fun k => (D * i + k % 2 ^ 32, tuple i k)

theorem mem_blocks {D T : ℕ} {c : ℕ → ℕ} {tuple : ℕ → ℕ → ℕ} {thread : List (ℕ × ℕ)} :
    thread ∈ blocks D c tuple T ↔
      ∃ i < T, (List.range' 0 (c i)).map (fun k => (D * i + k % 2 ^ 32, tuple i k)) = thread := by
  simp [blocks]

/-- The positions a thread writes to, while `sample_count` does not wrap around. -/
theorem exists_write_iff {D i p : ℕ} {c : ℕ → ℕ} (tuple : ℕ → ℕ → ℕ) (hc : c i ≤ 2 ^ 32) :
    (∃ w ∈ (List.range' 0 (c i)).map fun k => (D * i + k % 2 ^ 32, tuple i k), w.1 = p) ↔ InBlock D c i p := by
  simp only [List.mem_map, List.mem_range'_1]
  constructor
  · intro ⟨_, ⟨k, hk, rfl⟩, hp⟩
    dsimp only at hp
    rw [Nat.mod_eq_of_lt (by omega)] at hp
    exact ⟨by omega, by omega⟩
  · intro ⟨hfrom, hto⟩
    refine ⟨_, ⟨p - D * i, by omega, rfl⟩, ?_⟩
    dsimp only
    rw [Nat.mod_eq_of_lt (by omega)]
    omega

section
variable {A D T : ℕ} {c : ℕ → ℕ} {tuple : ℕ → ℕ → ℕ}

/-- A thread whose writes stay in the buffer takes no more samples than there is room for. -/
theorem length_le_of_inside (tuple : ℕ → ℕ → ℕ) (hA : A < 2 ^ 32) {i : ℕ} (hpos : 0 < c i)
    (hinside : ∀ w ∈ (List.range' 0 (c i)).map fun k => (D * i + k % 2 ^ 32, tuple i k), w.1 < A) :
    c i ≤ 2 ^ 32 ∧ D * i + c i ≤ A := by
  have hwrite : ∀ k < c i, D * i + k % 2 ^ 32 < A := fun k hk =>
    hinside _ (List.mem_map.mpr ⟨k, by simpa [List.mem_range'_1] using hk, rfl⟩)
  have hle : c i ≤ 2 ^ 32 := by
    -- after `2 ^ 32` writes the whole range of an `unsigned int` has been used
    by_contra hlt
    have hlast := hwrite (2 ^ 32 - 1) (by omega)
    omega
  have hlast := hwrite (c i - 1) (by omega)
  rw [Nat.mod_eq_of_lt (by omega)] at hlast
  exact ⟨hle, by omega⟩

/-- If the writes fill the sample, then every thread but the last fills its place. -/
theorem Fills.lengths (hA : A < 2 ^ 32) (hpos : ∀ i < T + 1, 0 < c i) {total : ℕ}
    (h : Fills A (blocks D c tuple (T + 1)) total) : (∀ i, i + 1 < T + 1 → c i = D) ∧ D * T + c T ≤ A := by
  have hcount : ∀ i < T + 1, c i ≤ 2 ^ 32 ∧ D * i + c i ≤ A := fun i hi =>
    length_le_of_inside tuple hA (hpos i hi) (h.inside _ (mem_blocks.mpr ⟨i, hi, rfl⟩))
  have hsep : ∀ i j p, i < j → j < T + 1 → InBlock D c i p → ¬ InBlock D c j p := by
    intro i j p hij hj hi hjp
    obtain ⟨w, hw, hwp⟩ := (exists_write_iff tuple (hcount i (by omega)).1).mpr hi
    obtain ⟨w', hw', hwp'⟩ := (exists_write_iff tuple (hcount j hj).1).mpr hjp
    have hpair := List.pairwise_iff_getElem.mp h.separate i j (by simp [blocks]; omega) (by simp [blocks, hj]) hij
    simp only [blocks, List.getElem_map, List.getElem_range] at hpair
    exact hpair w hw w' hw' (hwp.trans hwp'.symm)
  have hcover : ∀ p, (∃ i < T + 1, InBlock D c i p) ↔ p < total := by
    intro p
    rw [← h.covers p]
    constructor
    · intro ⟨i, hi, hip⟩
      exact ⟨_, mem_blocks.mpr ⟨i, hi, rfl⟩, (exists_write_iff tuple (hcount i hi).1).mpr hip⟩
    · intro ⟨thread, hthread, hw⟩
      obtain ⟨i, hi, rfl⟩ := mem_blocks.mp hthread
      exact ⟨i, hi, (exists_write_iff tuple (hcount i hi).1).mp hw⟩
  exact ⟨fun i hi => length_eq_of_tiles hpos hsep hcover hi, (hcount T (Nat.lt_succ_self T)).2⟩

theorem fills_of_lengths (hA : A < 2 ^ 32) (hD : D ≤ A) (hlength : ∀ i, i + 1 < T + 1 → c i = D)
    (hbound : D * T + c T ≤ A) :
    Fills A (blocks D c tuple (T + 1)) ((∑ i ∈ Finset.range (T + 1), c i) % 2 ^ 32) := by
  have hcount : ∀ i < T + 1, c i ≤ 2 ^ 32 := by
    intro i hi
    rcases Nat.lt_succ_iff_lt_or_eq.mp hi with hlt | rfl
    · rw [hlength i (by omega)]
      omega
    · omega
  refine ⟨?_, ?_, ?_⟩
  · intro thread hthread w hw
    obtain ⟨i, hi, rfl⟩ := mem_blocks.mp hthread
    have hip := (exists_write_iff tuple (hcount i hi)).mp ⟨w, hw, rfl⟩
    have hlt := (tiles_of_length_eq hlength w.1).mp ⟨i, hi, hip⟩
    omega
  · apply List.pairwise_iff_getElem.mpr
    intro i j hi hj hij w hw w' hw' heq
    simp only [blocks, List.length_map, List.length_range] at hi hj
    simp only [blocks, List.getElem_map, List.getElem_range] at hw hw'
    have hip := (exists_write_iff tuple (hcount i hi)).mp ⟨w, hw, rfl⟩
    have hjp := (exists_write_iff tuple (hcount j hj)).mp ⟨w', hw', heq.symm⟩
    exact disjoint_of_length_eq hlength hij hj hip hjp
  · intro p
    rw [sum_length_eq hlength, Nat.mod_eq_of_lt (by omega), ← tiles_of_length_eq hlength p]
    constructor
    · intro ⟨thread, hthread, hw⟩
      obtain ⟨i, hi, rfl⟩ := mem_blocks.mp hthread
      exact ⟨i, hi, (exists_write_iff tuple (hcount i hi)).mp hw⟩
    · intro ⟨i, hi, hip⟩
      exact ⟨_, mem_blocks.mpr ⟨i, hi, rfl⟩, (exists_write_iff tuple (hcount i hi)).mpr hip⟩

end

/-! ### The whole run -/

theorem mapM_eq_some {α β : Type} {f : α → Option β} {g : α → β} {l : List α} (h : ∀ a ∈ l, f a = some (g a)) :
    l.mapM f = some (l.map g) := by
  induction l with
  | nil => rfl
  | cons a l ih =>
    rw [List.mapM_cons, h a List.mem_cons_self, ih fun b hb => h b (List.mem_cons_of_mem _ hb)]
    rfl

theorem foldl_total (counts : List ℕ) :
    (counts.map (· % 2 ^ 32)).foldl (fun total n => (total + n) % 2 ^ 32) 0 = counts.sum % 2 ^ 32 := by
  induction counts using List.reverseRecOn with
  | nil => rfl
  | append_singleton counts n ih =>
    rw [List.map_append, List.foldl_append, ih, List.sum_append]
    simp [Nat.add_mod]

/-- The samples thread `i` takes. -/
def samples (rate : ℕ → ℕ) (T n i : ℕ) : ℕ :=
  steps (threadArgs T n (sampleSzR rate n) i).num_tuples (offsetR rate n)

theorem sampling_eq {rate : ℕ → ℕ} {T n : ℕ} (hstride : 0 < offsetR rate n) :
    sampling rate T n = some (blocks (sampleSzR rate n / T) (samples rate T n)
      (fun i k => n / T * i + offsetR rate n * k) T, (∑ i ∈ Finset.range T, samples rate T n i) % 2 ^ 32) := by
  have hlt : sampleSzR rate n < 2 ^ 32 := Nat.mod_lt _ (by norm_num)
  have hplace : ∀ i < T, (threadArgs T n (sampleSzR rate n) i).tmp_training_sample_offset =
      sampleSzR rate n / T * i := fun i hi => by
    have hle := Nat.mul_le_mul_left (sampleSzR rate n / T) hi.le
    have hdiv := Nat.div_mul_le_self (sampleSzR rate n) T
    exact Nat.mod_eq_of_lt (by omega)
  have hthread : ∀ i ∈ List.range T,
      (sampleAndTrainModelsThreaded rate n ∘ threadArgs T n (sampleSzR rate n)) i =
        some ((List.range' 0 (samples rate T n i)).map (fun k =>
          (sampleSzR rate n / T * i + k % 2 ^ 32, n / T * i + offsetR rate n * k)),
          samples rate T n i % 2 ^ 32) := by
    intro i hi
    have hrun := sampleLoop_eq (threadArgs T n (sampleSzR rate n) i) hstride (samples rate T n i) 0 (Nat.zero_add _)
    rw [hplace i (List.mem_range.mp hi)] at hrun
    show sampleAndTrainModelsThreaded rate n (threadArgs T n (sampleSzR rate n) i) = _
    rw [sampleAndTrainModelsThreaded, dif_pos hstride]
    exact congrArg some hrun
  have htotal := foldl_total ((List.range T).map (samples rate T n))
  rw [sampling, initializeHashThreadArgs_eq, List.mapM_map, mapM_eq_some hthread]
  simp only [Option.bind_eq_bind, Option.bind_some, Option.pure_def, List.map_map]
  rw [List.map_map] at htotal
  exact congrArg some (Prod.ext rfl htotal)

theorem offsetR_pos_iff (rate : ℕ → ℕ) (n : ℕ) : 0 < offsetR rate n ↔ 0 < n % 2 ^ 32 := by
  unfold offsetR sampleSize
  rw [Nat.mod_mod]
  constructor
  · intro h
    by_contra h0
    rw [show n % 2 ^ 32 = 0 by omega, Nat.zero_div] at h
    exact absurd h (lt_irrefl 0)
  · intro h
    have hmax : 0 < max (rate (n % 2 ^ 32) % 2 ^ 32) minSortingSize :=
      lt_of_lt_of_le (by norm_num [minSortingSize]) (le_max_right _ _)
    exact Nat.div_pos (min_le_left _ _) (lt_min h hmax)

theorem sampling_eq_none {rate : ℕ → ℕ} {T n : ℕ} (hT : 0 < T) (hstride : ¬ 0 < offsetR rate n) :
    sampling rate T n = none := by
  have hnone : ∀ args, sampleAndTrainModelsThreaded rate n args = none := fun args => by
    rw [sampleAndTrainModelsThreaded, dif_neg hstride]
  rw [sampling, initializeHashThreadArgs_eq, ← Nat.succ_pred_eq_of_pos hT, List.range_succ_eq_map, List.map_cons,
    List.mapM_cons, hnone]
  rfl

/-- **The samples fill the buffer without overrun, gap or overlap** exactly if there is a stride, every thread but the
last takes as many samples as its share of the allocation, and the samples of all threads fit. -/
theorem sampling_fills_iff (rate : ℕ → ℕ) (T n : ℕ) (hT : 0 < T) (hn : T ≤ n) :
    (∃ writes total, sampling rate T n = some (writes, total) ∧ Fills (allocated rate n) writes total) ↔
      0 < n % 2 ^ 32 ∧
      (T = 1 ∨ steps (n / T) (n % 2 ^ 32 / sampleSize rate (n % 2 ^ 32)) = allocated rate n / T) ∧
      allocated rate n / T * (T - 1) +
        steps (n - n / T * (T - 1)) (n % 2 ^ 32 / sampleSize rate (n % 2 ^ 32)) ≤ allocated rate n := by
  show _ ↔ _ ∧ (_ ∨ steps (n / T) (offsetR rate n) = sampleSzR rate n / T) ∧
    sampleSzR rate n / T * (T - 1) + steps (n - n / T * (T - 1)) (offsetR rate n) ≤ sampleSzR rate n
  by_cases hstride : 0 < offsetR rate n
  · obtain ⟨t, rfl⟩ : ∃ t, T = t + 1 := ⟨T - 1, by omega⟩
    have hA : sampleSzR rate n < 2 ^ 32 := Nat.mod_lt _ (by norm_num)
    have hchunk : 0 < n / (t + 1) := Nat.div_pos hn (by omega)
    have hrest : n / (t + 1) ≤ n - n / (t + 1) * t := by
      have hle := Nat.div_mul_le_self n (t + 1)
      rw [Nat.mul_succ] at hle
      omega
    have hlast : samples rate (t + 1) n t = steps (n - n / (t + 1) * t) (offsetR rate n) := by
      rw [samples, threadArgs, if_pos rfl]
    have hfirst : ∀ i, i + 1 < t + 1 → samples rate (t + 1) n i = steps (n / (t + 1)) (offsetR rate n) :=
      fun i hi => by rw [samples, threadArgs, if_neg (by omega)]
    have hpos : ∀ i < t + 1, 0 < samples rate (t + 1) n i := fun i hi => by
      rcases Nat.lt_succ_iff_lt_or_eq.mp hi with hlt | rfl
      · rw [hfirst i (by omega), lt_steps_iff hstride]
        omega
      · rw [hlast, lt_steps_iff hstride]
        omega
    rw [sampling_eq hstride, ← offsetR_pos_iff rate n, Nat.add_sub_cancel, ← hlast]
    constructor
    · intro ⟨writes, total, hrun, hfills⟩
      obtain ⟨rfl, rfl⟩ := Prod.mk.inj (Option.some.inj hrun)
      obtain ⟨hlength, hbound⟩ := Fills.lengths hA hpos hfills
      refine ⟨hstride, ?_, hbound⟩
      rcases Nat.eq_zero_or_pos t with rfl | ht
      · exact .inl rfl
      · exact .inr ((hfirst 0 (by omega)).symm.trans (hlength 0 (by omega)))
    · intro ⟨_, hlength, hbound⟩
      refine ⟨_, _, rfl, fills_of_lengths hA (Nat.div_le_self _ _) (fun i hi => ?_) hbound⟩
      rw [hfirst i hi]
      exact hlength.resolve_left (by omega)
  · rw [sampling_eq_none hT hstride, ← offsetR_pos_iff rate n]
    constructor
    · intro ⟨_, _, hrun, _⟩
      cases hrun
    · intro h
      exact absurd h.1 hstride

/-- The driver's own 16 million tuples and 64 threads: 2500 samples each, and one entry left over. -/
theorem sampling_fills_driver :
    ∃ writes total, sampling (fun n => n / 100) 64 16000000 = some (writes, total) ∧
      Fills (allocated (fun n => n / 100) 16000000) writes total :=
  (sampling_fills_iff (fun n => n / 100) 64 16000000 (by norm_num) (by norm_num)).mpr
    ⟨by norm_num, by norm_num [steps, sampleSize, allocated, sampleSzR, sampleSzS, minSortingSize],
      by norm_num [steps, sampleSize, allocated, sampleSzR, sampleSzS, minSortingSize]⟩

/-- Three tuples and two threads, with room for four samples: thread 1 begins at position 2, and thread 0 writes to
position 0 only. -/
theorem sampling_leaves_gap :
    sampling (fun n => n / 100) 2 3 = some ([[(0, 0)], [(2, 1), (3, 2)]], 3) ∧
      allocated (fun n => n / 100) 3 = 4 ∧
      ¬ ∃ writes total, sampling (fun n => n / 100) 2 3 = some (writes, total) ∧
        Fills (allocated (fun n => n / 100) 3) writes total := by
  have hrun : sampling (fun n => n / 100) 2 3 = some ([[(0, 0)], [(2, 1), (3, 2)]], 3) := by
    rw [sampling_eq (by decide)]
    rfl
  refine ⟨hrun, rfl, ?_⟩
  intro ⟨writes, total, hsome, hfills⟩
  rw [hrun] at hsome
  obtain ⟨rfl, rfl⟩ := Prod.mk.inj (Option.some.inj hsome)
  exact absurd ((hfills.covers 1).mpr (by norm_num)) (by decide)

end HashingArchive.Join.Sampling
