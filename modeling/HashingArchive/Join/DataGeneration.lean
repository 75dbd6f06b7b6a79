import HashingArchive.Join.ParallelJoin
import HashingArchive.Library.Cyclic
import HashingArchive.Library.Doubles

/-!
# The relations of the runner

`create_eth_workload_relation_pk` fills a relation with the keys from one on and shuffles it. As long as the keys have
room in their type they are different, and the scalar join of the relation with itself finds each tuple once
(`created_join`). `create_eth_workload_relation_fk` repeats the keys (`foreign_keys`). The swaps of `knuth_shuffle` are
with an earlier place, never with the place itself, so that of all orders only those with a single cycle come about
(`knuth_shuffle_reaches_iff`).
-/

namespace HashingArchive.Join

open HashingArchive.Library HashingArchive.Join.Parallel

/-! ### The code -/

/-- `RAND_MAX` of the C library. -/
def randMax : ℕ := 2 ^ 31 - 1

/-- `RAND_RANGE` for what `rand` yields, in doubles whose results are rounded by `rnd`, cut off to an integer. -/
def randRange (rnd : ℚ → ℚ) (rand N : ℕ) : ℕ := ⌊rnd (rnd (rand / (randMax + 1)) * rnd N)⌋₊

section
variable {T : Type}

/-- The loop of `knuth_shuffle` from place `i` down, where `j i` is what `RAND_RANGE(i)` yields. An access out of bounds
has no result. -/
def knuthShuffleFrom (j : ℕ → ℕ) : ℕ → List T → Option (List T)
  | 0, tuples => some tuples
  | i + 1, tuples =>
    if i + 1 < tuples.length ∧ j (i + 1) < tuples.length then
      knuthShuffleFrom j i (tuples.swap (i + 1) (j (i + 1)))
    else none

/-- `knuth_shuffle`. Without any tuples the counter wraps around and the first access is out of bounds. -/
def knuthShuffle (j : ℕ → ℕ) (tuples : List T) : Option (List T) :=
  if tuples = [] then none else knuthShuffleFrom j (tuples.length - 1) tuples

end

/-- `random_unique_gen`, in the two builds with `ZERO_PAYLOAD`. -/
def randomUniqueGen (zeroPayload : Bool) (j : ℕ → ℕ) (numTuples : ℕ) : Option (List Tuple) :=
  knuthShuffle j ((List.range numTuples).map fun i =>
    Tuple.mk (BitVec.ofNat 32 (i + 1)) (if zeroPayload then 0#32 else BitVec.ofNat 32 (i + 1)))

/-- `create_eth_workload_relation_pk`, with enough memory. -/
def createEthWorkloadRelationPk (zeroPayload : Bool) (rnd : ℚ → ℚ) (rand : ℕ → ℕ) (numTuples : ℕ) :
    Option (List Tuple) :=
  randomUniqueGen zeroPayload (fun i => randRange rnd (rand i) i) numTuples

/-- `create_eth_workload_relation_fk`, with enough memory. A block of the keys up to `maxid` is made `iters` times and
shuffled by itself. The division by zero and a number of blocks beyond `int32_t` have no result. -/
def createEthWorkloadRelationFk (zeroPayload : Bool) (rnd : ℚ → ℚ) (rand : ℕ → ℕ → ℕ) (numTuples maxid : ℕ) :
    Option (List Tuple) :=
  let iters := numTuples / maxid
  let remainder := numTuples % maxid
  let block (i : ℕ) := randomUniqueGen zeroPayload fun k => randRange rnd (rand i k) k
  if maxid = 0 ∨ 2 ^ 31 ≤ iters then none
  else
    ((List.range iters).mapM fun i => block i maxid).bind fun blocks =>
      if 0 < remainder then (block iters remainder).map fun last => blocks.flatten ++ last
      else some blocks.flatten

/-! ### The numbers drawn -/

/-- The result stays below `N`, which the comment on `RAND_RANGE` has among the results. -/
theorem randRange_lt {rnd : ℚ → ℚ} (hrnd : Rounds rnd 53) {rand N : ℕ} (hrand : rand ≤ randMax) (hpos : 0 < N)
    (hN : N ≤ 2 ^ 53) : randRange rnd rand N < N := by
  have hNpos : (0 : ℚ) < N := Nat.cast_pos.mpr hpos
  have hrandle : (rand : ℚ) ≤ 2 ^ 31 - 1 := by
    have hcast : (rand : ℚ) ≤ (randMax : ℕ) := Nat.cast_le.mpr hrand
    rw [randMax] at hcast
    exact hcast.trans (by norm_num)
  have hmax : (randMax : ℚ) + 1 = 2 ^ 31 := by
    rw [randMax]
    norm_num
  have hunit : (0 : ℚ) ≤ rand / 2 ^ 31 := by positivity
  have hfraction : rnd (rand / 2 ^ 31) ≤ (1 - 1 / 2 ^ 31) * (1 + 1 / 2 ^ 53) := by
    have hle : (rand : ℚ) / 2 ^ 31 ≤ 1 - 1 / 2 ^ 31 := by
      rw [div_le_iff₀ (by norm_num)]
      linarith
    have hround := hrnd.le hunit
    linarith
  have hproduct : rnd (rnd (rand / 2 ^ 31) * N) < N := by
    have hnonneg : 0 ≤ rnd (rand / 2 ^ 31) * N := mul_nonneg (hrnd.nonneg hunit) hNpos.le
    have hround := hrnd.le hnonneg
    have hmul : rnd (rand / 2 ^ 31) * N ≤ (1 - 1 / 2 ^ 31) * (1 + 1 / 2 ^ 53) * N :=
      mul_le_mul_of_nonneg_right hfraction hNpos.le
    linarith
  rw [randRange, hmax, hrnd.natCast hN]
  exact (Nat.floor_lt' hpos.ne').mpr hproduct

/-! ### What the swaps do -/

section
variable {T : Type} {j : ℕ → ℕ}

theorem knuthShuffleFrom_perm {i : ℕ} {tuples shuffled : List T} (h : knuthShuffleFrom j i tuples = some shuffled) :
    shuffled.Perm tuples := by
  induction i generalizing tuples with
  | zero => exact Option.some.inj h ▸ List.Perm.refl _
  | succ i ih =>
    rw [knuthShuffleFrom] at h
    split_ifs at h
    exact (ih h).trans (List.swap_perm _ _ _)

theorem knuthShuffle_perm {tuples shuffled : List T} (h : knuthShuffle j tuples = some shuffled) :
    shuffled.Perm tuples := by
  rw [knuthShuffle] at h
  split_ifs at h
  exact knuthShuffleFrom_perm h

theorem knuthShuffleFrom_isSome {i : ℕ} (hj : ∀ k, 0 < k → k ≤ i → j k < k) {tuples : List T}
    (hi : i < tuples.length) : ∃ shuffled, knuthShuffleFrom j i tuples = some shuffled := by
  induction i generalizing tuples with
  | zero => exact ⟨tuples, rfl⟩
  | succ i ih =>
    have hdraw := hj (i + 1) (Nat.succ_pos i) le_rfl
    rw [knuthShuffleFrom, if_pos ⟨hi, by omega⟩]
    exact ih (fun k hpos hk => hj k hpos (by omega)) (by rw [List.length_swap]; omega)

variable {n : ℕ} [NeZero n]

theorem knuthShuffleFrom_ofFn (hj : ∀ k, 0 < k → j k < k) {i : ℕ} (hi : i < n) (v : Fin n → T) :
    knuthShuffleFrom j i (List.ofFn v) = some (List.ofFn (v ∘ earlierSwaps (Fin.ofNat n) j i)) := by
  induction i generalizing v with
  | zero => rfl
  | succ i ih =>
    have hdraw := hj (i + 1) (Nat.succ_pos i)
    rw [knuthShuffleFrom, List.length_ofFn, if_pos ⟨hi, by omega⟩, ofFn_swap v hi (by omega), ih (by omega),
      earlierSwaps, Equiv.Perm.coe_mul, Function.comp_assoc]

theorem knuthShuffle_ofFn (hj : ∀ k, 0 < k → j k < k) (v : Fin n → T) :
    knuthShuffle j (List.ofFn v) = some (List.ofFn (v ∘ earlierSwaps (Fin.ofNat n) j (n - 1))) := by
  have hpos := NeZero.pos n
  rw [knuthShuffle, if_neg (by rw [← List.length_eq_zero_iff, List.length_ofFn]; omega), List.length_ofFn]
  exact knuthShuffleFrom_ofFn hj (by omega) v

end

/-! ### Which orders come about -/

/-- **The shuffle brings about the orders with a single cycle**, and no others: of several tuples none stays in its
place. -/
theorem knuth_shuffle_reaches_iff (n : ℕ) (σ : Equiv.Perm (Fin (n + 1))) :
    (∃ j : ℕ → ℕ, (∀ k, 0 < k → j k < k) ∧ ∀ (T : Type) (v : Fin (n + 1) → T),
      knuthShuffle j (List.ofFn v) = some (List.ofFn (v ∘ σ))) ↔ ∀ a b, σ.SameCycle a b := by
  rw [← earlierSwaps_reach_iff]
  refine exists_congr fun j => and_congr_right fun hj => ⟨fun hreach => ?_, fun hswaps T v => ?_⟩
  · have hplaces := hreach (Fin (n + 1)) id
    rw [knuthShuffle_ofFn hj, Option.some.injEq, List.ofFn_inj, Function.id_comp, Function.id_comp] at hplaces
    exact DFunLike.coe_injective hplaces
  · rw [knuthShuffle_ofFn hj, hswaps]

/-! ### The keys of a relation -/

/-- The keys are counted from one on, in the integers that the tuples have room for. -/
def keysUpTo (numTuples : ℕ) : List (BitVec 32) := (List.range numTuples).map fun i => BitVec.ofNat 32 (i + 1)

theorem mem_keysUpTo {numTuples : ℕ} (hfit : numTuples < 2 ^ 32) (key : BitVec 32) :
    key ∈ keysUpTo numTuples ↔ 0 < key.toNat ∧ key.toNat ≤ numTuples := by
  rw [keysUpTo, List.mem_map]
  constructor
  · rintro ⟨i, hi, rfl⟩
    rw [List.mem_range] at hi
    rw [BitVec.toNat_ofNat, Nat.mod_eq_of_lt (by omega)]
    omega
  · rintro ⟨hpos, hle⟩
    refine ⟨key.toNat - 1, List.mem_range.mpr (by omega), ?_⟩
    rw [Nat.sub_add_cancel hpos, BitVec.ofNat_toNat, BitVec.setWidth_eq]

theorem nodup_keysUpTo_iff (numTuples : ℕ) : (keysUpTo numTuples).Nodup ↔ numTuples ≤ 2 ^ 32 := by
  constructor
  · intro hnodup
    by_contra hlarge
    have hsame : BitVec.ofNat 32 (0 + 1) = BitVec.ofNat 32 (2 ^ 32 + 1) := by decide
    have heq := List.inj_on_of_nodup_map hnodup (List.mem_range.mpr (by omega)) (List.mem_range.mpr (by omega)) hsame
    omega
  · intro hfit
    refine List.Nodup.map_on (fun a ha b hb heq => ?_) List.nodup_range
    have hnat := congrArg BitVec.toNat heq
    rw [List.mem_range] at ha hb
    rw [BitVec.toNat_ofNat, BitVec.toNat_ofNat] at hnat
    omega

theorem randomUniqueGen_keys {zeroPayload : Bool} {j : ℕ → ℕ} {numTuples : ℕ} {R : List Tuple}
    (h : randomUniqueGen zeroPayload j numTuples = some R) : (R.map Tuple.key).Perm (keysUpTo numTuples) := by
  have hkeys : (Tuple.key ∘ fun i => Tuple.mk (BitVec.ofNat 32 (i + 1))
      (if zeroPayload then 0#32 else BitVec.ofNat 32 (i + 1))) = fun i => BitVec.ofNat 32 (i + 1) := by
    funext i
    exact Tuple.key_mk _ _
  have hperm := (knuthShuffle_perm h).map Tuple.key
  rwa [List.map_map, hkeys] at hperm

section
variable {rnd : ℚ → ℚ} (hrnd : Rounds rnd 53) (zeroPayload : Bool)
include hrnd

theorem exists_generated {rand : ℕ → ℕ} (hrand : ∀ i, rand i ≤ randMax) {numTuples : ℕ} (hpos : 0 < numTuples)
    (hN : numTuples ≤ 2 ^ 53) :
    ∃ R, randomUniqueGen zeroPayload (fun i => randRange rnd (rand i) i) numTuples = some R ∧
      R.length = numTuples ∧ (R.map Tuple.key).Perm (keysUpTo numTuples) := by
  obtain ⟨R, hR⟩ : ∃ R, randomUniqueGen zeroPayload (fun i => randRange rnd (rand i) i) numTuples = some R := by
    rw [randomUniqueGen, knuthShuffle, if_neg (by simp; omega)]
    refine knuthShuffleFrom_isSome (fun k hk hle => randRange_lt hrnd (hrand k) hk ?_) ?_
    · rw [List.length_map, List.length_range] at hle
      omega
    · rw [List.length_map, List.length_range]
      omega
  refine ⟨R, hR, ?_, randomUniqueGen_keys hR⟩
  rw [(knuthShuffle_perm hR).length_eq, List.length_map, List.length_range]

/-- The blocks that are made from all keys. -/
theorem exists_blocks {rand : ℕ → ℕ → ℕ} (hrand : ∀ i k, rand i k ≤ randMax) {maxid : ℕ} (hpos : 0 < maxid)
    (hN : maxid ≤ 2 ^ 53) (is : List ℕ) :
    ∃ blocks, (is.mapM fun i => randomUniqueGen zeroPayload (fun k => randRange rnd (rand i k) k) maxid) = some blocks ∧
      blocks.length = is.length ∧
      ∀ R ∈ blocks, R.length = maxid ∧ (R.map Tuple.key).Perm (keysUpTo maxid) := by
  induction is with
  | nil => exact ⟨[], rfl, rfl, fun _ h => nomatch h⟩
  | cons i is ih =>
    obtain ⟨blocks, hblocks, hlength, hall⟩ := ih
    obtain ⟨R, hR, hspec⟩ := exists_generated hrnd zeroPayload (hrand i) hpos hN
    refine ⟨R :: blocks, ?_, ?_, List.forall_mem_cons.mpr ⟨hspec, hall⟩⟩
    · rw [List.mapM_cons, hR, hblocks]
      rfl
    · rw [List.length_cons, List.length_cons, hlength]

end

/-- **The keys of a relation of foreign keys** are those from one to `maxid`, or to the number of tuples if there are
fewer. The comment on `create_eth_workload_relation_fk` has zero among them, and each of them in any case. -/
theorem foreign_keys {rnd : ℚ → ℚ} (hrnd : Rounds rnd 53) (zeroPayload : Bool) {rand : ℕ → ℕ → ℕ}
    (hrand : ∀ i k, rand i k ≤ randMax) {numTuples maxid : ℕ} (hpos : 0 < maxid) (hfit : maxid < 2 ^ 32)
    (hiters : numTuples / maxid < 2 ^ 31) :
    ∃ R, createEthWorkloadRelationFk zeroPayload rnd rand numTuples maxid = some R ∧ R.length = numTuples ∧
      ∀ key : BitVec 32, key ∈ R.map Tuple.key ↔ 0 < key.toNat ∧ key.toNat ≤ min numTuples maxid := by
  have hdiv := Nat.div_add_mod numTuples maxid
  have hmod := Nat.mod_lt numTuples hpos
  obtain ⟨blocks, hblocks, hlength, hall⟩ :=
    exists_blocks hrnd zeroPayload hrand hpos (by omega) (List.range (numTuples / maxid))
  rw [List.length_range] at hlength
  have hflatten : blocks.flatten.length = maxid * (numTuples / maxid) := by
    rw [List.length_flatten, List.map_congr_left fun R hR => (hall R hR).1, List.map_const', List.sum_replicate,
      hlength, smul_eq_mul, Nat.mul_comm]
  have hkeys (key : BitVec 32) : key ∈ blocks.flatten.map Tuple.key ↔
      0 < numTuples / maxid ∧ 0 < key.toNat ∧ key.toNat ≤ maxid := by
    rw [List.map_flatten, List.mem_flatten]
    constructor
    · rintro ⟨keys, hmem, hkey⟩
      obtain ⟨R, hR, rfl⟩ := List.mem_map.mp hmem
      exact ⟨hlength ▸ List.length_pos_of_mem hR, (mem_keysUpTo hfit key).mp ((hall R hR).2.mem_iff.mp hkey)⟩
    · rintro ⟨hsome, hkey⟩
      obtain ⟨R, hR⟩ := List.exists_mem_of_length_pos (hlength.symm ▸ hsome)
      exact ⟨_, List.mem_map_of_mem hR, (hall R hR).2.mem_iff.mpr ((mem_keysUpTo hfit key).mpr hkey)⟩
  -- With fewer tuples than keys there is no block, and otherwise the rest adds no key.
  have hrange (k : ℕ) : 0 < numTuples / maxid ∧ 0 < k ∧ k ≤ maxid ∨ 0 < k ∧ k ≤ numTuples % maxid ↔
      0 < k ∧ k ≤ min numTuples maxid := by
    rcases Nat.eq_zero_or_pos (numTuples / maxid) with hzero | hsome
    · rw [hzero] at hdiv ⊢
      omega
    · have hle : maxid ≤ maxid * (numTuples / maxid) := Nat.le_mul_of_pos_right _ hsome
      omega
  have hcond : ¬(maxid = 0 ∨ 2 ^ 31 ≤ numTuples / maxid) := by omega
  by_cases hrem : 0 < numTuples % maxid
  · obtain ⟨last, hlast, hlastlength, hlastkeys⟩ :=
      exists_generated hrnd zeroPayload (hrand (numTuples / maxid)) hrem (by omega)
    refine ⟨blocks.flatten ++ last, ?_, ?_, fun key => ?_⟩
    · simp only [createEthWorkloadRelationFk, if_neg hcond, hblocks, Option.bind_some, if_pos hrem, hlast,
        Option.map_some]
    · rw [List.length_append, hflatten, hlastlength, hdiv]
    · rw [List.map_append, List.mem_append, hkeys, hlastkeys.mem_iff, mem_keysUpTo (by omega), hrange]
  · refine ⟨blocks.flatten, ?_, by omega, fun key => ?_⟩
    · simp only [createEthWorkloadRelationFk, if_neg hcond, hblocks, Option.bind_some, if_neg hrem]
    · have hnone : ¬(0 < key.toNat ∧ key.toNat ≤ numTuples % maxid) := by omega
      rw [hkeys, ← hrange, or_iff_left hnone]

theorem foreign_keys_five : ∃ R, createEthWorkloadRelationFk true binary64 (fun _ _ => 0) 5 2 = some R ∧ R.length = 5 ∧
    ∀ key : BitVec 32, key ∈ R.map Tuple.key ↔ 0 < key.toNat ∧ key.toNat ≤ min 5 2 :=
  foreign_keys rounds_binary64 true (fun _ _ => Nat.zero_le _) (by norm_num) (by norm_num) (by norm_num)

/-! ### A created relation joined with itself -/

/-- A relation joined with itself has a match for each tuple only if the keys are different. -/
theorem sum_keyCount_self_iff (ts : List Tuple) :
    (ts.map fun t => keyCount ts t.key).sum = ts.length ↔ (ts.map Tuple.key).Nodup := by
  refine ⟨fun hsum => ?_, fun hnodup => sum_keyCount_of_nodup hnodup fun _ ht => ht⟩
  have hcount (t : Tuple) : keyCount ts t.key = (ts.map Tuple.key).count t.key := by
    rw [List.count_eq_countP, List.countP_map, keyCount]
    refine List.countP_congr fun x _ => ?_
    rw [decide_eq_true_iff, Function.comp_apply, beq_iff_eq]
    exact eq_comm
  rw [List.nodup_iff_count_le_one]
  intro key
  by_contra hmore
  obtain ⟨t, ht, rfl⟩ := List.mem_map.mp (List.count_pos_iff.mp (Nat.lt_trans Nat.one_pos (not_le.mp hmore)))
  have hlt : (ts.map fun _ => 1).sum < (ts.map fun t => keyCount ts t.key).sum := by
    refine List.sum_lt_sum _ _ (fun x hx => ?_) ⟨t, ht, by rw [hcount]; exact not_le.mp hmore⟩
    rw [hcount]
    exact List.count_pos_iff.mpr (List.mem_map_of_mem hx)
  rw [hsum, List.map_const', List.sum_replicate, smul_eq_mul, Nat.mul_one] at hlt
  exact lt_irrefl _ hlt

/-- **The scalar join of a created relation with itself finds each tuple once**, and nothing else, exactly if the keys
have room in their type. The probe looks at all tuples of a bucket: `SINGLE_TUPLE_PER_BUCKET` is not defined. -/
theorem created_join {rnd : ℚ → ℚ} (hrnd : Rounds rnd 53) (zeroPayload : Bool) {rand : ℕ → ℕ}
    (hrand : ∀ i, rand i ≤ randMax) {numTuples : ℕ} (hpos : 0 < numTuples) (hN : numTuples ≤ 2 ^ 53) :
    ∃ R, createEthWorkloadRelationPk zeroPayload rnd rand numTuples = some R ∧
      ∀ {T B n : ℕ}, 0 < T → 0 < B → ∀ (idx : BitVec 32 → Fin n) (garbage : Fin T → ℕ → ℕ → Parallel.Bucket (Fin T) n)
        (s : System (Fin T) (Shared (Fin T) n) (Ctrl (Fin T) n)),
        System.Reachable (hashThreadScalar B false idx (part T R)) (start (part T R) garbage) s → Finished s →
          (∑ t, (s.threads t).numResults = numTuples ↔ numTuples ≤ 2 ^ 32) := by
  obtain ⟨R, hR, hlength, hkeys⟩ := exists_generated hrnd zeroPayload hrand hpos hN
  have hself := sum_keyCount_self_iff R
  rw [hlength, hkeys.nodup_iff, nodup_keysUpTo_iff] at hself
  refine ⟨R, hR, fun hT hB idx garbage s hs hfinished => ?_⟩
  rwa [sum_numResults_eq hT hB hs hfinished]

theorem created_join_three : ∃ R, createEthWorkloadRelationPk false binary64 (fun _ => 0) 3 = some R ∧
    ∀ {T B n : ℕ}, 0 < T → 0 < B → ∀ (idx : BitVec 32 → Fin n) (garbage : Fin T → ℕ → ℕ → Parallel.Bucket (Fin T) n)
      (s : System (Fin T) (Shared (Fin T) n) (Ctrl (Fin T) n)),
      System.Reachable (hashThreadScalar B false idx (part T R)) (start (part T R) garbage) s → Finished s →
        (∑ t, (s.threads t).numResults = 3 ↔ 3 ≤ 2 ^ 32) :=
  created_join rounds_binary64 false (fun _ => Nat.zero_le _) (by norm_num) (by norm_num)

end HashingArchive.Join
