import HashingArchive.Join.LearnedTraining
import HashingArchive.Join.Sampling

/-!
# The learned join: the training sample

One thread samples the relation into a buffer and sorts the buffer as 64-bit integers, up to but without the last
element. So the training sample is the sorted distribution of the sampled keys exactly when the last sampled tuple has
the largest of them (`training_sample_sorted_iff`).
-/

namespace HashingArchive.Join.Learned

open HashingArchive.Library HashingArchive.Join.Sampling

/-! ### The code -/

/-- `std::sort` on the first `n` elements, read as `int64_t`. -/
def sortFirst (n : ℕ) (l : List Tuple) : List Tuple :=
  (l.take n).mergeSort (fun t t' => decide (t.toInt ≤ t'.toInt)) ++ l.drop n

/-- The buffer after the writes of one thread, over whatever memory held. -/
def tmpTrainingSample (memory : ℕ → Tuple) (rel : List Tuple) (writes : List (ℕ × ℕ)) : ℕ → Tuple :=
  writes.foldl (fun buffer w => Function.update buffer w.1 (rel.getD w.2 0)) memory

/-- The training sample of a run with one thread. -/
def trainingSample (rate : ℕ → ℕ) (memory : ℕ → Tuple) (rel : List Tuple) : Option (List Tuple) := do
  let (writes, total_sample_count) ← sampling rate 1 rel.length
  let tmp_training_sample := tmpTrainingSample memory rel writes.flatten
  return sortFirst (total_sample_count - 1) ((List.range total_sample_count).map tmp_training_sample)

/-! ### What training assumes of it -/

/-- The sampled tuples, in the order of the relation. -/
def sampled (rel : List Tuple) (writes : List (List (ℕ × ℕ))) : List Tuple :=
  writes.flatten.map fun w => rel.getD w.2 0

/-- The training sample is the sorted distribution of the sampled tuples: a permutation in the order of the keys, with
the smallest and the largest key at its ends, and with the predictions of the root model for all of them in range. -/
structure SortedDistribution (arch1 : BitVec 32) (sampled training_sample : List Tuple) : Prop where
  perm : training_sample.Perm sampled
  sorted : training_sample.Pairwise fun t t' => t.key.toNat ≤ t'.key.toNat
  ends : ∀ first last, training_sample.head? = some first → training_sample.getLast? = some last →
    ∀ t ∈ sampled, first.key.toNat ≤ t.key.toNat ∧ t.key.toNat ≤ last.key.toNat
  range : ∀ root, trainRoot arch1 training_sample = some root → ∀ t ∈ sampled,
    0 ≤ root.slope * t.key.toNat + root.intercept ∧
      root.slope * t.key.toNat + root.intercept ≤ ((arch1.toNat - 1 : ℕ) : ℚ)

/-! ### The buffer -/

theorem tmpTrainingSample_eq (memory : ℕ → Tuple) (rel : List Tuple) (tuple : ℕ → ℕ) (m : ℕ) :
    (List.range m).map (tmpTrainingSample memory rel ((List.range m).map fun k => (k, tuple k))) =
      (List.range m).map fun k => rel.getD (tuple k) 0 := by
  induction m with
  | zero => rfl
  | succ m ih =>
    rw [List.range_succ, List.map_append, List.map_append, List.map_append, ← ih]
    have hbuffer : tmpTrainingSample memory rel
        ((List.range m).map (fun k => (k, tuple k)) ++ [m].map fun k => (k, tuple k)) =
        Function.update (tmpTrainingSample memory rel ((List.range m).map fun k => (k, tuple k))) m
          (rel.getD (tuple m) 0) := by
      rw [tmpTrainingSample, List.foldl_append]
      rfl
    rw [hbuffer]
    congr 1
    · apply List.map_congr_left
      intro k hk
      rw [Function.update_of_ne (List.mem_range.mp hk).ne]
    · simp

/-- The writes of one thread, if they fit the buffer: every `offset_R`-th tuple, from position zero on. -/
theorem writes_eq {rate : ℕ → ℕ} {n total : ℕ} {writes : List (List (ℕ × ℕ))}
    (hrun : sampling rate 1 n = some (writes, total))
    (hfit : ∀ thread ∈ writes, ∀ w ∈ thread, w.1 < allocated rate n) :
    ∃ m, 0 < m ∧ total = m ∧ writes.flatten = (List.range m).map fun k => (k, offsetR rate n * k) := by
  have hstride : 0 < offsetR rate n := by
    by_contra hno
    rw [sampling_eq_none Nat.one_pos hno] at hrun
    exact absurd hrun (by simp)
  rw [sampling_eq hstride] at hrun
  obtain ⟨rfl, rfl⟩ := Prod.mk.inj (Option.some.inj hrun)
  have hallocated : sampleSzR rate n < 2 ^ 32 := Nat.mod_lt _ (by norm_num)
  have hpos : 0 < samples rate 1 n 0 := by
    have hn := (offsetR_pos_iff rate n).mp hstride
    have hsamples : samples rate 1 n 0 = steps n (offsetR rate n) := by simp [samples, threadArgs]
    rw [hsamples, lt_steps_iff hstride]
    omega
  have hbound := length_le_of_inside (fun i k => n / 1 * i + offsetR rate n * k) hallocated hpos
    (hfit _ (mem_blocks.mpr ⟨0, Nat.one_pos, rfl⟩))
  change _ ∧ _ ≤ sampleSzR rate n at hbound
  refine ⟨samples rate 1 n 0, hpos, ?_, ?_⟩
  · rw [Finset.sum_range_one, Nat.mod_eq_of_lt (by omega)]
  · rw [blocks, List.range_one, List.map_singleton, List.flatten_singleton, List.range_eq_range']
    apply List.map_congr_left
    intro k hk
    have hk := (List.mem_range'_1.mp hk).2
    rw [Nat.mul_zero, Nat.mul_zero, Nat.zero_add, Nat.zero_add, Nat.mod_eq_of_lt (by omega)]

/-- What one thread has in its buffer, if it fits: the sampled tuples, sorted up to the last one. -/
theorem trainingSample_eq {rate : ℕ → ℕ} (memory : ℕ → Tuple) (rel : List Tuple) {writes : List (List (ℕ × ℕ))}
    {total : ℕ} (hrun : sampling rate 1 rel.length = some (writes, total))
    (hfit : ∀ thread ∈ writes, ∀ w ∈ thread, w.1 < allocated rate rel.length) : sampled rel writes ≠ [] ∧
      trainingSample rate memory rel =
        some (sortFirst ((sampled rel writes).length - 1) (sampled rel writes)) := by
  obtain ⟨m, hpos, rfl, hwrites⟩ := writes_eq hrun hfit
  have hsampled : sampled rel writes = (List.range total).map fun k => rel.getD (offsetR rate rel.length * k) 0 := by
    rw [sampled, hwrites, List.map_map]
    rfl
  have hlength : (sampled rel writes).length = total := by rw [hsampled, List.length_map, List.length_range]
  refine ⟨fun hnil => ?_, ?_⟩
  · rw [hnil] at hlength
    exact absurd hlength hpos.ne
  · rw [trainingSample, hrun, hlength, hsampled, ← tmpTrainingSample_eq memory, ← hwrites]
    rfl

/-! ### The sort -/

/-- All but the last element are sorted. -/
theorem sortFirst_concat (before : List Tuple) (last : Tuple) : ∃ sorted, sorted.Perm before ∧
    sorted.Pairwise (fun t t' => t.toInt ≤ t'.toInt) ∧
      sortFirst ((before ++ [last]).length - 1) (before ++ [last]) = sorted ++ [last] := by
  refine ⟨before.mergeSort fun t t' => decide (t.toInt ≤ t'.toInt), List.mergeSort_perm _ _, ?_, ?_⟩
  · have htrans : ∀ a b c : Tuple, decide (a.toInt ≤ b.toInt) → decide (b.toInt ≤ c.toInt) →
        decide (a.toInt ≤ c.toInt) :=
      fun a b c hab hbc => decide_eq_true ((of_decide_eq_true hab).trans (of_decide_eq_true hbc))
    have htotal : ∀ a b : Tuple, decide (a.toInt ≤ b.toInt) || decide (b.toInt ≤ a.toInt) :=
      fun a b => by simpa using le_total a.toInt b.toInt
    exact (List.pairwise_mergeSort htrans htotal before).imp of_decide_eq_true
  · rw [List.length_append, List.length_singleton, Nat.add_sub_cancel, sortFirst, List.take_left, List.drop_left]

/-- A sorted sample has its smallest and largest key at its ends, and the predictions are in range. -/
theorem SortedDistribution.of_sorted {arch1 : BitVec 32} (hM : 1 ≤ arch1.toNat) {sampled training_sample : List Tuple}
    (hperm : training_sample.Perm sampled)
    (hsorted : training_sample.Pairwise fun t t' => t.key.toNat ≤ t'.key.toNat) :
    SortedDistribution arch1 sampled training_sample := by
  refine ⟨hperm, hsorted, fun first last hhead hlast t ht => ?_, fun root hroot t ht => ?_⟩
  · have ht := hperm.mem_iff.mpr ht
    exact ⟨key_head_le hsorted hhead ht, key_le_getLast hsorted hlast ht⟩
  · have ht := hperm.mem_iff.mpr ht
    obtain ⟨first, hhead⟩ := Option.isSome_iff_exists.mp (List.isSome_head?.mpr (List.ne_nil_of_mem ht))
    obtain ⟨last, hlast⟩ := Option.isSome_iff_exists.mp (List.getLast?_isSome.mpr (List.ne_nil_of_mem ht))
    have hne : first.key ≠ last.key := by
      intro heq
      rw [trainRoot, hhead, hlast] at hroot
      simp [heq] at hroot
    have h : Sorted training_sample first last := ⟨hsorted, hne, hhead, hlast⟩
    obtain rfl := Option.some.inj ((trainRoot_eq h).symm.trans hroot)
    refine ⟨?_, rootModel_le hM h.lt (h.first_le ht) (h.le_last ht)⟩
    rw [rootModel_apply hM h.lt (h.first_le ht)]
    positivity

/-- The sort of the buffer gives the sorted distribution if the last sampled tuple has the largest key, and only
then. -/
theorem sortedDistribution_iff {arch1 : BitVec 32} (hM : 1 ≤ arch1.toNat) {l : List Tuple} (hne : l ≠ [])
    (hpayload : ∀ t ∈ l, ∃ key, t = Tuple.mk key 0) :
    SortedDistribution arch1 l (sortFirst (l.length - 1) l) ↔
      ∀ last, l.getLast? = some last → ∀ t ∈ l, t.key.toNat ≤ last.key.toNat := by
  obtain ⟨before, last, rfl⟩ := (List.eq_nil_or_concat' l).resolve_left hne
  obtain ⟨sorted, hperm, hsorted, hsort⟩ := sortFirst_concat before last
  have htoInt : ∀ t ∈ sorted, t.toInt = t.key.toNat := by
    intro t ht
    obtain ⟨key, rfl⟩ := hpayload t (List.mem_append_left _ (hperm.mem_iff.mp ht))
    rw [toInt_mk_zero, Tuple.key_mk]
  rw [hsort, List.getLast?_concat]
  constructor
  · intro h last' hlast' t ht
    obtain rfl := Option.some.inj hlast'
    exact key_le_getLast h.sorted List.getLast?_concat (h.perm.mem_iff.mpr ht)
  · intro hle
    apply SortedDistribution.of_sorted hM (hperm.append_right _)
    refine List.pairwise_append.mpr ⟨?_, List.pairwise_singleton _ _, fun t ht t' ht' => ?_⟩
    · refine hsorted.imp_of_mem fun ht ht' hle => ?_
      rw [htoInt _ ht, htoInt _ ht'] at hle
      exact Int.ofNat_le.mp hle
    · rw [List.mem_singleton.mp ht']
      exact hle last rfl t (List.mem_append_left _ (hperm.mem_iff.mp ht))

theorem payload_sampled {rel : List Tuple} (hpayload : ∀ t ∈ rel, ∃ key, t = Tuple.mk key 0)
    (writes : List (List (ℕ × ℕ))) : ∀ t ∈ sampled rel writes, ∃ key, t = Tuple.mk key 0 := by
  intro t ht
  obtain ⟨w, -, rfl⟩ := List.mem_map.mp ht
  rcases Nat.lt_or_ge w.2 rel.length with hlt | hge
  · rw [List.getD_eq_getElem _ _ hlt]
    exact hpayload _ (List.getElem_mem hlt)
  · exact ⟨0, by rw [List.getD_eq_default _ _ hge]; rfl⟩

/-- **When the training sample is the sorted distribution of the sampled keys**, with one thread, payloads zero and a
buffer that the samples fit into: exactly when the last sampled tuple has the largest sampled key. -/
theorem training_sample_sorted_iff (rate : ℕ → ℕ) (memory : ℕ → Tuple) (rel : List Tuple) (arch1 : BitVec 32)
    (hM : 1 ≤ arch1.toNat) (hpayload : ∀ t ∈ rel, ∃ key, t = Tuple.mk key 0) {writes : List (List (ℕ × ℕ))} {total : ℕ}
    (hrun : sampling rate 1 rel.length = some (writes, total))
    (hfit : ∀ thread ∈ writes, ∀ w ∈ thread, w.1 < allocated rate rel.length) :
    ∃ training_sample, trainingSample rate memory rel = some training_sample ∧
      (SortedDistribution arch1 (sampled rel writes) training_sample ↔
        ∀ last, (sampled rel writes).getLast? = some last →
          ∀ t ∈ sampled rel writes, t.key.toNat ≤ last.key.toNat) := by
  obtain ⟨hne, hsample⟩ := trainingSample_eq memory rel hrun hfit
  exact ⟨_, hsample, sortedDistribution_iff hM hne (payload_sampled hpayload writes)⟩

/-- Two tuples are two samples. -/
theorem sampling_two : sampling (fun n => n / 100) 1 2 = some ([[(0, 0), (1, 1)]], 2) := by
  rw [sampling_eq (by decide)]
  rfl

theorem fits_two : ∀ thread ∈ [[(0, 0), (1, 1)]], ∀ w ∈ thread, w.1 < allocated (fun n => n / 100) 2 := by
  decide

theorem payload_two (k k' : BitVec 32) : ∀ t ∈ [Tuple.mk k 0, Tuple.mk k' 0], ∃ key, t = Tuple.mk key 0 := by
  simp only [List.mem_cons, List.not_mem_nil, or_false, forall_eq_or_imp, forall_eq]
  exact ⟨⟨k, rfl⟩, ⟨k', rfl⟩⟩

/-- The keys `1` and `0` are left in this order. -/
theorem training_sample_not_sorted :
    let rel := [Tuple.mk 1 0, Tuple.mk 0 0]
    ∃ training_sample, trainingSample (fun n => n / 100) (fun _ => 7) rel = some training_sample ∧
      ¬SortedDistribution 2 (sampled rel [[(0, 0), (1, 1)]]) training_sample := by
  intro rel
  obtain ⟨hne, hsample⟩ := trainingSample_eq (fun _ => 7) rel sampling_two fits_two
  refine ⟨_, hsample, fun h => ?_⟩
  rw [sortedDistribution_iff (by decide) hne (payload_two 1 0)] at h
  exact absurd (h (Tuple.mk 0 0) rfl (Tuple.mk 1 0) List.mem_cons_self) (by decide)

/-- The keys `0` and `1` are sorted already. -/
theorem training_sample_sorted_two :
    let rel := [Tuple.mk 0 0, Tuple.mk 1 0]
    ∃ training_sample, trainingSample (fun n => n / 100) (fun _ => 7) rel = some training_sample ∧
      SortedDistribution 2 (sampled rel [[(0, 0), (1, 1)]]) training_sample := by
  intro rel
  obtain ⟨training_sample, hsample, hiff⟩ :=
    training_sample_sorted_iff (fun n => n / 100) (fun _ => 7) rel 2 (by decide)
    (payload_two 0 1) sampling_two fits_two
  have hsampled : sampled rel [[(0, 0), (1, 1)]] = [Tuple.mk 0 0, Tuple.mk 1 0] := rfl
  refine ⟨training_sample, hsample, hiff.mpr fun last hlast => ?_⟩
  rw [hsampled] at hlast ⊢
  obtain rfl : last = Tuple.mk 1 0 := (Option.some.inj hlast).symm
  simp [Tuple.key_mk]

end HashingArchive.Join.Learned
