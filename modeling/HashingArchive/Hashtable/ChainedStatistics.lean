import HashingArchive.Hashtable.ChainedRuns

/-!
# `lookup_statistics` of `Chained`

The walk over the directory and its chains counts what is empty. It passes over the chain of an empty directory
slot, and there is none (`Inv.opened`), so what it does not count as empty is what the table holds, and that is
one slot for every insert that returned `true` since the last clear (`chained_statistics`).
-/

namespace HashingArchive.Hashtable.Chained

open HashingArchive.Library HashingArchive.Loop

/-! ### The code -/

/-- The local variables of `lookup_statistics`. They count objects in memory, which there are fewer of than
`size_t` has values. -/
structure Statistics where
  maxChainLength : ℕ
  minChainLength : ℕ
  emptyBuckets : ℕ
  additionalBuckets : ℕ
  emptyAdditionalSlots : ℕ

/-- The counters before the first slot, with `min_chain_length` at `std::numeric_limits<size_t>::max()`. -/
def Statistics.zero : Statistics where
  maxChainLength := 0
  minChainLength := 2 ^ 64 - 1
  emptyBuckets := 0
  additionalBuckets := 0
  emptyAdditionalSlots := 0

section
variable {Key Hash Payload : Type} [DecidableEq Key] (c : Config Key Hash Payload)

/-- One bucket of a chain. -/
def walkBucket (x : ℕ × Statistics) (b : Bucket c) : ℕ × Statistics :=
  (x.1 + 1,
    { x.2 with
      additionalBuckets := x.2.additionalBuckets + 1
      emptyAdditionalSlots := (List.finRange c.bucketSize).foldl
        (fun n i => n + if (b i).key = c.sentinel then 1 else 0) x.2.emptyAdditionalSlots })

/-- One slot of the directory and its chain. -/
def walkSlot (s : Statistics) (slot : FirstLevelSlot c) : Statistics :=
  if slot.key = c.sentinel then { s with emptyBuckets := s.emptyBuckets + 1 }
  else
    let (chainLength, s) := slot.buckets.foldl (walkBucket c) (0, s)
    { s with
      minChainLength := min s.minChainLength chainLength
      maxChainLength := max s.maxChainLength chainLength }

def lookupStatistics (t : Table c) (_dataset : List Key) : Statistics :=
  (List.finRange c.directorySize).foldl (fun s b => walkSlot c s (t b)) .zero

end

/-! ### What the walk counts -/

variable {Key Hash Payload : Type} [DecidableEq Key] {c : Config Key Hash Payload}

/-- The empty slots of a bucket. -/
def emptySlots (b : Bucket c) : ℕ := ∑ i, if (b i).key = c.sentinel then 1 else 0

/-- The occupied slots of a bucket. -/
def occupiedSlots (b : Bucket c) : ℕ := ∑ i, if (b i).key = c.sentinel then 0 else 1

theorem occupiedSlots_add_emptySlots (b : Bucket c) : occupiedSlots b + emptySlots b = c.bucketSize := by
  have hslot : ∀ i, ((if (b i).key = c.sentinel then 0 else 1) + if (b i).key = c.sentinel then 1 else 0) = 1 := by
    intro i
    split_ifs <;> rfl
  rw [occupiedSlots, emptySlots, ← Finset.sum_add_distrib, Finset.sum_congr rfl fun i _ => hslot i]
  simp

theorem walkBucket_emptyAdditionalSlots (x : ℕ × Statistics) (b : Bucket c) :
    (walkBucket c x b).2.emptyAdditionalSlots = x.2.emptyAdditionalSlots + emptySlots b := by
  rw [emptySlots, Fin.sum_univ_def]
  exact foldl_add (f := id) (fun _ _ => rfl) _ _

/-- What the walk along a chain adds to the counters. -/
theorem foldl_walkBucket (chain : List (Bucket c)) (n : ℕ) (s : Statistics) :
    chain.foldl (walkBucket c) (n, s) =
      (n + chain.length,
        { s with
          additionalBuckets := s.additionalBuckets + chain.length
          emptyAdditionalSlots := s.emptyAdditionalSlots + (chain.map emptySlots).sum }) := by
  induction chain generalizing n s with
  | nil => rfl
  | cons b chain ih =>
    have hslots := walkBucket_emptyAdditionalSlots (n, s) b
    rw [List.foldl_cons, walkBucket, ih]
    rw [walkBucket] at hslots
    dsimp only at hslots ⊢
    rw [hslots, List.map_cons, List.sum_cons, List.length_cons, Nat.add_assoc, Nat.add_assoc, Nat.add_assoc,
      Nat.add_comm 1]

theorem walkSlot_eq (s : Statistics) (slot : FirstLevelSlot c) : walkSlot c s slot =
    if slot.key = c.sentinel then { s with emptyBuckets := s.emptyBuckets + 1 }
    else
      { maxChainLength := max s.maxChainLength slot.buckets.length
        minChainLength := min s.minChainLength slot.buckets.length
        emptyBuckets := s.emptyBuckets
        additionalBuckets := s.additionalBuckets + slot.buckets.length
        emptyAdditionalSlots := s.emptyAdditionalSlots + (slot.buckets.map emptySlots).sum } := by
  unfold walkSlot
  rw [foldl_walkBucket, Nat.zero_add]

section
variable (t : Table c) (dataset : List Key)

/-- A counter of `lookup_statistics` as a sum over the directory. -/
theorem lookupStatistics_sum (f : Statistics → ℕ) (g : FirstLevelSlot c → ℕ) (hzero : f .zero = 0)
    (hslot : ∀ s slot, f (walkSlot c s slot) = f s + g slot) :
    f (lookupStatistics c t dataset) = ∑ b, g (t b) := by
  rw [lookupStatistics, foldl_add (fun s b => hslot s (t b)), hzero, Nat.zero_add, Fin.sum_univ_def]

theorem emptyBuckets_eq : (lookupStatistics c t dataset).emptyBuckets =
    ∑ b, if (t b).key = c.sentinel then 1 else 0 := by
  apply lookupStatistics_sum t dataset Statistics.emptyBuckets fun slot => if slot.key = c.sentinel then 1 else 0
  · rfl
  · intro s slot
    rw [walkSlot_eq]
    split_ifs <;> rfl

theorem additionalBuckets_eq (hopened : ∀ b, (t b).key = c.sentinel → (t b).buckets = []) :
    (lookupStatistics c t dataset).additionalBuckets = ∑ b, (t b).buckets.length := by
  rw [lookupStatistics_sum t dataset Statistics.additionalBuckets
    (fun slot => if slot.key = c.sentinel then 0 else slot.buckets.length) rfl]
  · apply Finset.sum_congr rfl
    intro b _
    split_ifs with hb
    · rw [hopened b hb, List.length_nil]
    · rfl
  · intro s slot
    rw [walkSlot_eq]
    split_ifs <;> rfl

theorem emptyAdditionalSlots_eq (hopened : ∀ b, (t b).key = c.sentinel → (t b).buckets = []) :
    (lookupStatistics c t dataset).emptyAdditionalSlots = ∑ b, ((t b).buckets.map emptySlots).sum := by
  rw [lookupStatistics_sum t dataset Statistics.emptyAdditionalSlots
    (fun slot => if slot.key = c.sentinel then 0 else (slot.buckets.map emptySlots).sum) rfl]
  · apply Finset.sum_congr rfl
    intro b _
    split_ifs with hb
    · rw [hopened b hb, List.map_nil, List.sum_nil]
    · rfl
  · intro s slot
    rw [walkSlot_eq]
    split_ifs <;> rfl

theorem maxChainLength_le_iff (m : ℕ) : (lookupStatistics c t dataset).maxChainLength ≤ m ↔
    ∀ b, (t b).key ≠ c.sentinel → (t b).buckets.length ≤ m := by
  refine (foldl_iff (P := fun s : Statistics => s.maxChainLength ≤ m)
    (Q := fun b => (t b).key ≠ c.sentinel → (t b).buckets.length ≤ m) (fun s b => ?_) _ _).trans ?_
  · rw [walkSlot_eq]
    split_ifs with hb <;> simp [hb]
  · simp [Statistics.zero]

theorem le_minChainLength_iff (m : ℕ) : m ≤ (lookupStatistics c t dataset).minChainLength ↔
    m < 2 ^ 64 ∧ ∀ b, (t b).key ≠ c.sentinel → m ≤ (t b).buckets.length := by
  refine (foldl_iff (P := fun s : Statistics => m ≤ s.minChainLength)
    (Q := fun b => (t b).key ≠ c.sentinel → m ≤ (t b).buckets.length) (fun s b => ?_) _ _).trans ?_
  · rw [walkSlot_eq]
    split_ifs with hb <;> simp [hb]
  · have hzero : m ≤ Statistics.zero.minChainLength ↔ m < 2 ^ 64 := Nat.le_sub_one_iff_lt (by norm_num)
    simp [hzero]

end

/-! ### What an insert adds -/

theorem occupiedSlots_update {b : Bucket c} {i : Fin c.bucketSize} (hempty : (b i).key = c.sentinel)
    {key : Key} (hkey : key ≠ c.sentinel) (payload : Payload) :
    occupiedSlots (Function.update b i { key := key, payload := payload }) = occupiedSlots b + 1 := by
  have hrest : ∑ i' ∈ Finset.univ.erase i, (if (Function.update b i { key := key, payload := payload } i').key =
      c.sentinel then 0 else 1) = ∑ i' ∈ Finset.univ.erase i, (if (b i').key = c.sentinel then 0 else 1) := by
    refine Finset.sum_congr rfl fun i' hi' => ?_
    rw [Function.update_of_ne (Finset.ne_of_mem_erase hi')]
  rw [occupiedSlots, occupiedSlots, ← Finset.sum_erase_add _ _ (Finset.mem_univ i), hrest,
    ← Finset.sum_erase_add _ _ (Finset.mem_univ i), Function.update_self, if_neg hkey, if_pos hempty, Nat.add_zero]

theorem occupiedSlots_newBucket {key : Key} (hkey : key ≠ c.sentinel) (payload : Payload) :
    occupiedSlots (newBucket c key payload) = 1 := by
  rw [newBucket, occupiedSlots_update rfl hkey]
  simp [occupiedSlots]

/-- The occupied slots of a chain. -/
def chainSlots (chain : List (Bucket c)) : ℕ := (chain.map occupiedSlots).sum

@[simp] theorem chainSlots_nil : chainSlots ([] : List (Bucket c)) = 0 := rfl

@[simp] theorem chainSlots_cons (b : Bucket c) (next : List (Bucket c)) :
    chainSlots (b :: next) = occupiedSlots b + chainSlots next := rfl

/-- An insert into a chain fills a slot if it returns `true`. -/
theorem chainSlots_insertChain {key : Key} (hkey : key ≠ c.sentinel) (payload : Payload) (chain : List (Bucket c)) :
    chainSlots (insertChain c key payload chain).2 =
      chainSlots chain + if (insertChain c key payload chain).1 then 1 else 0 := by
  induction chain with
  | nil => exact occupiedSlots_newBucket hkey payload
  | cons b next ih =>
    rcases insertBucket_cases key payload b with ⟨i, hempty, -, hscan⟩ | ⟨-, hscan⟩ | ⟨-, hscan⟩ <;>
      rw [insertChain, hscan]
    · rw [chainSlots_cons, chainSlots_cons, occupiedSlots_update hempty hkey, if_pos rfl, Nat.add_right_comm]
    · rfl
    · dsimp only
      rw [chainSlots_cons, chainSlots_cons, ih, Nat.add_assoc]

/-- The occupied slots of one directory slot and its chain. -/
def slotSize (slot : FirstLevelSlot c) : ℕ := (if slot.key = c.sentinel then 0 else 1) + chainSlots slot.buckets

/-- The occupied slots of the table. -/
def size (t : Table c) : ℕ := ∑ b, slotSize (t b)

theorem size_clear (t : Table c) : size (clear c t) = 0 :=
  Finset.sum_eq_zero fun b _ => by simp [slotSize, clear]

/-- A directory slot that gets larger makes the table larger. -/
theorem size_update {t : Table c} {b : Fin c.directorySize} {slot : FirstLevelSlot c} {n : ℕ}
    (hslot : slotSize slot = slotSize (t b) + n) : size (Function.update t b slot) = size t + n := by
  have hrest : ∑ b' ∈ Finset.univ.erase b, slotSize (Function.update t b slot b') =
      ∑ b' ∈ Finset.univ.erase b, slotSize (t b') := by
    refine Finset.sum_congr rfl fun b' hb' => ?_
    rw [Function.update_of_ne (Finset.ne_of_mem_erase hb')]
  rw [size, size, ← Finset.sum_erase_add _ _ (Finset.mem_univ b), hrest,
    ← Finset.sum_erase_add _ (fun b' => slotSize (t b')) (Finset.mem_univ b), Function.update_self,
    hslot, Nat.add_assoc]

/-- The insert was accepted: it returned `true`. -/
def returnedTrue : Outcome Bool → Bool
  | .value b => b
  | _ => false

theorem size_insert (t : Table c) {key : Key} (hkey : key ≠ c.sentinel) (payload : Payload) :
    size (insert c t key payload).2 = size t + if returnedTrue (insert c t key payload).1 then 1 else 0 := by
  unfold insert
  rw [if_neg hkey]
  dsimp only
  by_cases hdir : (t (c.home key)).key = c.sentinel
  · rw [if_pos hdir]
    apply size_update
    simp only [slotSize, if_pos hdir, if_neg hkey, returnedTrue, if_true]
    omega
  · rw [if_neg hdir]
    apply size_update
    simp only [slotSize, if_neg hdir, chainSlots_insertChain hkey, returnedTrue]
    exact (Nat.add_assoc _ _ _).symm

/-- The run lemma: the table holds one entry for every insert that returned `true` since the last clear. -/
theorem size_run (memory : Table c) (ops : List (Op Key Payload)) (hops : ∀ op ∈ ops, op.Avoids (· = c.sentinel)) :
    size ((store c).run (clear c memory) ops).2 =
      acceptedInserts returnedTrue ((store c).run (clear c memory) ops).1 := by
  refine Store.run_induction (·.Avoids (· = c.sentinel))
    (fun h t => size t = acceptedInserts returnedTrue h) (size_clear memory) ?_ ops hops
  intro h t op hop hsize
  cases op with
  | lookup k => exact hsize
  | clear => exact size_clear t
  | insert key payload =>
    have hkey : key ≠ c.sentinel := hop
    have hinsert := size_insert t hkey payload
    rw [hsize] at hinsert
    exact hinsert

/-! ### The statistics -/

/-- What the walk counts as empty and what the table holds are all its slots. -/
theorem size_eq (t : Table c) (dataset : List Key) (hopened : ∀ b, (t b).key = c.sentinel → (t b).buckets = []) :
    (c.directorySize - (lookupStatistics c t dataset).emptyBuckets : ℤ) +
        (lookupStatistics c t dataset).additionalBuckets * c.bucketSize -
      (lookupStatistics c t dataset).emptyAdditionalSlots = size t := by
  have hdirectory : (∑ b, if (t b).key = c.sentinel then 0 else 1) + (∑ b, if (t b).key = c.sentinel then 1 else 0) =
      c.directorySize := by
    rw [← Finset.sum_add_distrib, Finset.sum_congr rfl fun b _ => show _ = 1 by split_ifs <;> rfl]
    simp
  have hchain : ∀ chain : List (Bucket c),
      chainSlots chain + (chain.map emptySlots).sum = chain.length * c.bucketSize := by
    intro chain
    induction chain with
    | nil => simp
    | cons b next ih =>
      have hb := occupiedSlots_add_emptySlots b
      rw [chainSlots_cons, List.map_cons, List.sum_cons, List.length_cons, Nat.succ_mul]
      omega
  have hchains : (∑ b, chainSlots (t b).buckets) + (∑ b, ((t b).buckets.map emptySlots).sum) =
      (∑ b, (t b).buckets.length) * c.bucketSize := by
    rw [← Finset.sum_add_distrib, Finset.sum_mul]
    exact Finset.sum_congr rfl fun b _ => hchain _
  have hsize : size t = (∑ b, if (t b).key = c.sentinel then 0 else 1) + ∑ b, chainSlots (t b).buckets := by
    rw [← Finset.sum_add_distrib]
    rfl
  rw [emptyBuckets_eq, additionalBuckets_eq t dataset hopened, emptyAdditionalSlots_eq t dataset hopened, hsize]
  zify at hdirectory hchains
  push_cast
  linarith

/-- **The statistics account for every entry**: along any run from a fresh table, what is not counted as empty is
the number of inserts that returned `true` since the last clear, and the figures about chains are about all
chains. -/
theorem chained_statistics (c : Config Key Hash Payload) (memory : Table c) (ops : List (Op Key Payload))
    (hops : ∀ op ∈ ops, op.Avoids (· = c.sentinel)) (dataset : List Key) :
    let h := ((store c).run (clear c memory) ops).1
    let t := ((store c).run (clear c memory) ops).2
    let s := lookupStatistics c t dataset
    (c.directorySize - s.emptyBuckets : ℤ) + s.additionalBuckets * c.bucketSize - s.emptyAdditionalSlots =
        acceptedInserts returnedTrue h ∧
      s.additionalBuckets = ∑ b, (t b).buckets.length ∧
      s.maxChainLength = Finset.univ.sup (fun b => (t b).buckets.length) ∧
      ((∃ b, (t b).key ≠ c.sentinel) → (∀ b, (t b).buckets.length < 2 ^ 64) →
        IsLeast {n | ∃ b, (t b).key ≠ c.sentinel ∧ (t b).buckets.length = n} s.minChainLength) := by
  intro h t s
  have hopened : ∀ b, (t b).key = c.sentinel → (t b).buckets = [] := (opened_run memory ops hops).inv.opened
  refine ⟨?_, additionalBuckets_eq t dataset hopened, ?_, fun hoccupied hfit => ?_⟩
  · rw [size_eq t dataset hopened, size_run memory ops hops]
  · apply eq_of_forall_ge_iff
    intro m
    rw [maxChainLength_le_iff, Finset.sup_le_iff]
    refine ⟨fun hm b _ => ?_, fun hm b _ => hm b (Finset.mem_univ b)⟩
    by_cases hb : (t b).key = c.sentinel
    · rw [hopened b hb]
      exact Nat.zero_le m
    · exact hm b hb
  · have hle := (le_minChainLength_iff t dataset _).mp le_rfl
    refine ⟨?_, fun n ⟨b, hb, hn⟩ => hn ▸ hle.2 b hb⟩
    by_contra hnone
    -- all chains are longer, so the minimum is not the greatest lower bound
    have hlonger : ∀ b, (t b).key ≠ c.sentinel → s.minChainLength + 1 ≤ (t b).buckets.length := by
      intro b hb
      exact lt_of_le_of_ne (hle.2 b hb) fun heq => hnone ⟨b, hb, heq.symm⟩
    obtain ⟨b, hb⟩ := hoccupied
    have hsucc := (le_minChainLength_iff t dataset (s.minChainLength + 1)).mpr
      ⟨(hlonger b hb).trans_lt (hfit b), hlonger⟩
    exact absurd hsucc (Nat.not_succ_le_self _)

/-- Two keys in one bucket of the directory, with an overflow bucket of one slot. -/
theorem chained_statistics_one_bucket :
    (lookupStatistics oneBucket ((store oneBucket).run freshBucket [.insert 0 5, .insert 1 6, .insert 1 7]).2
      []).minChainLength = 1 := by
  have hleast := (chained_statistics oneBucket (fun _ => { key := 1, payload := 9, buckets := [] })
    [.insert 0 5, .insert 1 6, .insert 1 7] (by decide) []).2.2.2 ⟨(0 : Fin 1), by decide⟩
      (fun b => by fin_cases b; exact show 1 < 2 ^ 64 by norm_num)
  obtain ⟨b, -, hlength⟩ := hleast.1
  fin_cases b
  exact hlength.symm

end HashingArchive.Hashtable.Chained
