import HashingArchive.Library.Loop
import HashingArchive.Join.Hash

/-!
# The scalar join

`hash_build_rel_r_partition` puts each tuple into the head of its bucket or into a new bucket right
behind the head; `hash_probe_rel_s_partition` compares a key with `tuples[0]` of every bucket on the
chain. It does not look at `count`, so a head that was never filled compares as a tuple with key 0:
the probe counts the join, and besides one match for every tuple with key 0 whose bucket is empty
(`probe_build`). In a table without buckets, the one `allocate_hashtable` makes for no tuples, there is no
head: build and probe end with `none` at the first tuple. The matches are counted as a natural number; the
`uint64_t` returned is that number modulo `2 ^ 64`.
-/

namespace HashingArchive.Join

open HashingArchive.Loop

variable {n : ℕ}

/-! ### The code -/

def bucketSize : ℕ := 1

/-- One round of the build loop, for a tuple with the head bucket `i`. -/
def buildTuple (i : Fin n) (m : Memory n) (tuple : Tuple) : Memory n :=
  let curr : Addr n := .head i
  let nxt := (m.bucket curr).next
  let behind :=
    let (b, m') := getNewBucket m
    (m'.write curr { m.bucket curr with next := some b }).write b { count := 1, next := nxt, tuple := tuple }
  if (m.bucket curr).count = bucketSize then
    match nxt with
    | none => behind
    | some nxt =>
      if (m.bucket nxt).count = bucketSize then behind
      else m.write nxt { m.bucket nxt with count := (m.bucket nxt).count + 1, tuple := tuple }
  else m.write curr { m.bucket curr with count := (m.bucket curr).count + 1, tuple := tuple }

/-- `idx` gives the head bucket of a key, and none where the table has no such bucket. -/
def hashBuildRelRPartition (idx : BitVec 32 → Option (Fin n)) (m : Memory n) (relR : List Tuple) : Option (Memory n) :=
  relR.foldlM (fun m tuple => (idx tuple.key).map fun i => buildTuple i m tuple) m

/-- Where the probe stands: the tuples from the current one on, the bucket of its chain (none before the
first), and the matches so far. -/
structure ProbeState (n : ℕ) where
  rest : List Tuple
  b : Option (Addr n)
  found : ℕ

/-- One bucket, or the way to the head for the next tuple. -/
def probeBody (idx : BitVec 32 → Option (Fin n)) (m : Memory n) (s : ProbeState n) :
    Pass (ProbeState n) (Option ℕ) :=
  match s.rest with
  | [] => .leave (some s.found)
  | tuple :: rest =>
    match s.b with
    | none =>
      match idx tuple.key with
      | none => .leave none
      | some i => .again { s with b := some (.head i) }
    | some b =>
      let found := if tuple.key = (m.bucket b).tuple.key then s.found + 1 else s.found
      let next := (m.bucket b).next
      .again { rest := if next = none then rest else s.rest, b := next, found := found }

/-- `hash_probe_rel_s_partition` ends with `found` matches. -/
def HashProbeRelSPartition (idx : BitVec 32 → Option (Fin n)) (m : Memory n) (relS : List Tuple) (found : ℕ) : Prop :=
  Returns (probeBody idx m) { rest := relS, b := none, found := 0 } (some found)

/-! ### The build -/

/-- What the build keeps: every bucket holds its tuples, and the overflow buckets on its chain are full. -/
def Built (idx : BitVec 32 → Fin n) (m : Memory n) (relR : List Tuple) : Prop :=
  ∀ i, ∃ l ts, Holds m i l ts ∧ (∀ a ∈ l, (m.bucket a).count = bucketSize) ∧
    ts.Perm (relR.filter fun t => idx t.key = i)

theorem built_fresh (idx : BitVec 32 → Fin n) (garbage : ℕ → ℕ → Bucket n) : Built idx (freshMemory garbage) [] :=
  fun i => ⟨[], [], holds_fresh garbage i, by simp, List.Perm.nil⟩

/-- The new bucket behind the head of a full bucket. -/
def behindHead (m : Memory n) (i : Fin n) (tuple : Tuple) : Memory n :=
  ((getNewBucket m).2.write (.head i) { m.bucket (.head i) with next := some (getNewBucket m).1 }).write
    (getNewBucket m).1 { count := 1, next := (m.bucket (.head i)).next, tuple := tuple }

theorem behindHead_of_ne (m : Memory n) (i : Fin n) (tuple : Tuple) {a : Addr n} (hhead : a ≠ .head i)
    (hnew : a ≠ (getNewBucket m).1) : (behindHead m i tuple).bucket a = m.bucket a := by
  rw [behindHead, Memory.write_of_ne hnew, Memory.write_of_ne hhead, getNewBucket_bucket]

/-- A step that changes the bucket of its tuple as it should, and no other head and no overflow bucket in
use, keeps the build going. -/
theorem Built.of_step {idx : BitVec 32 → Fin n} {m m' : Memory n} {relR : List Tuple} (hb : Built idx m relR)
    (tuple : Tuple) (hsame : ∀ a, m.Allocated a → m'.bucket a = m.bucket a)
    (hhead : ∀ i, i ≠ idx tuple.key → m'.bucket (.head i) = m.bucket (.head i))
    (halloc : ∀ a, m.Allocated a → m'.Allocated a)
    (hown : ∀ l ts, Holds m (idx tuple.key) l ts → (∀ a ∈ l, (m.bucket a).count = bucketSize) →
      ∃ l', Holds m' (idx tuple.key) l' (tuple :: ts) ∧ ∀ a ∈ l', (m'.bucket a).count = bucketSize) :
    Built idx m' (relR ++ [tuple]) := by
  intro i
  obtain ⟨l, ts, hholds, hcount, hperm⟩ := hb i
  rw [List.filter_append]
  by_cases hi : i = idx tuple.key
  · subst hi
    obtain ⟨l', hholds', hcount'⟩ := hown l ts hholds hcount
    refine ⟨l', tuple :: ts, hholds', hcount', ?_⟩
    simp only [List.filter_cons, decide_true, if_true, List.filter_nil]
    exact (hperm.cons tuple).trans (List.perm_append_singleton tuple _).symm
  · refine ⟨l, ts, hholds.frame (hhead i hi) hsame halloc, fun a ha => ?_, ?_⟩
    · rw [hsame a (hholds.allocated a ha)]
      exact hcount a ha
    · simpa [Ne.symm hi] using hperm

/-- A full bucket gets a new one behind its head: the first overflow bucket is never short of its one tuple. -/
theorem buildTuple_of_full {idx : BitVec 32 → Fin n} {m : Memory n} {tuple : Tuple} {l : List (Addr n)}
    {ts : List Tuple} (hholds : Holds m (idx tuple.key) l ts) (hcount : ∀ a ∈ l, (m.bucket a).count = bucketSize)
    (hfull : (m.bucket (.head (idx tuple.key))).count = bucketSize) :
    buildTuple (idx tuple.key) m tuple = behindHead m (idx tuple.key) tuple := by
  unfold buildTuple
  dsimp only
  rw [if_pos hfull]
  cases hnext : (m.bucket (.head (idx tuple.key))).next with
  | none => simp only [behindHead, hnext]
  | some nxt =>
    have hlink := hholds.linked
    rw [hnext] at hlink
    cases l with
    | nil => exact absurd hlink (by simp [Linked])
    | cons a l =>
      obtain rfl : nxt = a := Option.some.inj hlink.1
      simp only [hcount nxt List.mem_cons_self, if_true, behindHead, hnext]

/-- A bucket that is not full is empty, and the tuple goes to its head. -/
theorem buildTuple_of_empty {idx : BitVec 32 → Fin n} {m : Memory n} {tuple : Tuple}
    (hzero : (m.bucket (.head (idx tuple.key))).count = 0) :
    buildTuple (idx tuple.key) m tuple = m.write (.head (idx tuple.key))
      { m.bucket (.head (idx tuple.key)) with count := 1, tuple := tuple } := by
  unfold buildTuple
  dsimp only
  rw [if_neg (by rw [hzero]; decide), hzero]

theorem Built.behindHead {idx : BitVec 32 → Fin n} {m : Memory n} {relR : List Tuple} (hb : Built idx m relR)
    (tuple : Tuple) (hfull : (m.bucket (.head (idx tuple.key))).count = bucketSize) :
    Built idx (behindHead m (idx tuple.key) tuple) (relR ++ [tuple]) := by
  have hne : ∀ a, m.Allocated a → a ≠ (getNewBucket m).1 := by
    intro a ha heq
    exact not_allocated_new m (heq ▸ ha)
  have hsame : ∀ a, m.Allocated a → (Join.behindHead m (idx tuple.key) tuple).bucket a = m.bucket a := by
    intro a ha
    refine behindHead_of_ne m _ tuple ?_ (hne a ha)
    rintro rfl
    exact Memory.not_allocated_head m _ ha
  have halloc : ∀ a, m.Allocated a → (Join.behindHead m (idx tuple.key) tuple).Allocated a := by
    intro a ha
    simpa [Join.behindHead] using ha.mono
  apply hb.of_step tuple hsame
    (fun i hi => behindHead_of_ne m _ tuple (by simpa using hi) (new_ne_head m i).symm) halloc
  intro l ts hholds hcount
  refine ⟨(getNewBucket m).1 :: l, hholds.push (by rw [hfull]; decide) ?_ ?_ ?_ hsame ?_ halloc, fun a ha => ?_⟩
  · rw [Join.behindHead, Memory.write_of_ne (new_ne_head m _).symm, Memory.write_self]
  · rw [Join.behindHead, Memory.write_self]
  · rw [Join.behindHead, Memory.write_self]
  · simpa [Join.behindHead] using allocated_new m
  · rcases List.mem_cons.mp ha with rfl | ha
    · rw [Join.behindHead, Memory.write_self]
      rfl
    · rw [hsame a (hholds.allocated a ha)]
      exact hcount a ha

theorem Built.fillHead {idx : BitVec 32 → Fin n} {m : Memory n} {relR : List Tuple} (hb : Built idx m relR)
    (tuple : Tuple) (hzero : (m.bucket (.head (idx tuple.key))).count = 0) :
    Built idx (m.write (.head (idx tuple.key))
      { m.bucket (.head (idx tuple.key)) with count := 1, tuple := tuple }) (relR ++ [tuple]) := by
  have hwrite : ∀ a, a ≠ .head (idx tuple.key) → (m.write (.head (idx tuple.key))
      { m.bucket (.head (idx tuple.key)) with count := 1, tuple := tuple }).bucket a = m.bucket a :=
    fun a ha => Memory.write_of_ne ha
  apply hb.of_step tuple (fun a ha => hwrite a ?_) (fun i hi => hwrite _ (by simpa using hi))
    (fun a ha => (Memory.allocated_write _ _ _ _).mpr ha)
  · intro l ts hholds _
    obtain ⟨rfl, hfill⟩ := hholds.fill hzero (Memory.write_self m _ _)
    exact ⟨[], hfill, by simp⟩
  · rintro rfl
    exact Memory.not_allocated_head m _ ha

/-- The step lemma. -/
theorem Built.step {idx : BitVec 32 → Fin n} {m : Memory n} {relR : List Tuple} (hb : Built idx m relR)
    (tuple : Tuple) : Built idx (buildTuple (idx tuple.key) m tuple) (relR ++ [tuple]) := by
  obtain ⟨l, ts, hholds, hcount, -⟩ := hb (idx tuple.key)
  rcases hholds.holds with ⟨hzero, -⟩ | ⟨hfull, -⟩
  · rw [buildTuple_of_empty hzero]
    exact hb.fillHead tuple hzero
  · rw [buildTuple_of_full hholds hcount hfull]
    exact hb.behindHead tuple hfull

/-- The run lemma. -/
theorem built_build (idx : BitVec 32 → Fin n) (garbage : ℕ → ℕ → Bucket n) (relR : List Tuple) :
    ∃ m, hashBuildRelRPartition (fun key => some (idx key)) (freshMemory garbage) relR = some m ∧ Built idx m relR := by
  induction relR using List.reverseRecOn with
  | nil => exact ⟨_, rfl, built_fresh idx garbage⟩
  | append_singleton relR tuple ih =>
    obtain ⟨m, hm, hb⟩ := ih
    rw [hashBuildRelRPartition] at hm ⊢
    rw [List.foldlM_append, hm]
    exact ⟨_, rfl, hb.step tuple⟩

/-! ### The probe -/

/-- How many tuples of a list have the key. -/
def keyCount (ts : List Tuple) (key : BitVec 32) : ℕ := ts.countP fun t => key = t.key

theorem keyCount_perm {ts ts' : List Tuple} (h : ts.Perm ts') (key : BitVec 32) :
    keyCount ts key = keyCount ts' key :=
  h.countP_eq _

/-- The probe walks a chain to its end and goes on to the next tuple. -/
theorem probe_chain {idx : BitVec 32 → Option (Fin n)} {m : Memory n} {tuple : Tuple} {rest : List Tuple}
    {l : List (Addr n)} {b : Addr n} (hlink : Linked m (m.bucket b).next l) {found : ℕ} {r : Option ℕ}
    (hrest : Returns (probeBody idx m)
      { rest := rest, b := none, found := found + keyCount (tuplesOf m (b :: l)) tuple.key } r) :
    Returns (probeBody idx m) { rest := tuple :: rest, b := some b, found := found } r := by
  induction l generalizing b found with
  | nil =>
    have hnext : (m.bucket b).next = none := hlink
    refine Returns.again rfl ?_
    simp only [hnext, if_true]
    rw [tuplesOf_cons, keyCount, List.countP_cons, tuplesOf_nil, List.countP_nil] at hrest
    split_ifs with heq
    · simpa [heq] using hrest
    · simpa [heq] using hrest
  | cons a l ih =>
    obtain ⟨hnext, hlink'⟩ := hlink
    refine Returns.again rfl ?_
    simp only [hnext, reduceCtorEq, if_false]
    apply ih hlink'
    rw [tuplesOf_cons, keyCount, List.countP_cons] at hrest
    split_ifs with heq
    · simpa [heq, keyCount, add_comm, add_left_comm, add_assoc] using hrest
    · simpa [heq, keyCount] using hrest

/-- **The probe** counts, for every tuple, the buckets on the chain of its key whose `tuples[0]` has the
key. -/
theorem probe_returns {idx : BitVec 32 → Fin n} {m : Memory n} {chain : Fin n → List (Addr n)}
    (hlink : ∀ i, Linked m (m.bucket (.head i)).next (chain i)) (relS : List Tuple) :
    HashProbeRelSPartition (fun key => some (idx key)) m relS
      (relS.map fun t => keyCount (tuplesOf m (.head (idx t.key) :: chain (idx t.key))) t.key).sum := by
  have hfrom : ∀ found, Returns (probeBody (fun key => some (idx key)) m) { rest := relS, b := none, found := found }
      (some (found +
        (relS.map fun t => keyCount (tuplesOf m (.head (idx t.key) :: chain (idx t.key))) t.key).sum)) := by
    induction relS with
    | nil => exact fun found => Returns.leave rfl
    | cons tuple rest ih =>
      intro found
      have hchain : Returns (probeBody (fun key => some (idx key)) m)
          { rest := tuple :: rest, b := some (.head (idx tuple.key)), found := found } _ :=
        probe_chain (hlink (idx tuple.key)) (ih _)
      rw [List.map_cons, List.sum_cons, ← add_assoc]
      exact Returns.again rfl hchain
  have hzero := hfrom 0
  rwa [zero_add] at hzero

/-! ### The join -/

/-- The number of pairs of a tuple of R and a tuple of S with the same key. -/
def joinCardinality (relR relS : List Tuple) : ℕ := (relR ×ˢ relS).countP fun p => p.1.key = p.2.key

/-- Pairs are counted tuple by tuple of S. -/
theorem countP_product {K : Type} [DecidableEq K] (f : Tuple → K) (relR relS : List Tuple) :
    ((relR ×ˢ relS).countP fun p => f p.1 = f p.2) = (relS.map fun t => relR.countP fun r => f t = f r).sum := by
  have hcons : ∀ (r : Tuple) (relR : List Tuple), (relS.map fun t => (r :: relR).countP fun r => f t = f r).sum =
      (relS.countP fun t => f r = f t) + (relS.map fun t => relR.countP fun r => f t = f r).sum := by
    intro r relR
    induction relS with
    | nil => rfl
    | cons t relS ih =>
      rw [List.map_cons, List.sum_cons, ih, List.countP_cons, List.map_cons, List.sum_cons, List.countP_cons]
      simp only [eq_comm]
      omega
  induction relR with
  | nil => simp
  | cons r relR ih =>
    rw [hcons, ← ih, List.product_cons, List.countP_append, List.countP_map]
    rfl

theorem joinCardinality_eq_sum (relR relS : List Tuple) :
    joinCardinality relR relS = (relS.map fun t => keyCount relR t.key).sum :=
  countP_product Tuple.key relR relS

/-- What one tuple with key `key` matches: the tuples of R with its key, and an empty head if the key is
0. -/
theorem keyCount_chain {idx : BitVec 32 → Fin n} {m : Memory n} {relR : List Tuple} {key : BitVec 32}
    {l : List (Addr n)} {ts : List Tuple} (hholds : Holds m (idx key) l ts)
    (hperm : ts.Perm (relR.filter fun t => idx t.key = idx key)) :
    keyCount (tuplesOf m (.head (idx key) :: l)) key =
      keyCount relR key + if key = 0 ∧ ∀ r ∈ relR, idx r.key ≠ idx key then 1 else 0 := by
  have hrel : keyCount relR key = keyCount (relR.filter fun t => idx t.key = idx key) key := by
    rw [keyCount, keyCount, List.countP_filter]
    apply List.countP_congr
    intro t _
    simp only [decide_eq_true_eq, Bool.and_eq_true]
    exact ⟨fun h => ⟨h, by rw [h]⟩, fun h => h.1⟩
  rw [hrel, ← keyCount_perm hperm key]
  rcases hholds.holds with ⟨-, rfl, hzero, rfl⟩ | ⟨-, hts⟩
  · have hnone : ∀ r ∈ relR, idx r.key ≠ idx key := by
      intro r hr heq
      have hmem : r ∈ ([] : List Tuple) := hperm.mem_iff.mpr (List.mem_filter.mpr ⟨hr, decide_eq_true heq⟩)
      exact absurd hmem (by simp)
    have hhead : tuplesOf m [.head (idx key)] = [0] := by
      rw [tuplesOf_cons, hzero, tuplesOf_nil]
    rw [hhead, keyCount, List.countP_cons, List.countP_nil, keyCount, List.countP_nil]
    refine congrArg (0 + ·) (if_congr ?_ rfl rfl)
    rw [decide_eq_true_iff, and_iff_left hnone]
    rfl
  · have hsome : ¬ ∀ r ∈ relR, idx r.key ≠ idx key := by
      intro hnone
      have hmem := hperm.mem_iff.mp (hts.mem_iff.mpr (List.mem_cons_self))
      exact hnone _ (List.mem_filter.mp hmem).1 (of_decide_eq_true (List.mem_filter.mp hmem).2)
    rw [if_neg fun h => hsome h.2, Nat.add_zero]
    exact (keyCount_perm hts key).symm

/-- The probe of a built table counts the join, and one match more for every tuple with key 0 whose
bucket is empty. -/
theorem probe_build (idx : BitVec 32 → Fin n) (garbage : ℕ → ℕ → Bucket n) (relR relS : List Tuple) :
    ∃ m, hashBuildRelRPartition (fun key => some (idx key)) (freshMemory garbage) relR = some m ∧
      HashProbeRelSPartition (fun key => some (idx key)) m relS
        (joinCardinality relR relS +
          (relS.map fun t => if t.key = 0 ∧ ∀ r ∈ relR, idx r.key ≠ idx t.key then 1 else 0).sum) := by
  obtain ⟨m, hm, hbuilt⟩ := built_build idx garbage relR
  choose chain ts hholds _ hperm using hbuilt
  refine ⟨m, hm, ?_⟩
  have hreturns : HashProbeRelSPartition (fun key => some (idx key)) m relS _ :=
    probe_returns (fun i => (hholds i).linked) relS
  have hcount : (fun t : Tuple => keyCount (tuplesOf m (.head (idx t.key) :: chain (idx t.key))) t.key) = fun t =>
      keyCount relR t.key + if t.key = 0 ∧ ∀ r ∈ relR, idx r.key ≠ idx t.key then 1 else 0 := by
    funext t
    exact keyCount_chain (hholds (idx t.key)) (hperm (idx t.key))
  rwa [hcount, List.sum_map_add, ← joinCardinality_eq_sum] at hreturns

/-- With every bucket in the table the join is counted if and only if no tuple of S has key 0 or the bucket of
key 0 has been filled. -/
theorem join_counted_iff (idx : BitVec 32 → Fin n) (garbage : ℕ → ℕ → Bucket n) (relR relS : List Tuple) :
    (∃ m, hashBuildRelRPartition (fun key => some (idx key)) (freshMemory garbage) relR = some m ∧
      HashProbeRelSPartition (fun key => some (idx key)) m relS (joinCardinality relR relS)) ↔
      (∀ s ∈ relS, s.key ≠ 0) ∨ ∃ r ∈ relR, idx r.key = idx 0 := by
  obtain ⟨m, hm, hprobe⟩ := probe_build idx garbage relR relS
  constructor
  · rintro ⟨m', hm', hreturns⟩
    obtain rfl := Option.some.inj (hm.symm.trans hm')
    have hsum := Option.some.inj (Returns.unique hreturns hprobe)
    by_contra hnot
    rw [not_or] at hnot
    obtain ⟨hkey, hempty⟩ := hnot
    push Not at hkey hempty
    obtain ⟨s, hs, hzero⟩ := hkey
    have hone : 1 ≤ (relS.map fun t => if t.key = 0 ∧ ∀ r ∈ relR, idx r.key ≠ idx t.key then 1 else 0).sum := by
      refine le_trans (le_of_eq ?_) (List.single_le_sum (by simp) _ (List.mem_map.mpr ⟨s, hs, rfl⟩))
      rw [if_pos ⟨hzero, by rwa [hzero]⟩]
    omega
  · intro hcond
    have hzero : (relS.map fun t => if t.key = 0 ∧ ∀ r ∈ relR, idx r.key ≠ idx t.key then 1 else 0).sum = 0 := by
      apply List.sum_eq_zero
      intro x hx
      obtain ⟨s, hs, rfl⟩ := List.mem_map.mp hx
      apply if_neg
      intro ⟨hkey, hempty⟩
      rcases hcond with hnone | ⟨r, hr, heq⟩
      · exact hnone s hs hkey
      · rw [hkey] at hempty
        exact hempty r hr heq
    rw [hzero, Nat.add_zero] at hprobe
    exact ⟨m, hm, hprobe⟩

/-- Without a bucket neither function gets past a tuple. -/
theorem join_counted_iff_of_no_bucket {idx : BitVec 32 → Option (Fin n)} (hidx : ∀ key, idx key = none)
    (garbage : ℕ → ℕ → Bucket n) (relR relS : List Tuple) :
    (∃ m, hashBuildRelRPartition idx (freshMemory garbage) relR = some m ∧
      HashProbeRelSPartition idx m relS (joinCardinality relR relS)) ↔ relR = [] ∧ relS = [] := by
  constructor
  · rintro ⟨m, hm, hreturns⟩
    constructor
    · cases relR with
      | nil => rfl
      | cons tuple relR => simp [hashBuildRelRPartition, List.foldlM_cons, hidx] at hm
    · cases relS with
      | nil => rfl
      | cons tuple relS =>
        have hstuck : probeBody idx m { rest := tuple :: relS, b := none, found := 0 } = .leave none := by
          simp only [probeBody, hidx]
        exact absurd (Returns.unique hreturns (Returns.leave hstuck)) (by simp)
  · rintro ⟨rfl, rfl⟩
    exact ⟨_, rfl, Returns.leave rfl⟩

/-- **When the scalar join counts the join**: on a table fresh from `allocate_hashtable`, in both builds
of the hash, if and only if the table has a bucket or there are no tuples, and no tuple of S has key 0 or the
bucket of key 0 has been filled. -/
theorem scalar_join_iff (useMurmur3Hash : Bool) (nbuckets : BitVec 32) (ht : Hashtable)
    (halloc : allocateHashtable nbuckets = some ht) (garbage : ℕ → ℕ → Bucket ht.numBuckets.toNat)
    (relR relS : List Tuple) :
    let idx := scalarBucket useMurmur3Hash ht
    (∃ m, hashBuildRelRPartition idx (freshMemory garbage) relR = some m ∧
      HashProbeRelSPartition idx m relS (joinCardinality relR relS)) ↔
      (ht.numBuckets ≠ 0 ∨ (relR = [] ∧ relS = [])) ∧
        ((∀ s ∈ relS, s.key ≠ 0) ∨ ∃ r ∈ relR, idx r.key = idx 0) := by
  intro idx
  by_cases hzero : ht.numBuckets = 0
  · rw [join_counted_iff_of_no_bucket (scalarBucket_of_no_buckets useMurmur3Hash hzero)]
    constructor
    · rintro ⟨rfl, rfl⟩
      exact ⟨Or.inr ⟨rfl, rfl⟩, Or.inl (by simp)⟩
    · rintro ⟨hne | hempty, -⟩
      · exact absurd hzero hne
      · exact hempty
  · have hv := allocateHashtable_valid halloc hzero
    have hidx : idx = fun key => some _ := funext (scalarBucket_of_valid useMurmur3Hash hv)
    rw [and_iff_right (Or.inl hzero), hidx, join_counted_iff]
    simp only [Option.some.injEq]

/-- A table of two buckets. -/
def twoHeads : Hashtable := { numBuckets := 2, hashMask := 1, skipBits := 0 }

theorem allocateHashtable_two : allocateHashtable 2 = some twoHeads := rfl

/-- R has one tuple with key 1, S one with key 0: their join is empty, and the probe finds one match in
the empty bucket of key 0. -/
theorem scalar_join_counts_empty_head :
    let idx := scalarBucket false twoHeads
    allocateHashtable 2 = some twoHeads ∧
      ∃ m, hashBuildRelRPartition idx (freshMemory fun _ _ => { count := 0, next := none, tuple := 9 })
          [Tuple.mk 1 7] = some m ∧
        HashProbeRelSPartition idx m [Tuple.mk 0 0] 1 ∧ joinCardinality [Tuple.mk 1 7] [Tuple.mk 0 0] = 0 :=
  ⟨allocateHashtable_two, _, rfl, ⟨3, rfl⟩, by decide⟩

/-- With a tuple of R in the bucket of key 0 the join is counted, here with two tuples of key 2 in that
bucket. -/
theorem scalar_join_iff_two_heads :
    let idx := scalarBucket false twoHeads
    ∃ m, hashBuildRelRPartition idx (freshMemory fun _ _ => { count := 0, next := none, tuple := 9 })
        [Tuple.mk 2 7, Tuple.mk 2 8] = some m ∧
      HashProbeRelSPartition idx m [Tuple.mk 2 0, Tuple.mk 0 0]
        (joinCardinality [Tuple.mk 2 7, Tuple.mk 2 8] [Tuple.mk 2 0, Tuple.mk 0 0]) :=
  (scalar_join_iff false 2 twoHeads allocateHashtable_two
    (fun _ _ => { count := 0, next := none, tuple := 9 }) [Tuple.mk 2 7, Tuple.mk 2 8]
    [Tuple.mk 2 0, Tuple.mk 0 0]).mpr ⟨Or.inl (by decide), Or.inr ⟨Tuple.mk 2 7, by simp, by decide⟩⟩

end HashingArchive.Join
