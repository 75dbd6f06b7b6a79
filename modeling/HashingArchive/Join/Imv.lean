import HashingArchive.Library.Lanes
import HashingArchive.Library.Loop
import HashingArchive.Join.Hashtable

/-!
# The interleaved vectorised join: the code

Vectors of 8 lanes (`NPJ_VECTOR_SCALE`), 5 states (`NPJ_SIMDStateSize`) advanced in turn and a temporary
state behind them, `state[5]`. A state goes through stages: 1 reads up to 8 tuples, 2 looks at the heads
of their buckets, 0 works behind the heads, 3 is done. A vector that has lost some of its lanes but not all
of them either moves the rest to the temporary state (`spill`) or is filled up from there
(`refill`). The loop around the stages is the same in build and probe (`drive`); `mem` is what it works on,
the memory or the matches so far, counted as a natural number: the `uint64_t` the probe returns is that number
modulo `2 ^ 64`. `--k` before the `++k` at the end of the loop leaves `k` as it is.
A lane that follows a null pointer ends the run with `none`.
-/

namespace HashingArchive.Join

open HashingArchive.Loop HashingArchive.Lanes

structure SIMDState (n : ℕ) where
  key : Fin 8 → Tuple
  htOff : Fin 8 → Option (Addr n)
  mHaveTuple : Mask 8
  stage : Fin 4

structure Machine (n : ℕ) (μ : Type) where
  mem : μ
  state : Fin 6 → SIMDState n
  k : ℕ
  done : ℕ
  cur : ℕ

/-- The stages and the states are numerals, here and in the modules that reason about them. -/
scoped instance neZero_stages : NeZero 4 := ⟨four_ne_zero⟩

scoped instance neZero_states : NeZero 6 := ⟨by decide⟩

variable {n : ℕ} {μ : Type}

theorem Machine.k_lt {s : Machine n μ} (h : s.k < 5) : s.k < 6 := h.trans (by norm_num)

/-- Overwrite one state. -/
def Machine.set (s : Machine n μ) (k : Fin 6) (st : SIMDState n) : Machine n μ :=
  { s with state := Function.update s.state k st }

/-! ### The loop -/

/-- One round of the loop: a state without tuples is done once all are read, and when all states are
done the temporary one is worked off. -/
def drive (numTuples : ℕ) (stage : Machine n μ → Fin 6 → Pass (Machine n μ) (Option μ)) (s : Machine n μ) :
    Pass (Machine n μ) (Option μ) :=
  let k : Fin 6 := if h : s.k < 5 then ⟨s.k, Machine.k_lt h⟩ else 0
  if numTuples ≤ s.cur then
    if (s.state k).mHaveTuple = noLanes 8 ∧ (s.state k).stage ≠ 3 then
      .again { s.set k { s.state k with stage := 3 } with done := s.done + 1, k := k + 1 }
    else if 5 ≤ s.done then
      if (s.state 5).mHaveTuple ≠ noLanes 8 then stage (s.set 5 { s.state 5 with stage := 0 }) 5
      else .leave (some s.mem)
    else stage s k
  else stage s k

/-- Stage 1: gather the next tuples and the heads of their buckets. -/
def load (idx : Tuple → Fin n) (rel : List Tuple) (s : Machine n μ) (k : Fin 6) : Machine n μ :=
  let st := s.state k
  let mHaveTuple : Mask 8 := fun i => decide (s.cur + i < rel.length)
  let key : Fin 8 → Tuple := fun i => if mHaveTuple i then rel.getD (s.cur + i) 0 else st.key i
  let htOff : Fin 8 → Option (Addr n) := fun i => if mHaveTuple i then some (.head (idx (key i))) else st.htOff i
  { s.set k { key := key, htOff := htOff, mHaveTuple := mHaveTuple, stage := 2 } with
    cur := s.cur + 8, k := k + 1 }

/-- Compress the vector and expand it behind the temporary state. -/
def spill (s : Machine n μ) (k : Fin 6) : Machine n μ :=
  let st := s.state k
  let temp := s.state 5
  let htOff := compress st.mHaveTuple st.htOff none
  let key := compress st.mHaveTuple st.key 0
  let temp' : SIMDState n := { temp with
    htOff := expand temp.htOff (knot temp.mHaveTuple) htOff
    key := expand temp.key (knot temp.mHaveTuple) key
    mHaveTuple := low 8 (popcnt st.mHaveTuple + popcnt temp.mHaveTuple) }
  { (s.set 5 temp').set k { key := key, htOff := htOff, mHaveTuple := noLanes 8, stage := 1 } with k := k }

/-- Expand the temporary state into the free lanes of the vector and compress what is left of it. -/
def refill (s : Machine n μ) (k : Fin 6) (k' : ℕ) : Machine n μ :=
  let st := s.state k
  let temp := s.state 5
  let room := 8 - popcnt st.mHaveTuple
  let rest := kand temp.mHaveTuple (knot (low 8 room))
  let st' : SIMDState n := {
    htOff := expand st.htOff (knot st.mHaveTuple) temp.htOff
    key := expand st.key (knot st.mHaveTuple) temp.key
    mHaveTuple := low 8 8
    stage := 0 }
  let temp' : SIMDState n := { temp with
    htOff := compress rest temp.htOff none
    key := compress rest temp.key 0
    mHaveTuple := kshiftr rest room }
  { (s.set 5 temp').set k st' with k := k' }

/-- A vector with some lanes left and some free. `k'` is where the loop goes on after a refill. -/
def regroup (s : Machine n μ) (k : Fin 6) (k' : ℕ) : Machine n μ :=
  if popcnt (s.state k).mHaveTuple + popcnt (s.state 5).mHaveTuple < 8 then spill s k else refill s k k'

/-- Some lane has a tuple and a null pointer. -/
def SIMDState.faults (st : SIMDState n) : Prop := ∃ i, st.mHaveTuple i = true ∧ st.htOff i = none

instance (st : SIMDState n) : Decidable st.faults :=
  inferInstanceAs (Decidable (∃ i, st.mHaveTuple i = true ∧ st.htOff i = none))

/-- Read a field of the buckets the lanes of the mask point to, `src` in the other lanes. -/
def Memory.gather {γ : Type} (m : Memory n) (mask : Mask 8) (p : Fin 8 → Option (Addr n)) (field : Bucket n → γ)
    (src : γ) : Fin 8 → γ := fun i =>
  match p i with
  | some a => if mask i then field (m.bucket a) else src
  | none => src

/-! ### `hash_build_rel_r_partition_imv` -/

/-- What follows after a vector has inserted some of its tuples. `kKeep` and `kRefill` are where the loop
goes on with the vector kept as it is or refilled. -/
def buildSettle (s : Machine n μ) (k : Fin 6) (kKeep kRefill : ℕ) : Machine n μ :=
  let num := popcnt (s.state k).mHaveTuple
  if num = 8 ∨ 5 ≤ s.done then { s.set k { s.state k with stage := 0 } with k := kKeep }
  else if num = 0 then { s.set k { s.state k with stage := 1 } with k := k }
  else regroup s k kRefill

/-- Stage 2: the tuples whose heads are empty go there, one for each head. -/
def buildHeads (s : Machine n (Memory n)) (k : Fin 6) : Pass (Machine n (Memory n)) (Option (Memory n)) :=
  let st := s.state k
  if st.faults then .leave none
  else
    let cell := s.mem.gather st.mHaveTuple st.htOff (fun b => (b.count : ℤ)) (-1)
    let toInsert := kand (fun i => cell i == 0) st.mHaveTuple
    if toInsert = noLanes 8 then .again { s.set k { st with stage := 0 } with k := k }
    else
      let inserted := noConflict toInsert st.htOff
      let bucket := scatter s.mem.bucket inserted st.htOff fun i b => { b with count := 1, tuple := st.key i }
      .again (buildSettle
        { s.set k { st with mHaveTuple := kandn inserted st.mHaveTuple } with mem := { s.mem with bucket := bucket } }
        k k k)

/-- A new bucket for each lane of the mask. -/
def newBuckets (mask : Mask 8) (m : Memory n) : (Fin 8 → Option (Addr n)) × Memory n :=
  (List.finRange 8).foldl (fun r i =>
    if mask i then (Function.update r.1 i (some (getNewBucket r.2).1), (getNewBucket r.2).2) else r)
    (fun _ => none, m)

/-- Stage 0: a new bucket behind the head for each tuple, one for each head. Its count is not written. -/
def buildBehind (s : Machine n (Memory n)) (k : Fin 6) : Pass (Machine n (Memory n)) (Option (Memory n)) :=
  let st := s.state k
  if st.faults then .leave none
  else
    let inserted := noConflict st.mHaveTuple st.htOff
    let (newBucket, mem) := newBuckets inserted s.mem
    let next := mem.gather st.mHaveTuple st.htOff Bucket.next none
    let bucket := scatter mem.bucket inserted newBucket fun i b => { b with tuple := st.key i, next := next i }
    let bucket := scatter bucket inserted st.htOff fun i b => { b with next := newBucket i }
    .again (buildSettle
      { s.set k { st with mHaveTuple := kandn inserted st.mHaveTuple } with mem := { mem with bucket := bucket } }
      k (k + 1) (k + 1))

def buildStage (idx : Tuple → Fin n) (relR : List Tuple) (s : Machine n (Memory n)) (k : Fin 6) :
    Pass (Machine n (Memory n)) (Option (Memory n)) :=
  match (s.state k).stage with
  | 1 => .again (load idx relR s k)
  | 2 => buildHeads s k
  | 0 => buildBehind s k
  | 3 => .again { s with k := k + 1 }

/-- `hash_build_rel_r_partition_imv` ends and leaves the memory `m'`. -/
def HashBuildRelRPartitionImv (idx : Tuple → Fin n) (m : Memory n) (relR : List Tuple) (m' : Memory n) : Prop :=
  Returns (drive relR.length (buildStage idx relR))
    { mem := m
      state := fun _ => { key := fun _ => 0, htOff := fun _ => none, mHaveTuple := noLanes 8, stage := 1 }
      k := 0
      done := 0
      cur := 0 }
    (some m')

/-! ### `hash_probe_rel_s_partition_imv` -/

/-- What follows after some of the lanes of a vector have come to an end. -/
def probeSettle (s : Machine n μ) (k : Fin 6) : Machine n μ :=
  let num := popcnt (s.state k).mHaveTuple
  if num = 8 then { s with k := k + 1 }
  else if num = 0 then { s.set k { s.state k with stage := 1 } with k := k }
  else if s.done < 5 then regroup s k (k + 1)
  else { s with k := k + 1 }

/-- Stage 2: the tuples whose heads are empty have no match. -/
def probeHeads (m : Memory n) (s : Machine n ℕ) (k : Fin 6) : Pass (Machine n ℕ) (Option ℕ) :=
  let st := s.state k
  if st.faults then .leave none
  else
    let cell := m.gather st.mHaveTuple st.htOff (fun b => (b.count : ℤ)) (-1)
    let validBucket : Mask 8 := fun i => cell i != 0
    .again (probeSettle (s.set k { st with mHaveTuple := kand validBucket st.mHaveTuple, stage := 0 }) k)

/-- Stage 0: compare with the bucket and go on to the next one. -/
def probeBuckets (m : Memory n) (s : Machine n ℕ) (k : Fin 6) : Pass (Machine n ℕ) (Option ℕ) :=
  let st := s.state k
  if st.faults then .leave none
  else
    let cell := m.gather st.mHaveTuple st.htOff Bucket.tuple (-1)
    let isMatch := kand (fun i => st.key i == cell i) st.mHaveTuple
    let htOff := m.gather st.mHaveTuple st.htOff Bucket.next none
    let mHaveTuple := kand (fun i => (htOff i).isSome) st.mHaveTuple
    .again (probeSettle
      { s.set k { st with htOff := htOff, mHaveTuple := mHaveTuple } with mem := s.mem + popcnt isMatch } k)

def probeStage (idx : Tuple → Fin n) (m : Memory n) (relS : List Tuple) (s : Machine n ℕ) (k : Fin 6) :
    Pass (Machine n ℕ) (Option ℕ) :=
  match (s.state k).stage with
  | 1 => .again (load idx relS s k)
  | 2 => probeHeads m s k
  | 0 => probeBuckets m s k
  | 3 => .again { s with k := k + 1 }

/-- `hash_probe_rel_s_partition_imv` ends with `found` matches. The vectors of its states start with what
`stack` holds. -/
def HashProbeRelSPartitionImv (idx : Tuple → Fin n) (m : Memory n) (stack : Fin 6 → SIMDState n)
    (relS : List Tuple) (found : ℕ) : Prop :=
  Returns (drive relS.length (probeStage idx m relS))
    { mem := 0
      state := fun j => { stack j with mHaveTuple := noLanes 8, stage := 1 }
      k := 0
      done := 0
      cur := 0 }
    (some found)

end HashingArchive.Join
