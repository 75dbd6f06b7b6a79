import HashingArchive.Library.Interleaving
import HashingArchive.Join.LatchedBuild
import HashingArchive.Join.Sampling
import HashingArchive.Join.Scalar

/-!
# The scalar join with several threads

A thread builds with its part of R in `hash_build_rel_r_partition`, waits at a barrier and probes with its part of S
in `hash_probe_rel_s_partition`, all on one table fresh from `allocate_hashtable`. This is the scalar half of
`hash_thread`: it also builds with `hash_build_rel_r_partition_imv`, which takes no latches, keeps the last table
built so, and probes that one with both probes; nothing is said of these here. The results of the threads are added
up, as natural numbers. The barrier lets a thread through when all threads have arrived. Without
`SINGLE_TUPLE_PER_BUCKET` every complete run counts the join, whatever the order of the steps (`parallel_join`); no
run goes on for ever and none gets stuck (`parallel_terminates`). `SINGLE_TUPLE_PER_BUCKET` has the probe look at
`tuples[0]` of a bucket only, filled or not: with buckets of more than one tuple it misses the others
(`parallel_single_self_join`).
-/

namespace HashingArchive.Join.Parallel

open HashingArchive.Library HashingArchive.Loop

variable {Thread : Type} {n : ℕ}

/-! ### The code -/

/-- A thread in `hash_probe_rel_s_partition`: the tuples from the current one on, the bucket of its chain (none before
the first), and the matches so far. -/
structure Probe (Thread : Type) (n : ℕ) where
  rest : List Tuple
  b : Option (Addr Thread n)
  found : ℕ
  deriving DecidableEq

/-- The tuples of a bucket the probe looks at. -/
def Bucket.probed (SINGLE_TUPLE_PER_BUCKET : Bool) (b : Bucket Thread n) : List Tuple :=
  if SINGLE_TUPLE_PER_BUCKET then [b.tuples 0] else b.held

/-- One bucket, or the way to the head for the next tuple. -/
def hashProbeRelSPartition (SINGLE_TUPLE_PER_BUCKET : Bool) (idx : BitVec 32 → Fin n) (m : Memory Thread n)
    (p : Probe Thread n) : Pass (Probe Thread n) ℕ :=
  match p.rest with
  | [] => .leave p.found
  | tuple :: rest =>
    match p.b with
    | none => .again { p with b := some (.head (idx tuple.key)) }
    | some b =>
      let next := (m.bucket b).next
      .again {
        rest := if next = none then rest else p.rest
        b := next
        found := p.found + keyCount ((m.bucket b).probed SINGLE_TUPLE_PER_BUCKET) tuple.key }

/-- The table, and how many threads have arrived at the barrier between build and probe. -/
structure Shared (Thread : Type) (n : ℕ) where
  memory : Memory Thread n
  arrived : ℕ

inductive Ctrl (Thread : Type) (n : ℕ) where
  | build (b : Build Thread n)
  | wait
  | probe (p : Probe Thread n)
  | finished (numResults : ℕ)
  deriving DecidableEq

/-- What the thread has found in the end. -/
def Ctrl.numResults : Ctrl Thread n → ℕ
  | .finished numResults => numResults
  | _ => 0

section
variable [DecidableEq Thread] [Fintype Thread]

/-- One step of a thread of the scalar join. -/
def hashThreadScalar (BUCKET_SIZE : ℕ) (SINGLE_TUPLE_PER_BUCKET : Bool) (idx : BitVec 32 → Fin n)
    (relS : Thread → List Tuple) : System.Program Thread (Shared Thread n) (Ctrl Thread n) :=
  fun t c s =>
    match c with
    | .build b =>
      match hashBuildRelRPartition BUCKET_SIZE idx t b s.memory with
      | some (b', m') => some (.build b', { s with memory := m' })
      | none => some (.wait, { s with arrived := s.arrived + 1 })
    | .wait =>
      if s.arrived = Fintype.card Thread then some (.probe { rest := relS t, b := none, found := 0 }, s) else none
    | .probe p =>
      match hashProbeRelSPartition SINGLE_TUPLE_PER_BUCKET idx s.memory p with
      | .again p' => some (.probe p', s)
      | .leave found => some (.finished found, s)
    | .finished _ => none

end

/-- All threads at the beginning of the build, on a table fresh from `allocate_hashtable`. -/
def start (relR : Thread → List Tuple) (garbage : Thread → ℕ → ℕ → Bucket Thread n) :
    System Thread (Shared Thread n) (Ctrl Thread n) where
  shared := { memory := freshMemory garbage, arrived := 0 }
  threads t := .build { rest := relR t, pc := .lock }

/-- The parts of a relation `initialize_hash_thread_args` gives to the threads. -/
def parts (NUM_THREADS : ℕ) (rel : List Tuple) : List (List Tuple) :=
  (Sampling.initializeHashThreadArgs NUM_THREADS rel.length 0 0).map fun args =>
    (rel.drop args.tuples).take args.num_tuples

/-- The part of a thread. -/
def part (NUM_THREADS : ℕ) (rel : List Tuple) (t : Fin NUM_THREADS) : List Tuple := (parts NUM_THREADS rel).getD t []

/-! ### The parts -/

theorem parts_eq (T : ℕ) (rel : List Tuple) :
    parts T rel = (List.range T).map fun i =>
      (rel.drop (rel.length / T * i)).take
        (if i + 1 = T then rel.length - rel.length / T * i else rel.length / T) := by
  rw [parts, Sampling.initializeHashThreadArgs_eq, List.map_map]
  rfl

/-- Together the parts are the relation. -/
theorem parts_flatten {T : ℕ} (hT : 0 < T) (rel : List Tuple) : (parts T rel).flatten = rel := by
  have hfirst : ∀ k, ((List.range k).map fun i => (rel.drop (rel.length / T * i)).take (rel.length / T)).flatten =
      rel.take (rel.length / T * k) := by
    intro k
    induction k with
    | zero => simp
    | succ k ih =>
      rw [List.range_succ, List.map_append, List.flatten_append, ih, List.map_singleton, List.flatten_singleton,
        Nat.mul_succ, List.take_add]
  obtain ⟨k, rfl⟩ : ∃ k, T = k + 1 := ⟨T - 1, by omega⟩
  have hprefix : (List.range k).map (fun i => (rel.drop (rel.length / (k + 1) * i)).take
      (if i + 1 = k + 1 then rel.length - rel.length / (k + 1) * i else rel.length / (k + 1))) =
      (List.range k).map fun i => (rel.drop (rel.length / (k + 1) * i)).take (rel.length / (k + 1)) := by
    apply List.map_congr_left
    intro i hi
    have hlt := List.mem_range.mp hi
    rw [if_neg (by omega)]
  have hlast : (rel.drop (rel.length / (k + 1) * k)).take (rel.length - rel.length / (k + 1) * k) =
      rel.drop (rel.length / (k + 1) * k) := by
    rw [← List.length_drop, List.take_length]
  rw [parts_eq, List.range_succ, List.map_append, List.flatten_append, hprefix, hfirst, List.map_singleton,
    List.flatten_singleton, if_pos rfl, hlast, List.take_append_drop]

/-- A sum over the parts is a sum over the threads. -/
theorem sum_part (T : ℕ) (rel : List Tuple) {M : Type*} [AddCommMonoid M] (f : List Tuple → M) :
    ∑ t, f (part T rel t) = ((parts T rel).map f).sum := by
  have hlength : (parts T rel).length = T := by simp [parts_eq]
  rw [← List.sum_ofFn]
  congr 1
  apply List.ext_getElem (by simp [hlength])
  intro i hi hi'
  simp only [List.length_map] at hi'
  simp [part, hi']

/-! ### What a probe finds -/

section
variable {single : Bool} {idx : BitVec 32 → Fin n} {m : Memory Thread n} {region : Fin n → List (Addr Thread n)}

/-- The tuples in the buckets of a chain that a probe looks at. -/
def probedBy (single : Bool) (m : Memory Thread n) (l : List (Addr Thread n)) : List Tuple :=
  l.flatMap fun a => (m.bucket a).probed single

@[simp] theorem probedBy_cons (single : Bool) (m : Memory Thread n) (a : Addr Thread n) (l : List (Addr Thread n)) :
    probedBy single m (a :: l) = (m.bucket a).probed single ++ probedBy single m l := List.flatMap_cons

@[simp] theorem probedBy_nil (single : Bool) (m : Memory Thread n) : probedBy single m [] = [] := rfl

theorem probedBy_false (m : Memory Thread n) (l : List (Addr Thread n)) : probedBy false m l = heldBy m l := rfl

/-- What a probe finds for the tuples `rest`, where `region` are the buckets behind the heads. -/
def findable (single : Bool) (idx : BitVec 32 → Fin n) (m : Memory Thread n) (region : Fin n → List (Addr Thread n))
    (rest : List Tuple) : ℕ :=
  (rest.map fun s => keyCount (probedBy single m (.head (idx s.key) :: region (idx s.key))) s.key).sum

/-- The steps of the probe for the tuples `rest`. -/
def cost (idx : BitVec 32 → Fin n) (region : Fin n → List (Addr Thread n)) (rest : List Tuple) : ℕ :=
  (rest.map fun s => (region (idx s.key)).length + 2).sum

/-- The probe finds `goal` matches in all and has `k` steps to go. -/
inductive Probing (single : Bool) (idx : BitVec 32 → Fin n) (m : Memory Thread n)
    (region : Fin n → List (Addr Thread n)) (goal : ℕ) : ℕ → Probe Thread n → Prop where
  | between {rest : List Tuple} {found : ℕ} (hgoal : goal = found + findable single idx m region rest) :
      Probing single idx m region goal (cost idx region rest + 1) { rest := rest, b := none, found := found }
  | inside {tuple : Tuple} {rest : List Tuple} {a : Addr Thread n} {l : List (Addr Thread n)} {found : ℕ}
      (hwalk : Walk (fun a => (m.bucket a).next) (m.bucket a).next l)
      (hgoal : goal = found + (keyCount (probedBy single m (a :: l)) tuple.key + findable single idx m region rest)) :
      Probing single idx m region goal (l.length + 1 + cost idx region rest + 1)
        { rest := tuple :: rest, b := some a, found := found }

theorem keyCount_append (ts ts' : List Tuple) (key : BitVec 32) :
    keyCount (ts ++ ts') key = keyCount ts key + keyCount ts' key :=
  List.countP_append

theorem Probing.pos {goal k : ℕ} {p : Probe Thread n} (h : Probing single idx m region goal k p) : 0 < k := by
  cases h <;> omega

/-- The step lemma of the probe. -/
theorem Probing.step {goal k : ℕ} {p : Probe Thread n} (h : Probing single idx m region goal k p)
    (hwalk : ∀ i, Walk (fun a => (m.bucket a).next) (m.bucket (.head i)).next (region i)) :
    (hashProbeRelSPartition single idx m p).Holds (fun p' => ∃ k' < k, Probing single idx m region goal k' p')
      (fun found => found = goal) := by
  cases h with
  | @between rest found hgoal =>
    cases rest with
    | nil => simpa [hashProbeRelSPartition, findable] using hgoal.symm
    | cons tuple rest =>
      refine ⟨_, ?_, .inside (hwalk (idx tuple.key)) hgoal⟩
      simp only [cost, List.map_cons, List.sum_cons]
      omega
  | @inside tuple rest a l found hnext hgoal =>
    cases l with
    | nil =>
      have hend : (m.bucket a).next = none := hnext
      simp only [hashProbeRelSPartition, hend, if_true, Pass.holds_again]
      refine ⟨_, ?_, .between ?_⟩
      · simp only [List.length_nil]
        omega
      · simpa [add_assoc] using hgoal
    | cons a' l =>
      obtain ⟨hsome, hnext'⟩ := hnext
      simp only [hashProbeRelSPartition, hsome, reduceCtorEq, if_false, Pass.holds_again]
      refine ⟨_, ?_, .inside hnext' ?_⟩
      · simp only [List.length_cons]
        omega
      · rw [probedBy_cons, keyCount_append] at hgoal
        omega

end

/-! ### The invariant of a run -/

/-- The thread as one of the build: after it, nothing is left to do. -/
def Ctrl.view : Ctrl Thread n → Build Thread n
  | .build b => b
  | .wait | .probe _ | .finished _ => { rest := [], pc := .lock }

@[simp] theorem Ctrl.view_eq : (∀ b, (Ctrl.build b : Ctrl Thread n).view = b) ∧
    (Ctrl.wait : Ctrl Thread n).view = { rest := [], pc := .lock } ∧
    (∀ p, (Ctrl.probe p : Ctrl Thread n).view = { rest := [], pc := .lock }) ∧
    (∀ found, (Ctrl.finished found : Ctrl Thread n).view = { rest := [], pc := .lock }) :=
  ⟨fun _ => rfl, rfl, fun _ => rfl, fun _ => rfl⟩

/-- The thread has not arrived at the barrier. -/
def Ctrl.building : Ctrl Thread n → Bool
  | .build _ => true
  | .wait | .probe _ | .finished _ => false

@[simp] theorem Ctrl.building_eq : (∀ b, (Ctrl.build b : Ctrl Thread n).building = true) ∧
    (Ctrl.wait : Ctrl Thread n).building = false ∧ (∀ p, (Ctrl.probe p : Ctrl Thread n).building = false) ∧
    (∀ found, (Ctrl.finished found : Ctrl Thread n).building = false) :=
  ⟨fun _ => rfl, rfl, fun _ => rfl, fun _ => rfl⟩

/-- The thread has passed the barrier. -/
def Ctrl.past : Ctrl Thread n → Bool
  | .probe _ | .finished _ => true
  | .build _ | .wait => false

@[simp] theorem Ctrl.past_eq : (∀ b, (Ctrl.build b : Ctrl Thread n).past = false) ∧
    (Ctrl.wait : Ctrl Thread n).past = false ∧ (∀ p, (Ctrl.probe p : Ctrl Thread n).past = true) ∧
    (∀ found, (Ctrl.finished found : Ctrl Thread n).past = true) :=
  ⟨fun _ => rfl, rfl, fun _ => rfl, fun _ => rfl⟩

section
variable [DecidableEq Thread] [Fintype Thread] {B : ℕ} {single : Bool} {idx : BitVec 32 → Fin n}
  {relR relS : Thread → List Tuple} {s s' : System Thread (Shared Thread n) (Ctrl Thread n)}

/-- The most steps a probe can take with the tuples `rest` in a table of `size` tuples. -/
def probeBound (size : ℕ) (rest : List Tuple) : ℕ := rest.length * (size + 2) + 1

/-- The tuples of all threads. -/
def size (relR : Thread → List Tuple) : ℕ := ∑ t, (relR t).length

/-- What holds of a thread that has `k` steps to go at most. -/
def Ok (single : Bool) (idx : BitVec 32 → Fin n) (size : ℕ) (rest : List Tuple) (g : Owned Thread n)
    (m : Memory Thread n) (k : ℕ) : Ctrl Thread n → Prop
  | .build b => k = b.rank + probeBound size rest + 2
  | .wait => k = probeBound size rest + 1
  | .probe p => Probing single idx m g.region (findable single idx m g.region rest) k p
  | .finished found => k = 0 ∧ found = findable single idx m g.region rest

/-- The invariant of a run with `k` changes to go at most. -/
structure JoinInv (B : ℕ) (single : Bool) (idx : BitVec 32 → Fin n) (relR relS : Thread → List Tuple)
    (g : Owned Thread n) (k : Thread → ℕ) (s : System Thread (Shared Thread n) (Ctrl Thread n)) : Prop where
  build : Inv B idx relR g (fun t => (s.threads t).view) s.shared.memory
  arrived : s.shared.arrived + (∑ t, if (s.threads t).building then 1 else 0) = Fintype.card Thread
  past : ∀ t, (s.threads t).past = true → s.shared.arrived = Fintype.card Thread
  ok : ∀ t, Ok single idx (size relR) (relS t) g s.shared.memory (k t) (s.threads t)

/-- With `N` changes to go at most. -/
def JoinRun (B : ℕ) (single : Bool) (idx : BitVec 32 → Fin n) (relR relS : Thread → List Tuple) (N : ℕ)
    (s : System Thread (Shared Thread n) (Ctrl Thread n)) : Prop :=
  ∃ g k, JoinInv B single idx relR relS g k s ∧ N = ∑ t, k t

/-- While a thread builds, nobody has passed the barrier. -/
theorem JoinInv.not_past {g : Owned Thread n} {k : Thread → ℕ} (h : JoinInv B single idx relR relS g k s) {t : Thread}
    (ht : (s.threads t).building = true) (u : Thread) : (s.threads u).past = false := by
  by_contra hpast
  have harrived := h.past u (by simpa using hpast)
  have hsum := h.arrived
  have hle := Finset.single_le_sum (f := fun t => if (s.threads t).building then 1 else 0) (fun _ _ => Nat.zero_le _)
    (Finset.mem_univ t)
  simp only [ht, if_true] at hle
  omega

/-- Once all threads have arrived, they are done with their parts of R. -/
theorem JoinInv.done {g : Owned Thread n} {k : Thread → ℕ} (h : JoinInv B single idx relR relS g k s)
    (harrived : s.shared.arrived = Fintype.card Thread) (u : Thread) : (s.threads u).view.rest = [] := by
  cases hu : s.threads u with
  | build b =>
    have hsum := h.arrived
    have hone : (if (s.threads u).building then 1 else 0) = 1 := by simp [hu]
    have hle := Finset.single_le_sum (f := fun t => if (s.threads t).building then 1 else 0) (fun _ _ => Nat.zero_le _)
      (Finset.mem_univ u)
    omega
  | wait | probe _ | finished _ => rfl

omit [DecidableEq Thread] [Fintype Thread] in
/-- What holds of a thread before the barrier does not depend on the table. -/
theorem Ok.of_not_past {size k : ℕ} {rest : List Tuple} {g g' : Owned Thread n} {m m' : Memory Thread n}
    {c : Ctrl Thread n} (h : Ok single idx size rest g m k c) (hc : c.past = false) :
    Ok single idx size rest g' m' k c := by
  cases c with
  | build _ | wait => exact h
  | probe _ | finished _ => simp at hc

omit [Fintype Thread] in
theorem view_set (s : System Thread (Shared Thread n) (Ctrl Thread n)) (t : Thread) (c : Ctrl Thread n)
    (m : Shared Thread n) :
    (fun u => ((s.set t c m).threads u).view) = Function.update (fun u => (s.threads u).view) t c.view := by
  funext u
  by_cases hu : u = t
  · subst hu
    simp
  · simp [hu]

/-- A move of one thread that is closer to its end afterwards, while what holds of the others stays. -/
theorem JoinInv.move {g g' : Owned Thread n} {k : Thread → ℕ} (h : JoinInv B single idx relR relS g k s) {t : Thread}
    {c : Ctrl Thread n} {m : Shared Thread n} (k' : ℕ) (hlt : k' < k t)
    (hbuild : Inv B idx relR g' (Function.update (fun u => (s.threads u).view) t c.view) m.memory)
    (harrived : m.arrived + (if c.building then 1 else 0) =
      s.shared.arrived + if (s.threads t).building then 1 else 0)
    (hpast : (∃ u, (s.threads u).past = true) ∨ c.past = true → m.arrived = Fintype.card Thread)
    (hok : Ok single idx (size relR) (relS t) g' m.memory k' c)
    (hothers : ∀ u, u ≠ t → Ok single idx (size relR) (relS u) g' m.memory (k u) (s.threads u)) :
    ∃ N' < ∑ u, k u, JoinRun B single idx relR relS N' (s.set t c m) := by
  have hk := sum_update id k t k'
  simp only [id] at hk
  refine ⟨_, ?_, g', Function.update k t k', ⟨?_, ?_, ?_, ?_⟩, rfl⟩
  · omega
  · rw [view_set]
    exact hbuild
  · have hsum := sum_update (fun c : Ctrl Thread n => if c.building then 1 else 0) s.threads t c
    have hbefore := h.arrived
    show m.arrived + ∑ u, (if (Function.update s.threads t c u).building then 1 else 0) = _
    omega
  · intro u hu
    by_cases hut : u = t
    · subst hut
      exact hpast (.inr (by simpa using hu))
    · exact hpast (.inl ⟨u, by simpa [hut] using hu⟩)
  · intro u
    by_cases hut : u = t
    · subst hut
      simpa using hok
    · simpa [hut] using hothers u hut

/-- A step of the build. -/
theorem JoinInv.step_build (hB : 0 < B) {g : Owned Thread n} {k : Thread → ℕ}
    (h : JoinInv B single idx relR relS g k s) {t : Thread} {b b' : Build Thread n} {m' : Memory Thread n}
    (ht : s.threads t = .build b) (hstep : hashBuildRelRPartition B idx t b s.shared.memory = some (b', m'))
    (hlt : b'.rank < b.rank) :
    ∃ N' < ∑ u, k u, JoinRun B single idx relR relS N' (s.set t (.build b') { s.shared with memory := m' }) := by
  have hview : (s.threads t).view = b := by rw [ht]; rfl
  have hbuilding : (s.threads t).building = true := by rw [ht]; rfl
  have hbuild : hashBuildRelRPartition B idx t (s.threads t).view s.shared.memory = some (b', m') := by
    rw [hview]
    exact hstep
  obtain ⟨g', hg'⟩ := h.build.step hB hbuild
  have hkt := h.ok t
  rw [ht] at hkt
  refine h.move (b'.rank + probeBound (size relR) (relS t) + 2) ?_ hg' (by simp [ht]) ?_
    rfl fun u _ => (h.ok u).of_not_past (h.not_past hbuilding u)
  · have hk : k t = b.rank + probeBound (size relR) (relS t) + 2 := hkt
    omega
  · intro hpast
    rcases hpast with ⟨u, hu⟩ | hpast
    · rw [h.not_past hbuilding u] at hu
      exact absurd hu (by simp)
    · exact absurd hpast (by simp)

/-- A thread arrives at the barrier. -/
theorem JoinInv.step_arrive {g : Owned Thread n} {k : Thread → ℕ} (h : JoinInv B single idx relR relS g k s)
    {t : Thread} {b : Build Thread n} (ht : s.threads t = .build b) (hrest : b.rest = []) :
    ∃ N' < ∑ u, k u, JoinRun B single idx relR relS N'
      (s.set t .wait { s.shared with arrived := s.shared.arrived + 1 }) := by
  have hview : (s.threads t).view = b := by rw [ht]; rfl
  have hbuilding : (s.threads t).building = true := by rw [ht]; rfl
  have hkt := h.ok t
  rw [ht] at hkt
  refine h.move (probeBound (size relR) (relS t) + 1) ?_ (h.build.congr ?_ ?_)
    (by simp [ht]) ?_ rfl fun u _ => (h.ok u).of_not_past (h.not_past hbuilding u)
  · have hk : k t = b.rank + probeBound (size relR) (relS t) + 2 := hkt
    omega
  · intro u
    by_cases hut : u = t
    · subst hut
      rw [Function.update_self, hview, hrest]
      rfl
    · rw [Function.update_of_ne hut]
  · intro u hne
    have hut : u ≠ t := by
      rintro rfl
      rw [hview] at hne
      exact hne hrest
    rw [Function.update_of_ne hut]
  · intro hpast
    rcases hpast with ⟨u, hu⟩ | hpast
    · rw [h.not_past hbuilding u] at hu
      exact absurd hu (by simp)
    · exact absurd hpast (by simp)

/-- The chain of a bucket is no longer than the relation. -/
theorem JoinInv.region_le (hB : 0 < B) {g : Owned Thread n} {k : Thread → ℕ}
    (h : JoinInv B single idx relR relS g k s) (harrived : s.shared.arrived = Fintype.card Thread) (i : Fin n) :
    (g.region i).length ≤ size relR := by
  have hidle := h.build.idle_of_done (h.done harrived) i
  have hcard := Multiset.card_le_card (h.build.held_le i)
  rw [Multiset.card_sum] at hcard
  simp only [Multiset.coe_card] at hcard
  exact (hidle.length_le hB).trans hcard

omit [DecidableEq Thread] [Fintype Thread] in
theorem cost_le {region : Fin n → List (Addr Thread n)} {size : ℕ} (hregion : ∀ i, (region i).length ≤ size)
    (rest : List Tuple) : cost idx region rest + 1 ≤ probeBound size rest := by
  have hle : (rest.map fun s => (region (idx s.key)).length + 2).sum ≤ (rest.map fun _ => size + 2).sum :=
    List.sum_le_sum fun s _ => Nat.add_le_add_right (hregion (idx s.key)) 2
  simp only [List.map_const', List.sum_replicate, smul_eq_mul] at hle
  unfold cost probeBound
  omega

/-- A thread passes the barrier. -/
theorem JoinInv.step_pass (hB : 0 < B) {g : Owned Thread n} {k : Thread → ℕ}
    (h : JoinInv B single idx relR relS g k s) {t : Thread} (ht : s.threads t = .wait)
    (harrived : s.shared.arrived = Fintype.card Thread) :
    ∃ N' < ∑ u, k u, JoinRun B single idx relR relS N'
      (s.set t (.probe { rest := relS t, b := none, found := 0 }) s.shared) := by
  have hkt := h.ok t
  rw [ht] at hkt
  refine h.move (cost idx g.region (relS t) + 1) ?_ ?_ (by simp [ht]) (fun _ => harrived)
    (.between (by omega)) fun u _ => h.ok u
  · have hk : k t = probeBound (size relR) (relS t) + 1 := hkt
    have hle : cost idx g.region (relS t) + 1 ≤ probeBound (size relR) (relS t) :=
      cost_le (h.region_le hB harrived) (relS t)
    omega
  · refine h.build.congr (fun u => ?_) (fun u hne => absurd (h.done harrived u) hne)
    by_cases hut : u = t
    · subst hut
      rw [Function.update_self, h.done harrived]
      rfl
    · rw [Function.update_of_ne hut]

/-- A step of the probe. -/
theorem JoinInv.step_probe {g : Owned Thread n} {k : Thread → ℕ} (h : JoinInv B single idx relR relS g k s)
    {t : Thread} {p : Probe Thread n} (ht : s.threads t = .probe p) :
    (hashProbeRelSPartition single idx s.shared.memory p).Holds
      (fun p' => ∃ N' < ∑ u, k u, JoinRun B single idx relR relS N' (s.set t (.probe p') s.shared))
      (fun found => ∃ N' < ∑ u, k u, JoinRun B single idx relR relS N' (s.set t (.finished found) s.shared)) := by
  have harrived := h.past t (by simp [ht])
  have hidle := h.build.idle_of_done (h.done harrived)
  have hkt := h.ok t
  rw [ht] at hkt
  have hbuild : ∀ c : Ctrl Thread n, c.view = { rest := [], pc := .lock } →
      Inv B idx relR g (Function.update (fun u => (s.threads u).view) t c.view) s.shared.memory := by
    intro c hc
    have hview : (s.threads t).view = c.view := by rw [ht, hc]; rfl
    rw [← hview, Function.update_eq_self]
    exact h.build
  have hpass := Probing.step hkt fun i => (hidle i).walk
  cases hbody : hashProbeRelSPartition single idx s.shared.memory p with
  | again p' =>
    rw [hbody, Pass.holds_again] at hpass
    obtain ⟨k', hlt, hp'⟩ := hpass
    exact h.move _ hlt (hbuild _ rfl) (by simp [ht]) (fun _ => harrived) hp' fun u _ => h.ok u
  | leave found =>
    rw [hbody, Pass.holds_leave] at hpass
    exact h.move _ (Probing.pos hkt) (hbuild _ rfl) (by simp [ht]) (fun _ => harrived) ⟨rfl, hpass⟩ fun u _ => h.ok u

/-- **The step lemma of the join.** -/
theorem falls_join (hB : 0 < B) :
    System.Falls (hashThreadScalar B single idx relS) (JoinRun B single idx relR relS) := by
  rintro N s _ ⟨g, k, h, rfl⟩ ⟨t, c, m, hmove⟩ hne
  cases ht : s.threads t with
  | build b =>
    simp only [hashThreadScalar, ht] at hmove
    cases hstep : hashBuildRelRPartition B idx t b s.shared.memory with
    | some r =>
      obtain ⟨b', m'⟩ := r
      simp only [hstep, Option.some.injEq, Prod.mk.injEq] at hmove
      obtain ⟨rfl, rfl⟩ := hmove
      rcases rank_step hstep with ⟨rfl, rfl⟩ | hlt
      · exact absurd (System.set_same ht.symm rfl) hne
      · exact h.step_build hB ht hstep hlt
    | none =>
      simp only [hstep, Option.some.injEq, Prod.mk.injEq] at hmove
      obtain ⟨rfl, rfl⟩ := hmove
      refine h.step_arrive ht ?_
      by_contra hcons
      obtain ⟨tuple, rest, hrest⟩ := List.exists_cons_of_ne_nil hcons
      have hsome := hash_build_isSome B idx t s.shared.memory hrest
      rw [hstep] at hsome
      exact absurd hsome (by simp)
  | wait =>
    simp only [hashThreadScalar, ht, Option.ite_none_right_eq_some, Option.some.injEq, Prod.mk.injEq] at hmove
    obtain ⟨harrived, rfl, rfl⟩ := hmove
    exact h.step_pass hB ht harrived
  | probe p =>
    have hpass := h.step_probe ht
    simp only [hashThreadScalar, ht] at hmove
    cases hbody : hashProbeRelSPartition single idx s.shared.memory p with
    | again p' =>
      simp only [hbody, Option.some.injEq, Prod.mk.injEq] at hmove
      obtain ⟨rfl, rfl⟩ := hmove
      rwa [hbody, Pass.holds_again] at hpass
    | leave found =>
      simp only [hbody, Option.some.injEq, Prod.mk.injEq] at hmove
      obtain ⟨rfl, rfl⟩ := hmove
      rwa [hbody, Pass.holds_leave] at hpass
  | finished found => simp [hashThreadScalar, ht] at hmove

/-- All threads have come to the end of the probe. -/
def Finished (s : System Thread (Shared Thread n) (Ctrl Thread n)) : Prop := ∀ t, ∃ found, s.threads t = .finished found

/-- Some thread gets on. -/
theorem progress_join (hB : 0 < B) (N : ℕ) (s : System Thread (Shared Thread n) (Ctrl Thread n))
    (hs : JoinRun B single idx relR relS N s) (hnot : ¬ Finished s) :
    ∃ s', System.Step (hashThreadScalar B single idx relS) s s' ∧ ∃ N' < N, JoinRun B single idx relR relS N' s' := by
  obtain ⟨g, k, h, rfl⟩ := hs
  by_cases hbuild : ∃ t, (s.threads t).building = true
  · obtain ⟨t, ht⟩ := hbuild
    cases hc : s.threads t with
    | wait | probe _ | finished _ => simp [hc] at ht
    | build b =>
      cases hrest : b.rest with
      | nil =>
        refine ⟨_, .move t .wait { s.shared with arrived := s.shared.arrived + 1 } ?_, h.step_arrive hc hrest⟩
        simp [hashThreadScalar, hc, hashBuildRelRPartition, hrest]
      | cons tuple rest =>
        obtain ⟨u, b', m', hne, hstep, hlt⟩ := h.build.progress (t := t) (by simpa [hc] using hrest)
        cases hu : s.threads u with
        | wait | probe _ | finished _ => simp [hu] at hne
        | build c =>
          simp only [hu, Ctrl.view] at hstep hlt
          refine ⟨_, .move u (.build b') { s.shared with memory := m' } ?_, h.step_build hB hu hstep hlt⟩
          simp [hashThreadScalar, hu, hstep]
  · have hnone : ∀ t, (s.threads t).building = false := by simpa using hbuild
    have harrived : s.shared.arrived = Fintype.card Thread := by
      have hsum := h.arrived
      simpa [hnone] using hsum
    obtain ⟨t, ht⟩ := not_forall.mp hnot
    cases hc : s.threads t with
    | build b => simpa [hc] using hnone t
    | wait =>
      refine ⟨_, .move t (.probe { rest := relS t, b := none, found := 0 }) s.shared ?_, h.step_pass hB hc harrived⟩
      simp [hashThreadScalar, hc, harrived]
    | probe p =>
      have hpass := h.step_probe hc
      cases hbody : hashProbeRelSPartition single idx s.shared.memory p with
      | again p' =>
        rw [hbody, Pass.holds_again] at hpass
        exact ⟨_, .move t (.probe p') s.shared (by simp [hashThreadScalar, hc, hbody]), hpass⟩
      | leave found =>
        rw [hbody, Pass.holds_leave] at hpass
        exact ⟨_, .move t (.finished found) s.shared (by simp [hashThreadScalar, hc, hbody]), hpass⟩
    | finished found => exact absurd ⟨found, hc⟩ ht

/-- The most changes a run can make. -/
def joinBound (relR relS : Thread → List Tuple) : ℕ :=
  ∑ t, (14 * (relR t).length + probeBound (size relR) (relS t) + 2)

theorem joinRun_start (garbage : Thread → ℕ → ℕ → Bucket Thread n) :
    ∃ N ≤ joinBound relR relS, JoinRun B single idx relR relS N (start relR garbage) := by
  refine ⟨_, ?_, { region := fun _ => [], held := fun _ => [] },
    fun t => ({ rest := relR t, pc := .lock } : Build Thread n).rank + probeBound (size relR) (relS t) + 2,
    ⟨inv_fresh garbage, ?_, ?_, fun t => rfl⟩, rfl⟩
  · apply Finset.sum_le_sum
    intro t _
    have hrank : ({ rest := relR t, pc := .lock } : Build Thread n).rank ≤ 14 * (relR t).length := by
      cases relR t with
      | nil => simp [Build.rank]
      | cons tuple rest =>
        simp only [Build.rank, Pc.rank, List.length_cons]
        omega
    omega
  · simp [start]
  · intro t ht
    simp [start] at ht

/-- What holds in every state of a run. -/
theorem joinInv_of_reachable (hB : 0 < B) {garbage : Thread → ℕ → ℕ → Bucket Thread n}
    (hs : System.Reachable (hashThreadScalar B single idx relS) (start relR garbage) s) :
    ∃ g k, JoinInv B single idx relR relS g k s := by
  obtain ⟨N, -, hstart⟩ : ∃ N ≤ joinBound relR relS, JoinRun B single idx relR relS N (start relR garbage) :=
    joinRun_start garbage
  obtain ⟨-, g, k, h, -⟩ := hs.invariant (falls_join hB) hstart
  exact ⟨g, k, h⟩

/-- What all threads of a complete run have found together, and the table they have found it in. -/
theorem sum_numResults (hB : 0 < B) [Nonempty Thread] {garbage : Thread → ℕ → ℕ → Bucket Thread n}
    (hs : System.Reachable (hashThreadScalar B single idx relS) (start relR garbage) s) (hfinished : Finished s) :
    ∃ g : Owned Thread n, (∀ i, Idle B s.shared.memory i (g.region i) (g.held i)) ∧
      (∀ i, (g.held i : Multiset Tuple) = (∑ t, (relR t : Multiset Tuple)).filter fun x => idx x.key = i) ∧
      ∑ t, (s.threads t).numResults = ∑ t, findable single idx s.shared.memory g.region (relS t) := by
  obtain ⟨g, k, h⟩ := joinInv_of_reachable hB hs
  obtain ⟨found, hfound⟩ := hfinished (Classical.arbitrary Thread)
  have hdone := h.done (h.past (Classical.arbitrary Thread) (by rw [hfound]; rfl))
  refine ⟨g, h.build.idle_of_done hdone, h.build.held_eq hdone, Finset.sum_congr rfl fun t _ => ?_⟩
  obtain ⟨found, hfound⟩ := hfinished t
  have hok := h.ok t
  rw [hfound] at hok ⊢
  exact hok.2

end

/-! ### What a bucket contributes -/

section
variable {B : ℕ} {idx : BitVec 32 → Fin n} {m : Memory Thread n} {i : Fin n} {l : List (Addr Thread n)}
  {ts : List Tuple}

/-- The first tuples of the buckets of a chain. -/
theorem probedBy_true (m : Memory Thread n) (l : List (Addr Thread n)) :
    probedBy true m l = l.map fun a => (m.bucket a).tuples 0 := by
  induction l with
  | nil => rfl
  | cons a l ih => simp [ih, Bucket.probed]

/-- The overflow buckets of a chain are never empty. -/
theorem Idle.count_pos (hB : 0 < B) (h : Idle B m i l ts) {a : Addr Thread n} (ha : a ∈ l) :
    0 < (m.bucket a).count := by
  cases l with
  | nil => simp at ha
  | cons b l =>
    rcases List.mem_cons.mp ha with rfl | ha
    · exact (h.first a rfl).1
    · rw [h.full a ha]
      exact hB

/-- A chain with an empty head is no more than that. -/
theorem Idle.of_empty (hB : 0 < B) (h : Idle B m i l ts) (hzero : (m.bucket (.head i)).count = 0) :
    l = [] ∧ ts = [] := by
  have hl : l = [] := by
    by_contra hne
    have hfull := h.head_full hne
    omega
  subst hl
  refine ⟨rfl, List.perm_nil.mp ?_⟩
  simpa [Bucket.held, hzero] using h.holds

/-- The first tuple of a bucket that is not empty is one of its tuples. -/
theorem first_mem {b : Bucket Thread n} (h : 0 < b.count) : b.tuples 0 ∈ b.held :=
  List.mem_map.mpr ⟨0, List.mem_range.mpr h, rfl⟩

/-- With one tuple a bucket, its first tuple is all there is. -/
theorem held_of_one {b : Bucket Thread n} (h : b.count = 1) : b.held = [b.tuples 0] := by
  simp [Bucket.held, h]

/-- With one tuple a bucket, the first tuples are all tuples, unless the head is empty. -/
theorem Idle.probed_one (h : Idle 1 m i l ts) :
    probedBy true m (.head i :: l) = if (m.bucket (.head i)).count = 0 then [0] else heldBy m (.head i :: l) := by
  split_ifs with hzero
  · obtain ⟨rfl, -⟩ := h.of_empty Nat.one_pos hzero
    simp [Bucket.probed, h.empty hzero]
  · have hone : ∀ a ∈ Addr.head i :: l, (m.bucket a).probed true = (m.bucket a).held := by
      intro a ha
      have hcount : (m.bucket a).count = 1 := by
        rcases List.mem_cons.mp ha with rfl | ha
        · have hle := h.head_le
          omega
        · have hpos := h.count_pos Nat.one_pos ha
          cases l with
          | nil => simp at ha
          | cons b l =>
            rcases List.mem_cons.mp ha with rfl | ha
            · have hle := (h.first a rfl).2
              omega
            · exact h.full a ha
      rw [held_of_one hcount]
      rfl
    exact List.flatMap_congr hone

/-- `k` tuples are in as many buckets as they need. -/
theorem Idle.length_eq (h : Idle B m i l ts) (hpos : 0 < (m.bucket (.head i)).count) :
    l.length + 1 = (ts.length + B - 1) / B := by
  have hheld : ∀ b : Bucket Thread n, b.held.length = b.count := fun b => by simp [Bucket.held]
  have hlength := h.holds.length_eq
  rw [heldBy_cons, List.length_append, hheld] at hlength
  symm
  cases l with
  | nil =>
    have hle := h.head_le
    simp only [heldBy_nil, List.length_nil] at hlength ⊢
    exact Nat.div_eq_of_lt_le (by omega) (by omega)
  | cons a l =>
    have hfull := h.head_full (by simp)
    obtain ⟨hpos', hle⟩ := h.first a rfl
    have hrest : (heldBy m l).length = l.length * B := by
      rw [heldBy, List.length_flatMap, List.map_congr_left (g := fun _ => B) fun b hb => by rw [hheld, h.full b hb]]
      simp
    rw [heldBy_cons, List.length_append, hheld, hrest] at hlength
    simp only [List.length_cons]
    apply Nat.div_eq_of_lt_le
    · have hexp : (l.length + 1 + 1) * B = l.length * B + B + B := by ring
      omega
    · have hexp : (l.length + 1 + 1 + 1) * B = l.length * B + B + B + B := by ring
      omega

theorem keyCount_cons (t : Tuple) (ts : List Tuple) (key : BitVec 32) :
    keyCount (t :: ts) key = keyCount ts key + if key = t.key then 1 else 0 := by
  simp [keyCount, List.countP_cons]

/-- Pairs with equal keys, counted from either side. -/
theorem sum_keyCount_comm (ts ts' : List Tuple) :
    (ts.map fun t => keyCount ts' t.key).sum = (ts'.map fun t => keyCount ts t.key).sum := by
  induction ts with
  | nil => simp [keyCount]
  | cons t ts ih =>
    have hcons : ∀ ts' : List Tuple, (ts'.map fun t' => keyCount (t :: ts) t'.key).sum =
        keyCount ts' t.key + (ts'.map fun t' => keyCount ts t'.key).sum := by
      intro ts'
      induction ts' with
      | nil => rfl
      | cons t' ts' ih' =>
        rw [List.map_cons, List.sum_cons, ih', List.map_cons, List.sum_cons, keyCount_cons, keyCount_cons,
          if_congr (eq_comm (a := t'.key)) rfl rfl]
        omega
    rw [hcons, List.map_cons, List.sum_cons, ih]

/-- Tuples that have their keys to themselves are found once each. -/
theorem sum_keyCount_of_nodup {ts ts' : List Tuple} (hnodup : (ts.map Tuple.key).Nodup) (hmem : ∀ t ∈ ts', t ∈ ts) :
    (ts'.map fun t => keyCount ts t.key).sum = ts'.length := by
  have hone : ∀ t ∈ ts', keyCount ts t.key = 1 := by
    intro t ht
    have hcount := List.count_eq_one_of_mem hnodup (List.mem_map.mpr ⟨t, hmem t ht, rfl⟩)
    rw [List.count_eq_countP, List.countP_map] at hcount
    refine Eq.trans (List.countP_congr fun x _ => ?_) hcount
    rw [decide_eq_true_iff, Function.comp_apply, beq_iff_eq]
    exact eq_comm
  rw [List.map_congr_left hone]
  simp

end

/-! ### The results -/

section
variable {T B : ℕ} {idx : BitVec 32 → Fin n}

theorem countP_sum {ι : Type*} [Fintype ι] (p : Tuple → Prop) [DecidablePred p] (f : ι → List Tuple) :
    Multiset.countP p (∑ t, (f t : Multiset Tuple)) = ∑ t, (f t).countP p := by
  exact (map_sum (Multiset.countPAddMonoidHom p) (fun t => (f t : Multiset Tuple)) Finset.univ).trans
    (Finset.sum_congr rfl fun t _ => Multiset.coe_countP p (f t))

/-- The parts of R have every key as often as R. -/
theorem countP_parts (hT : 0 < T) (R : List Tuple) (p : Tuple → Bool) :
    ∑ t, (part T R t).countP p = R.countP p := by
  rw [sum_part T R fun l => l.countP p, ← List.countP_flatten, parts_flatten hT]

/-- What all threads together go through is S. -/
theorem sum_findable (hT : 0 < T) (single : Bool) (m : Memory (Fin T) n) (region : Fin n → List (Addr (Fin T) n))
    (S : List Tuple) : ∑ t, findable single idx m region (part T S t) = findable single idx m region S := by
  rw [sum_part T S (findable single idx m region)]
  conv_rhs => rw [← parts_flatten hT S]
  rw [findable, List.map_flatten, List.sum_flatten, List.map_map]
  rfl

/-- The tuples of a bucket are those of R in it. -/
theorem countP_held {held : List Tuple} {R : List Tuple} (hT : 0 < T) {i : Fin n}
    (hheld : (held : Multiset Tuple) = (∑ t, (part T R t : Multiset Tuple)).filter fun x => idx x.key = i)
    (p : Tuple → Bool) : held.countP p = R.countP fun x => p x && idx x.key = i := by
  have hcount := congrArg (Multiset.countP fun x => p x = true) hheld
  rw [Multiset.coe_countP, Multiset.countP_filter, countP_sum] at hcount
  rw [← countP_parts hT R]
  simpa using hcount

/-- A key is in its bucket as often as in R. -/
theorem keyCount_held {held : List Tuple} {R : List Tuple} (hT : 0 < T) {key : BitVec 32}
    (hheld : (held : Multiset Tuple) = (∑ t, (part T R t : Multiset Tuple)).filter fun x => idx x.key = idx key) :
    keyCount held key = keyCount R key := by
  rw [keyCount, countP_held hT hheld, keyCount]
  apply List.countP_congr
  intro x _
  simp only [Bool.and_eq_true, decide_eq_true_eq, and_iff_left_iff_imp]
  intro heq
  rw [heq]

/-- The bucket the next step of a thread reads or writes. -/
def Ctrl.accesses {Thread : Type} (idx : BitVec 32 → Fin n) : Ctrl Thread n → Option (Addr Thread n)
  | .build { rest := tuple :: _, pc := pc } => pc.accesses (idx tuple.key)
  | .probe p => p.b
  | _ => none

/-- **No data race and no lost tuple.** In every state of every run, two threads that are about to access one bucket
both only probe; a tuple is never stored beyond the end of a bucket; and as soon as a thread has passed the barrier,
every bucket is a chain with exactly the tuples of R whose keys belong there. -/
theorem parallel_build_safe (hT : 0 < T) (hB : 0 < B) (single : Bool) (idx : BitVec 32 → Fin n)
    (garbage : Fin T → ℕ → ℕ → Bucket (Fin T) n) (R S : List Tuple)
    (s : System (Fin T) (Shared (Fin T) n) (Ctrl (Fin T) n))
    (hs : System.Reachable (hashThreadScalar B single idx (part T S)) (start (part T R) garbage) s) :
    (∀ t u a, t ≠ u → (s.threads t).accesses idx = some a → (s.threads u).accesses idx = some a →
      (s.threads t).past = true ∧ (s.threads u).past = true) ∧
    (∀ t rest a dest, s.threads t = .build { rest := rest, pc := .store a dest } → rest ≠ [] → dest < B) ∧
    ((∃ t, (s.threads t).past = true) → ∀ i, ∃ l ts, Idle B s.shared.memory i l ts ∧
      ts.Perm (R.filter fun r => idx r.key = i)) := by
  obtain ⟨g, k, h⟩ := joinInv_of_reachable hB hs
  refine ⟨?_, ?_, ?_⟩
  · intro t u a hne ht hu
    have hpast : ∀ t u : Fin T, ∀ b, s.threads t = .build b → (s.threads u).past = false := fun t u b hb =>
      h.not_past (t := t) (by simp [hb]) u
    cases hct : s.threads t with
    | wait | finished _ => simp [hct, Ctrl.accesses] at ht
    | probe p =>
      cases hcu : s.threads u with
      | wait | finished _ => simp [hcu, Ctrl.accesses] at hu
      | probe _ => simp
      | build c => simpa [hct] using hpast u t c hcu
    | build b =>
      cases hcu : s.threads u with
      | wait | finished _ => simp [hcu, Ctrl.accesses] at hu
      | probe _ => simpa [hcu] using hpast t u b hct
      | build c =>
        obtain ⟨trest, tpc⟩ := b
        obtain ⟨urest, upc⟩ := c
        cases trest with
        | nil => simp [hct, Ctrl.accesses] at ht
        | cons tuple trest =>
          cases urest with
          | nil => simp [hcu, Ctrl.accesses] at hu
          | cons tuple' urest =>
            rw [hct] at ht
            rw [hcu] at hu
            have htrest : (s.threads t).view.rest = tuple :: trest := by
              rw [hct]
              rfl
            have hurest : (s.threads u).view.rest = tuple' :: urest := by
              rw [hcu]
              rfl
            refine absurd (h.build.race_free htrest hurest (a := a) ?_ ?_) hne
            · rw [hct]
              exact ht
            · rw [hcu]
              exact hu
  · intro t rest a dest ht hrest
    obtain ⟨tuple, rest, rfl⟩ := List.exists_cons_of_ne_nil hrest
    have hview : (s.threads t).view.rest = tuple :: rest := by
      rw [ht]
      rfl
    exact h.build.store_lt hview (a := a) (by rw [ht]; rfl)
  · intro ⟨t, ht⟩ i
    have hdone := h.done (h.past t ht)
    refine ⟨g.region i, g.held i, h.build.idle_of_done hdone i, ?_⟩
    rw [List.perm_iff_count]
    intro x
    have hcount := countP_held hT (h.build.held_eq hdone i) (· == x)
    rw [List.count_eq_countP, hcount, List.count_eq_countP, List.countP_filter]

/-- A table of one bucket. -/
def oneBucket (_ : BitVec 32) : Fin 1 := ⟨0, Nat.one_pos⟩

/-- Two threads in turn. -/
def inTurn {n : ℕ} (idx : BitVec 32 → Fin n) (B : ℕ) (single : Bool) (R S : List Tuple) (rounds : ℕ) :
    System (Fin 2) (Shared (Fin 2) n) (Ctrl (Fin 2) n) :=
  System.exec (hashThreadScalar B single idx (part 2 S))
    (List.replicate rounds [⟨0, Nat.two_pos⟩, ⟨1, Nat.one_lt_two⟩]).flatten
    (start (part 2 R) fun _ _ _ => { count := 5, next := none, tuples := fun _ => 7 })

/-- After one round the first thread is at the bucket and the second one waits for the latch. -/
theorem parallel_build_safe_in_turn :
    let s := inTurn oneBucket 2 false [Tuple.mk 1 10, Tuple.mk 1 11] [] 1
    (∀ t u a, t ≠ u → (s.threads t).accesses oneBucket = some a →
      (s.threads u).accesses oneBucket = some a →
      (s.threads t).past = true ∧ (s.threads u).past = true) :=
  (parallel_build_safe Nat.two_pos Nat.two_pos false oneBucket _ _ _ _
    (System.reachable_exec _ _)).1

/-- **No run goes on for ever, and none gets stuck.** The steps that change something are bounded by the sizes of the
relations, and from every state of every run all threads can return. -/
theorem parallel_terminates (hB : 0 < B) (single : Bool) (idx : BitVec 32 → Fin n)
    (garbage : Fin T → ℕ → ℕ → Bucket (Fin T) n) (R S : List Tuple) :
    (∀ k s, System.Run (hashThreadScalar B single idx (part T S)) (start (part T R) garbage) k s →
      k ≤ joinBound (part T R) (part T S)) ∧
    (∀ s, System.Reachable (hashThreadScalar B single idx (part T S)) (start (part T R) garbage) s →
      ∃ s', System.Reachable (hashThreadScalar B single idx (part T S)) s s' ∧ Finished s') := by
  obtain ⟨N, hle, hstart⟩ : ∃ N ≤ joinBound (part T R) (part T S),
      JoinRun B single idx (part T R) (part T S) N (start (part T R) garbage) := joinRun_start garbage
  refine ⟨?_, ?_⟩
  · intro k s hrun
    obtain ⟨_, hbound, -⟩ := hrun.bounded (falls_join hB) hstart
    omega
  · intro s hs
    obtain ⟨_, hinv⟩ := hs.invariant (falls_join hB) hstart
    exact System.exists_final (progress_join hB) hinv

theorem parallel_terminates_in_turn :
    ∃ s', System.Reachable (hashThreadScalar 2 false oneBucket (part 2 [Tuple.mk 1 0]))
      (inTurn oneBucket 2 false [Tuple.mk 1 10, Tuple.mk 1 11] [Tuple.mk 1 0] 1) s' ∧ Finished s' :=
  (parallel_terminates Nat.two_pos false oneBucket _ [Tuple.mk 1 10, Tuple.mk 1 11]
    [Tuple.mk 1 0]).2 _ (System.reachable_exec _ _)

/-- What the threads have found, tuple by tuple of S. -/
theorem sum_numResults_eq (hT : 0 < T) (hB : 0 < B) {idx : BitVec 32 → Fin n}
    {garbage : Fin T → ℕ → ℕ → Bucket (Fin T) n} {R S : List Tuple}
    {s : System (Fin T) (Shared (Fin T) n) (Ctrl (Fin T) n)}
    (hs : System.Reachable (hashThreadScalar B false idx (part T S)) (start (part T R) garbage) s)
    (hfinished : Finished s) : ∑ t, (s.threads t).numResults = (S.map fun x => keyCount R x.key).sum := by
  have : Nonempty (Fin T) := ⟨⟨0, hT⟩⟩
  obtain ⟨g, hidle, hheld, hsum⟩ := sum_numResults hB hs hfinished
  rw [hsum, sum_findable hT]
  refine congrArg List.sum (List.map_congr_left fun x _ => ?_)
  rw [probedBy_false, ← keyCount_perm (hidle (idx x.key)).holds, keyCount_held hT (hheld (idx x.key))]

/-- **Every complete run counts the join**, whatever the order of the steps of its threads. The probe looks at all
tuples of a bucket: `SINGLE_TUPLE_PER_BUCKET` is not defined. -/
theorem parallel_join (hT : 0 < T) (hB : 0 < B) (idx : BitVec 32 → Fin n)
    (garbage : Fin T → ℕ → ℕ → Bucket (Fin T) n) (R S : List Tuple)
    (s : System (Fin T) (Shared (Fin T) n) (Ctrl (Fin T) n))
    (hs : System.Reachable (hashThreadScalar B false idx (part T S)) (start (part T R) garbage) s)
    (hfinished : Finished s) : ∑ t, (s.threads t).numResults = joinCardinality R S := by
  rw [sum_numResults_eq hT hB hs hfinished, joinCardinality_eq_sum]

/-- The tuple of S with key 1 is found by the first thread, in both tuples of R. -/
theorem parallel_join_in_turn :
    ∑ t, ((inTurn oneBucket 2 false [Tuple.mk 1 10, Tuple.mk 1 11] [Tuple.mk 1 0, Tuple.mk 3 0]
        24).threads t).numResults =
      joinCardinality [Tuple.mk 1 10, Tuple.mk 1 11] [Tuple.mk 1 0, Tuple.mk 3 0] :=
  parallel_join Nat.two_pos Nat.two_pos _ _ _ _ _ (System.reachable_exec _ _) fun t =>
    match t with
    | 0 => ⟨2, rfl⟩
    | 1 => ⟨0, rfl⟩

/-- **With `SINGLE_TUPLE_PER_BUCKET` and buckets of one tuple** every complete run counts the join, and one match more
for every tuple of S with key 0 whose bucket is empty. -/
theorem parallel_single_join (hT : 0 < T) (idx : BitVec 32 → Fin n)
    (garbage : Fin T → ℕ → ℕ → Bucket (Fin T) n) (R S : List Tuple)
    (s : System (Fin T) (Shared (Fin T) n) (Ctrl (Fin T) n))
    (hs : System.Reachable (hashThreadScalar 1 true idx (part T S)) (start (part T R) garbage) s)
    (hfinished : Finished s) :
    ∑ t, (s.threads t).numResults = joinCardinality R S +
      (S.map fun x => if x.key = 0 ∧ ∀ r ∈ R, idx r.key ≠ idx x.key then 1 else 0).sum := by
  have : Nonempty (Fin T) := ⟨⟨0, hT⟩⟩
  obtain ⟨g, hidle, hheld, hsum⟩ := sum_numResults Nat.one_pos hs hfinished
  rw [hsum, sum_findable hT, joinCardinality_eq_sum, ← List.sum_map_add]
  refine congrArg List.sum (List.map_congr_left fun x _ => ?_)
  have hempty : g.held (idx x.key) = [] ↔ ∀ r ∈ R, idx r.key ≠ idx x.key := by
    have hlength := countP_held hT (hheld (idx x.key)) fun _ => true
    simp only [List.countP_true, Bool.true_and] at hlength
    rw [← List.length_eq_zero_iff, hlength, List.countP_eq_zero]
    simp
  rw [(hidle (idx x.key)).probed_one, ← keyCount_held hT (hheld (idx x.key))]
  split_ifs with hzero hboth hboth
  · rw [((hidle (idx x.key)).of_empty Nat.one_pos hzero).2, hboth.1]
    rfl
  · obtain ⟨-, hnil⟩ := (hidle (idx x.key)).of_empty Nat.one_pos hzero
    have hkey : x.key ≠ (0 : Tuple).key := fun heq => hboth ⟨heq, hempty.mp hnil⟩
    simp only [hnil, keyCount, List.countP_nil, List.countP_cons, Nat.zero_add, decide_eq_true_eq]
    exact if_neg hkey
  · -- a head with a tuple is not that of an empty bucket
    have hperm := (hidle (idx x.key)).holds
    rw [hempty.mpr hboth.2, List.nil_perm, heldBy_cons, List.append_eq_nil_iff] at hperm
    have hlength := congrArg List.length hperm.1
    simp [Bucket.held] at hlength
    omega
  · rw [keyCount_perm (hidle (idx x.key)).holds, Nat.add_zero]

/-- A table of two buckets. -/
def twoBuckets (key : BitVec 32) : Fin 2 := ⟨key.toNat % 2, Nat.mod_lt _ Nat.two_pos⟩

/-- The second tuple of S is found in the empty head of the first bucket. -/
theorem parallel_single_join_in_turn :
    ∑ t, ((inTurn twoBuckets 1 true [Tuple.mk 1 10] [Tuple.mk 1 0, Tuple.mk 0 0] 24).threads t).numResults =
      joinCardinality [Tuple.mk 1 10] [Tuple.mk 1 0, Tuple.mk 0 0] + 1 := by
  refine (parallel_single_join Nat.two_pos twoBuckets _ [Tuple.mk 1 10] [Tuple.mk 1 0, Tuple.mk 0 0] _
    (System.reachable_exec _ _) fun t => ?_).trans ?_
  · match t with
    | 0 => exact ⟨1, rfl⟩
    | 1 => exact ⟨1, rfl⟩
  · rw [Nat.add_left_cancel_iff]
    simp [twoBuckets]

/-- **With `SINGLE_TUPLE_PER_BUCKET` and larger buckets**, the join of a relation of distinct keys with itself finds no
more than one tuple for every bucket that a chain takes up. -/
theorem parallel_single_self_join (hT : 0 < T) (hB : 0 < B) (idx : BitVec 32 → Fin n)
    (garbage : Fin T → ℕ → ℕ → Bucket (Fin T) n) (R : List Tuple) (hkeys : (R.map Tuple.key).Nodup)
    (s : System (Fin T) (Shared (Fin T) n) (Ctrl (Fin T) n))
    (hs : System.Reachable (hashThreadScalar B true idx (part T R)) (start (part T R) garbage) s)
    (hfinished : Finished s) :
    ∑ t, (s.threads t).numResults = ∑ i : Fin n, ((R.countP fun r => idx r.key = i) + B - 1) / B := by
  have : Nonempty (Fin T) := ⟨⟨0, hT⟩⟩
  obtain ⟨g, hidle, hheld, hsum⟩ := sum_numResults hB hs hfinished
  have hperm : ∀ i, (g.held i).Perm (R.filter fun r => idx r.key = i) := by
    intro i
    rw [List.perm_iff_count]
    intro x
    have hcount := countP_held hT (hheld i) (· == x)
    rw [List.count_eq_countP, hcount, List.count_eq_countP, List.countP_filter]
  -- tuple by tuple of R is bucket by bucket
  have hbuckets : findable true idx s.shared.memory g.region R = ∑ i : Fin n, ((g.held i).map fun x =>
      keyCount (probedBy true s.shared.memory (.head i :: g.region i)) x.key).sum := by
    have hfilter : ∀ f : Fin n → Tuple → ℕ, ∀ l : List Tuple, (l.map fun x => f (idx x.key) x).sum =
        ∑ i : Fin n, ((l.filter fun r => idx r.key = i).map (f i)).sum := by
      intro f l
      induction l with
      | nil => simp
      | cons x l ih =>
        have hsplit : ∀ i, (((x :: l).filter fun r => idx r.key = i).map (f i)).sum =
            (if idx x.key = i then f i x else 0) + ((l.filter fun r => idx r.key = i).map (f i)).sum := by
          intro i
          by_cases hi : idx x.key = i <;> simp [hi]
        rw [List.map_cons, List.sum_cons, ih, Finset.sum_congr rfl fun i _ => hsplit i, Finset.sum_add_distrib]
        simp
    rw [findable, hfilter fun i x => keyCount (probedBy true s.shared.memory (.head i :: g.region i)) x.key]
    exact Finset.sum_congr rfl fun i _ => ((hperm i).map _).sum_eq.symm
  rw [hsum, sum_findable hT, hbuckets]
  refine Finset.sum_congr rfl fun i _ => ?_
  have hlength : (g.held i).length = R.countP fun r => idx r.key = i := by
    rw [(hperm i).length_eq, List.countP_eq_length_filter]
  rcases Nat.eq_zero_or_pos (s.shared.memory.bucket (.head i)).count with hcount | hcount
  · obtain ⟨-, hnil⟩ := (hidle i).of_empty hB hcount
    rw [← hlength, hnil]
    simp only [List.map_nil, List.sum_nil, List.length_nil]
    exact (Nat.div_eq_of_lt (by omega)).symm
  · have hnodup : ((g.held i).map Tuple.key).Nodup :=
      (((hperm i).map Tuple.key).nodup_iff).mpr (hkeys.sublist (List.filter_sublist.map Tuple.key))
    have hmem : ∀ x ∈ probedBy true s.shared.memory (.head i :: g.region i), x ∈ g.held i := by
      intro x hx
      rw [probedBy_true] at hx
      obtain ⟨a, ha, rfl⟩ := List.mem_map.mp hx
      rw [(hidle i).holds.mem_iff]
      refine List.mem_flatMap.mpr ⟨a, ha, first_mem ?_⟩
      rcases List.mem_cons.mp ha with rfl | ha
      · exact hcount
      · exact (hidle i).count_pos hB ha
    rw [sum_keyCount_comm, sum_keyCount_of_nodup hnodup hmem, probedBy_true, List.length_map, List.length_cons,
      (hidle i).length_eq hcount, hlength]

/-- With two keys in one bucket the second one is missed. -/
theorem parallel_single_self_join_in_turn :
    ∑ t, ((inTurn oneBucket 2 true [Tuple.mk 1 10, Tuple.mk 2 11] [Tuple.mk 1 10, Tuple.mk 2 11]
        24).threads t).numResults =
      ∑ i : Fin 1, (([Tuple.mk 1 10, Tuple.mk 2 11].countP fun r => oneBucket r.key = i) + 2 - 1) / 2 :=
  parallel_single_self_join Nat.two_pos Nat.two_pos oneBucket _ _ (by simp) _
    (System.reachable_exec _ _) fun t =>
      match t with
      | 0 => ⟨1, rfl⟩
      | 1 => ⟨0, rfl⟩

end

end HashingArchive.Join.Parallel
