import HashingArchive.Hashtable.Robinhood

/-!
# `lookup_statistics`

Both tables walk the probe sequence of every key of a dataset and count the steps of the keys they find. For a
resident key these are the steps from its home bucket to its own.
-/

namespace HashingArchive.Hashtable

open HashingArchive.Library

/-- The local variables of `lookup_statistics`, in the order of the map it returns. -/
structure Statistics where
  minPsl : ℕ
  maxPsl : ℕ
  totalPsl : ℕ

/-- A key found after `probingStep` steps. -/
def Statistics.found (s : Statistics) (probingStep : ℕ) : Statistics where
  minPsl := min s.minPsl probingStep
  maxPsl := max s.maxPsl probingStep
  totalPsl := (s.totalPsl + probingStep) % 2 ^ 64

/-- What one walk adds: `goto next` without a step count adds nothing. -/
def Statistics.count (s : Statistics) : Option (Option ℕ) → Statistics
  | some (some probingStep) => s.found probingStep
  | _ => s

/-- The three counters before the first key. -/
def Statistics.zero : Statistics := { minPsl := 0, maxPsl := 0, totalPsl := 0 }

theorem totalPsl_foldl (psls : List ℕ) (s : Statistics) (hs : s.totalPsl < 2 ^ 64) :
    (psls.foldl Statistics.found s).totalPsl = (s.totalPsl + psls.sum) % 2 ^ 64 := by
  induction psls generalizing s with
  | nil => exact (Nat.mod_eq_of_lt hs).symm
  | cons psl psls ih =>
    rw [List.foldl_cons, ih _ (Nat.mod_lt _ (by norm_num)), List.sum_cons, Statistics.found, Nat.mod_add_mod,
      Nat.add_assoc]

theorem maxPsl_foldl_le_iff (psls : List ℕ) (s : Statistics) (m : ℕ) :
    (psls.foldl Statistics.found s).maxPsl ≤ m ↔ s.maxPsl ≤ m ∧ ∀ psl ∈ psls, psl ≤ m := by
  induction psls generalizing s with
  | nil => simp
  | cons psl psls ih =>
    rw [List.foldl_cons, ih, Statistics.found, max_le_iff, List.forall_mem_cons, and_assoc]

namespace Probing

section
variable {Key Hash Payload : Type} [DecidableEq Key] (c : Config Key Hash)

/-- One slot of `lookup_statistics`. -/
def statisticsVisit (t : Table c Payload) (key : Key) (b : Fin c.directorySize) (probingStep : ℕ)
    (i : Fin c.bucketSize) : Option (Option ℕ) :=
  if (t b i).key = key then some (some probingStep)
  else if (t b i).key = c.sentinel then some none
  else none

def lookupStatistics (t : Table c Payload) (dataset : List Key) : Statistics :=
  dataset.foldl (fun s key => s.count (probeLoop c.probingfn (c.home key) (statisticsVisit c t key) none))
    Statistics.zero

end

section
variable {Key Hash Payload : Type} [DecidableEq Key] {c : Config Key Hash} {t : Table c Payload}

theorem statisticsVisit_eq_none {key : Key} {b : Fin c.directorySize} {s : ℕ} {i : Fin c.bucketSize} :
    statisticsVisit c t key b s i = none ↔ Occupied t b i ∧ (t b i).key ≠ key := by
  unfold statisticsVisit Occupied
  split_ifs <;> simp_all

/-- A resident key is found after the steps from its home to its bucket. -/
theorem probeLoop_statistics (hinv : Inv t) {b : Fin c.directorySize} {i : Fin c.bucketSize}
    (hocc : Occupied t b i) : ∃ s, c.Reaches (t b i).key s ∧ c.bucketAt (t b i).key s = b ∧
      probeLoop c.probingfn (c.home (t b i).key) (statisticsVisit c t (t b i).key) none = some (some s) := by
  obtain ⟨r, hr, hanswer⟩ := probeLoop_spec c.probingfn c.directorySize_lt.le (c.home (t b i).key)
    (statisticsVisit c t (t b i).key) none
  have hres : Resident t (t b i).key := ⟨b, i, rfl⟩
  rw [hr]
  cases hanswer with
  | found s i' r hreach hpassed hvisit =>
    unfold statisticsVisit at hvisit
    split_ifs at hvisit with heq hempty
    · refine ⟨s, hreach, (hinv.unique b i _ i' hocc heq).1, ?_⟩
      rw [Option.some.inj hvisit]
    · exact absurd hempty ((hinv.resident_visit hocc hres
        (fun j hj i' => (statisticsVisit_eq_none.mp (hpassed.1 j hj i')).2)
        (fun i' hi' => (statisticsVisit_eq_none.mp (hpassed.2 i' hi')).2)).1 i' rfl heq)
  | back s hreach hpassed hback =>
    have hsucc := (hinv.resident_visit hocc hres
      (fun j hj i' => (statisticsVisit_eq_none.mp (hpassed.1 j hj i')).2)
      (fun i' hi' => (statisticsVisit_eq_none.mp (hpassed.2 i' hi')).2)).2 le_rfl
    rw [Nat.mod_eq_of_lt hsucc.1] at hback
    exact absurd hback (hsucc.2 (s + 1) (by omega) le_rfl)

/-- The statistics of a dataset of resident keys. -/
theorem lookupStatistics_eq {psl : Key → ℕ} {dataset : List Key}
    (h : ∀ key ∈ dataset, probeLoop c.probingfn (c.home key) (statisticsVisit c t key) none = some (some (psl key))) :
    lookupStatistics c t dataset = (dataset.map psl).foldl Statistics.found Statistics.zero := by
  rw [lookupStatistics, List.foldl_map]
  apply List.foldl_ext
  intro s key hkey
  rw [h key hkey, Statistics.count]

end

end Probing

namespace Robinhood

section
variable {Key Hash Payload : Type} [DecidableEq Key] (c : Config Key Hash)

/-- One slot of `lookup_statistics`. -/
def statisticsVisit (t : Table c Payload) (key : Key) (b : Fin c.directorySize) (probingStep : ℕ)
    (i : Fin c.bucketSize) : Option (Option ℕ) :=
  if (t b i).key = key then some (some probingStep)
  else if (t b i).key = c.sentinel then some none
  else none

def lookupStatistics (t : Table c Payload) (dataset : List Key) : Statistics :=
  dataset.foldl (fun s key => s.count (probeLoop c.probingfn (c.home key) (statisticsVisit c t key) none))
    Statistics.zero

theorem lookupStatistics_forget (t : Table c Payload) (dataset : List Key) :
    Probing.lookupStatistics c (forget t) dataset = lookupStatistics c t dataset := by
  have hvisit : Probing.statisticsVisit c (forget t) = statisticsVisit c t := rfl
  rw [Probing.lookupStatistics, lookupStatistics, hvisit]

end

end Robinhood

end HashingArchive.Hashtable
