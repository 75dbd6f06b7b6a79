import HashingArchive.Hashtable.Statistics
import HashingArchive.Hashtable.Quadratic
import HashingArchive.Hashtable.RobinhoodRuns

/-!
# `lookup_statistics` and the steps of `lookup`

The loop of `lookup_statistics` is the loop of `lookup` with another answer (`probeLoop_statisticsVisit`), so the
step counts it adds up are those of `lookup`. The figures it reports describe them only for a dataset with a key
in its home bucket, since `min_psl` starts at zero (`lookupStatistics_describes_iff`).
-/

namespace HashingArchive.Hashtable

open HashingArchive.Library HashingArchive.Loop

/-! ### A probe loop with another answer -/

theorem probeLoop_map {N B : ℕ} {ρ ρ' : Type} (f : ProbingFn) (h : Fin N) (visit : Fin N → ℕ → Fin B → Option ρ)
    (cycle : ρ) (g : ρ → ρ') :
    probeLoop f h (fun b s i => (visit b s i).map g) (g cycle) = (probeLoop f h visit cycle).map g := by
  apply run_map
  intro s
  unfold probeBody
  dsimp only
  split_ifs with hlt hback
  · cases visit s.slotIndex s.probingStep ⟨s.i, hlt⟩ <;> rfl
  · rfl
  · rfl

/-! ### The figures -/

/-- The figures are the minimum, maximum and sum of the step counts. -/
structure Statistics.Describes (s : Statistics) (psls : List ℕ) : Prop where
  min : psls.min? = some s.minPsl
  max : psls.max? = some s.maxPsl
  total : s.totalPsl = psls.sum

theorem minPsl_foldl (psls : List ℕ) (s : Statistics) (hs : s.minPsl = 0) :
    (psls.foldl Statistics.found s).minPsl = 0 := by
  induction psls generalizing s with
  | nil => exact hs
  | cons psl psls ih =>
    apply ih
    rw [Statistics.found, hs, Nat.zero_min]

theorem maxPsl_foldl_mem (psls : List ℕ) (s : Statistics) :
    (psls.foldl Statistics.found s).maxPsl = s.maxPsl ∨ (psls.foldl Statistics.found s).maxPsl ∈ psls := by
  induction psls generalizing s with
  | nil => exact Or.inl rfl
  | cons psl psls ih =>
    rw [List.foldl_cons]
    rcases ih (s.found psl) with heq | hmem
    · rw [heq, Statistics.found]
      rcases max_choice s.maxPsl psl with hmax | hmax
      · exact Or.inl hmax
      · exact Or.inr (by rw [hmax]; exact List.mem_cons_self)
    · exact Or.inr (List.mem_cons_of_mem _ hmem)

theorem max?_eq_maxPsl {psls : List ℕ} (hne : psls ≠ []) :
    psls.max? = some (psls.foldl Statistics.found .zero).maxPsl := by
  have hle := (maxPsl_foldl_le_iff psls .zero _).mp le_rfl
  rw [List.max?_eq_some_iff]
  refine ⟨?_, hle.2⟩
  rcases maxPsl_foldl_mem psls .zero with hzero | hmem
  · -- a maximum that is still zero is that of any of the keys
    obtain ⟨psl, hpsl⟩ := List.exists_mem_of_ne_nil psls hne
    have hpsl0 := hle.2 psl hpsl
    rw [hzero] at hpsl0 ⊢
    rwa [show Statistics.zero.maxPsl = psl from (Nat.le_zero.mp hpsl0).symm]
  · exact hmem

/-- The maximum is always right, the minimum if it is zero, the sum if it fits its word. -/
theorem describes_iff {psls : List ℕ} (hne : psls ≠ []) :
    (psls.foldl Statistics.found .zero).Describes psls ↔ 0 ∈ psls ∧ psls.sum < 2 ^ 64 := by
  have hmin := minPsl_foldl psls .zero rfl
  have htotal := totalPsl_foldl psls .zero (by norm_num [Statistics.zero])
  rw [show Statistics.zero.totalPsl = 0 from rfl, Nat.zero_add] at htotal
  constructor
  · intro h
    have hmin' := h.min
    have htotal' := h.total
    rw [hmin, List.min?_eq_some_iff] at hmin'
    rw [htotal] at htotal'
    exact ⟨hmin'.1, by rw [← htotal']; exact Nat.mod_lt _ (by norm_num)⟩
  · rintro ⟨hmem, hlt⟩
    refine ⟨?_, max?_eq_maxPsl hne, by rw [htotal, Nat.mod_eq_of_lt hlt]⟩
    rw [hmin, List.min?_eq_some_iff]
    exact ⟨hmem, fun _ _ => Nat.zero_le _⟩

/-! ### The steps of a lookup -/

namespace Probing

section
variable {Key Hash Payload : Type} [DecidableEq Key] (c : Config Key Hash)

/-- The loop of `lookup`, with the step count it stands at when a slot answers. -/
def lookupRun (t : Table c Payload) (key : Key) : Option (Outcome (Option Payload) × Option ℕ) :=
  probeLoop c.probingfn (c.home key)
    (fun b probingStep i => (lookupVisit c t key b probingStep i).map fun r => (r, some probingStep))
    (.value none, none)

/-- The step count of an answer with a payload. -/
def foundAt : Outcome (Option Payload) × Option ℕ → Option ℕ
  | (.value (some _), probingStep) => probingStep
  | _ => none

/-- The probe steps `lookup` takes from the home bucket until it finds the key. -/
def lookupSteps (t : Table c Payload) (key : Key) : Option ℕ := (lookupRun c t key).bind foundAt

end

section
variable {Key Hash Payload : Type} [DecidableEq Key] {c : Config Key Hash} {t : Table c Payload} {key : Key}

theorem lookupRun_fst (hkey : key ≠ c.sentinel) :
    ((lookupRun c t key).map Prod.fst).getD .diverged = lookup c t key := by
  rw [lookup, if_neg hkey, lookupRun, ← probeLoop_map]
  simp only [Option.map_map, Function.comp_def, Option.map_id']

theorem probeLoop_statisticsVisit :
    probeLoop c.probingfn (c.home key) (statisticsVisit c t key) none = (lookupRun c t key).map foundAt := by
  have hvisit : statisticsVisit c t key = fun b probingStep i =>
      ((lookupVisit c t key b probingStep i).map fun r => (r, some probingStep)).map foundAt := by
    funext b probingStep i
    unfold statisticsVisit lookupVisit
    split_ifs <;> rfl
  rw [lookupRun, ← probeLoop_map, hvisit]
  rfl

theorem lookupSteps_eq : lookupSteps c t key =
    (probeLoop c.probingfn (c.home key) (statisticsVisit c t key) none).join := by
  rw [probeLoop_statisticsVisit, lookupSteps]
  cases lookupRun c t key <;> rfl

theorem lookupSteps_eq_some_iff {s : ℕ} : lookupSteps c t key = some s ↔
    probeLoop c.probingfn (c.home key) (statisticsVisit c t key) none = some (some s) := by
  rw [lookupSteps_eq, Option.join_eq_some_iff]

/-- A resident key is found, without a step if it is in its home bucket. -/
theorem exists_lookupSteps (hinv : Inv t) (hkey : key ≠ c.sentinel) (hres : Resident t key) :
    ∃ s, lookupSteps c t key = some s ∧ (s = 0 ↔ ∃ i, (t (c.home key) i).key = key) := by
  obtain ⟨b, i, rfl⟩ := hres
  obtain ⟨s, hreach, hbucket, hloop⟩ := probeLoop_statistics hinv hkey
  refine ⟨s, lookupSteps_eq_some_iff.mpr hloop, fun hs => ?_, ?_⟩
  · subst hs
    have hhome : c.home (t b i).key = b := (c.probingfn.probe_zero c.directorySize_lt.le _).symm.trans hbucket
    exact ⟨i, by rw [hhome]⟩
  · rintro ⟨i', hi'⟩
    obtain ⟨hhome, -⟩ := hinv.unique b i _ i' hkey hi'
    by_contra hs
    exact hreach.2 s (Nat.one_le_iff_ne_zero.mpr hs) le_rfl (hbucket.trans hhome.symm)

/-- On a sound table the figures of a dataset of resident keys are those of its lookups for a key at home and a
total that fits. -/
theorem exists_steps (hinv : Inv t) {dataset : List Key} (hne : dataset ≠ [])
    (hres : ∀ key ∈ dataset, key ≠ c.sentinel ∧ Resident t key) :
    ∃ steps : Key → ℕ, (∀ key ∈ dataset, lookupSteps c t key = some (steps key)) ∧
      ((lookupStatistics c t dataset).Describes (dataset.map steps) ↔
        (∃ key ∈ dataset, ∃ i, (t (c.home key) i).key = key) ∧ (dataset.map steps).sum < 2 ^ 64) := by
  have hsteps : ∀ key, ∃ s, key ∈ dataset →
      lookupSteps c t key = some s ∧ (s = 0 ↔ ∃ i, (t (c.home key) i).key = key) := by
    intro key
    by_cases hmem : key ∈ dataset
    · obtain ⟨s, hs⟩ := exists_lookupSteps hinv (hres key hmem).1 (hres key hmem).2
      exact ⟨s, fun _ => hs⟩
    · exact ⟨0, fun habs => absurd habs hmem⟩
  choose steps hsteps using hsteps
  refine ⟨steps, fun key hkey => (hsteps key hkey).1, ?_⟩
  rw [lookupStatistics_eq fun key hkey => lookupSteps_eq_some_iff.mp (hsteps key hkey).1,
    describes_iff (by simpa using hne), List.mem_map]
  refine and_congr_left fun _ => exists_congr fun key => and_congr_right fun hkey => ?_
  exact (hsteps key hkey).2

end

end Probing

namespace Robinhood

section
variable {Key Hash Payload : Type} [DecidableEq Key] (c : Config Key Hash)

/-- The loop of `lookup`, with the step count it stands at when a slot answers. -/
def lookupRun (t : Table c Payload) (key : Key) : Option (Outcome (Option Payload) × Option ℕ) :=
  probeLoop c.probingfn (c.home key)
    (fun b probingStep i => (lookupVisit c t key b probingStep i).map fun r => (r, some probingStep))
    (.value none, none)

/-- The probe steps `lookup` takes from the home bucket until it finds the key. -/
def lookupSteps (t : Table c Payload) (key : Key) : Option ℕ := (lookupRun c t key).bind Probing.foundAt

end

section
variable {Key Hash Payload : Type} [DecidableEq Key] {c : Config Key Hash} {t : Table c Payload}

theorem lookupRun_fst {key : Key} (hkey : key ≠ c.sentinel) :
    ((lookupRun c t key).map Prod.fst).getD .diverged = lookup c t key := Probing.lookupRun_fst (t := forget t) hkey

theorem exists_steps (hinv : Inv t) {dataset : List Key} (hne : dataset ≠ [])
    (hres : ∀ key ∈ dataset, key ≠ c.sentinel ∧ Resident t key) :
    ∃ steps : Key → ℕ, (∀ key ∈ dataset, lookupSteps c t key = some (steps key)) ∧
      ((lookupStatistics c t dataset).Describes (dataset.map steps) ↔
        (∃ key ∈ dataset, ∃ i, (t (c.home key) i).key = key) ∧ (dataset.map steps).sum < 2 ^ 64) := by
  rw [← lookupStatistics_forget]
  exact Probing.exists_steps hinv.forget hne hres

end

end Robinhood

/-- **When the figures of `lookup_statistics` are those of the lookups**, in both tables and every state a run
reaches: for a dataset with a key in its home bucket and a total that fits `size_t`. -/
theorem lookupStatistics_describes_iff {Key Hash Payload : Type} [DecidableEq Key] (c : Config Key Hash)
    (ops : List (Op Key Payload)) (dataset : List Key) (hne : dataset ≠ []) :
    (∀ memory : Probing.Table c Payload,
      let t := ((Probing.store c).run (Probing.clear c memory) ops).2
      (∀ key ∈ dataset, key ≠ c.sentinel ∧ Probing.Resident t key) →
      ∃ steps : Key → ℕ, (∀ key ∈ dataset, Probing.lookupSteps c t key = some (steps key)) ∧
        ((Probing.lookupStatistics c t dataset).Describes (dataset.map steps) ↔
          (∃ key ∈ dataset, ∃ i, (t (c.home key) i).key = key) ∧ (dataset.map steps).sum < 2 ^ 64)) ∧
    ∀ memory : Robinhood.Table c Payload,
      let t := ((Robinhood.store c).run (Robinhood.clear c memory) ops).2
      (∀ key ∈ dataset, key ≠ c.sentinel ∧ Robinhood.Resident t key) →
      ∃ steps : Key → ℕ, (∀ key ∈ dataset, Robinhood.lookupSteps c t key = some (steps key)) ∧
        ((Robinhood.lookupStatistics c t dataset).Describes (dataset.map steps) ↔
          (∃ key ∈ dataset, ∃ i, (t (c.home key) i).key = key) ∧ (dataset.map steps).sum < 2 ^ 64) :=
  ⟨fun memory => Probing.exists_steps (Probing.inv_reached memory ops) hne,
    fun memory => Robinhood.exists_steps (Robinhood.inv_reached memory ops) hne⟩

/-- Key `1` of the two buckets is one step away from its home, and `min_psl` is reported as zero. -/
theorem lookupStatistics_misses_minimum :
    let c := Probing.twoBuckets .linear
    let t := ((Probing.store c).run (Probing.clear c fun _ _ => { key := 0, payload := 9 })
      [.insert 0 5, .insert 1 6]).2
    Probing.lookupSteps c t 1 = some 1 ∧ ¬(Probing.lookupStatistics c t [1]).Describes [1] := by
  intro c t
  have hmin : (Probing.lookupStatistics c t [1]).minPsl = 0 := by decide
  refine ⟨by decide, fun h => ?_⟩
  have hone := h.min
  rw [hmin] at hone
  exact absurd hone (by decide)

/-- With key `0`, at home in bucket `0`, the figures are right. -/
theorem lookupStatistics_describes_two_buckets :
    let c := Probing.twoBuckets .linear
    let t := ((Probing.store c).run (Probing.clear c fun _ _ => { key := 0, payload := 9 })
      [.insert 0 5, .insert 1 6]).2
    (Probing.lookupStatistics c t [1, 0]).Describes [1, 0] := by
  intro c t
  obtain ⟨steps, hsteps, hiff⟩ := (lookupStatistics_describes_iff c [.insert 0 5, .insert 1 6] [1, 0] (by decide)).1
    (fun _ _ => { key := 0, payload := 9 }) (by decide)
  have h0 : steps 0 = 0 := Option.some.inj ((hsteps 0 (by decide)).symm.trans (by decide))
  have h1 : steps 1 = 1 := Option.some.inj ((hsteps 1 (by decide)).symm.trans (by decide))
  simp only [List.map_cons, List.map_nil, h0, h1] at hiff
  exact hiff.mpr ⟨by decide, by norm_num⟩

end HashingArchive.Hashtable
