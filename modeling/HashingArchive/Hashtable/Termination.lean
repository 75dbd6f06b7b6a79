import HashingArchive.Hashtable.Quadratic
import HashingArchive.Hashtable.RobinhoodRuns

/-!
# Every probe loop ends

The walks of `Probing` and `RobinhoodProbing` are cut off after a number of passes (`probeBound`, `insertBound`)
that no walk needs: the loops themselves end, and with what the functions return (`probe_loops_return`). A probe
sequence is back at its first bucket after at most `N` steps, with quadratic probing also after `2 ^ 32`, where the
square wraps to zero.
-/

namespace HashingArchive.Hashtable

open HashingArchive.Library HashingArchive.Loop

/-! ### The subtraction loop of linear probing -/

/-- One round of `while (next >= directory_size) next -= directory_size`. -/
def subtractBody (directorySize next : ℕ) : Pass ℕ ℕ :=
  if directorySize ≤ next then .again (next - directorySize) else .leave next

theorem run_subtractBody {N : ℕ} (hN : 0 < N) (fuel next : ℕ) (hfuel : next ≤ fuel) :
    run (subtractBody N) (fuel + 1) next = some (subtractWhile N fuel next) := by
  induction fuel generalizing next with
  | zero =>
    apply run_leave
    rw [subtractBody, if_neg (by omega), subtractWhile]
  | succ fuel ih =>
    by_cases hge : N ≤ next
    · have hbody : subtractBody N next = .again (next - N) := if_pos hge
      rw [subtractWhile, if_pos hge, run_again hbody]
      exact ih (next - N) (by omega)
    · have hbody : subtractBody N next = .leave next := if_neg hge
      rw [subtractWhile, if_neg hge, run_leave hbody]

/-- The loop leaves `LinearProbingFunc` with its result. -/
theorem returns_subtractBody {N : ℕ} (hN : 0 < N) (index probingStep : ℕ) :
    Returns (subtractBody N) ((index + probingStep) % 2 ^ 64) (LinearProbingFunc N index probingStep) :=
  ⟨_, run_subtractBody hN _ _ le_rfl⟩

/-! ### The return to the home bucket -/

namespace ProbingFn

/-- Quadratic probing is back home after `N` steps, or after `2 ^ 32`, whose square is zero in `size_t`. -/
theorem exists_back_quadratic {N : ℕ} (h : Fin N) (hN : N ≤ 2 ^ 64) :
    ∃ j, 1 ≤ j ∧ j ≤ min N (2 ^ 32) ∧ quadratic.probe h j = h := by
  have hh := h.isLt
  rcases Nat.lt_or_ge N (2 ^ 32) with hlt | hge
  · refine ⟨N, h.pos, by omega, ?_⟩
    exact (probe_quadratic_eq_self_iff hlt h le_rfl).mpr (dvd_mul_right N N)
  · refine ⟨2 ^ 32, by norm_num, by omega, Fin.ext ?_⟩
    simp only [probe, apply, QuadraticProbingFunc]
    rw [show (2 ^ 32 * 2 ^ 32 : ℕ) = 2 ^ 64 by norm_num, Nat.add_mod_right, Nat.mod_eq_of_lt (hh.trans_le hN),
      Nat.mod_eq_of_lt hh]

end ProbingFn

/-! ### The walks over the buckets -/

/-- The probe loop from bucket `h` ends with `r`, whatever number of passes it takes. -/
def ProbeReturns {N B : ℕ} {ρ : Type} (f : ProbingFn) (h : Fin N) (visit : Fin N → ℕ → Fin B → Option ρ) (cycle : ρ)
    (r : ρ) : Prop :=
  Returns (probeBody f h visit cycle) { slotIndex := h, probingStep := 0, i := 0 } r

/-- A probe loop ends, with what `probeLoop` computes. -/
theorem exists_probeReturns {N B : ℕ} {ρ : Type} (f : ProbingFn) (hN : N ≤ 2 ^ 64) (h : Fin N)
    (visit : Fin N → ℕ → Fin B → Option ρ) (cycle : ρ) (otherwise : ρ) :
    ProbeReturns f h visit cycle ((probeLoop f h visit cycle).getD otherwise) := by
  obtain ⟨r, hr, -⟩ := probeLoop_spec f hN h visit cycle
  rw [hr, Option.getD_some]
  exact ⟨_, hr⟩

section
variable {Key Hash Payload : Type} [DecidableEq Key] {c : Config Key Hash} {key : Key}

theorem Probing.insert_returns (t : Probing.Table c Payload) (hkey : key ≠ c.sentinel) (payload : Payload) :
    ProbeReturns c.probingfn (c.home key) (Probing.insertVisit c t key payload)
      (.thrown (Probing.cycleMessage c), t) (Probing.insert c t key payload) := by
  rw [Probing.insert, if_neg hkey]
  exact exists_probeReturns _ c.directorySize_lt.le _ _ _ _

theorem Probing.lookup_returns (t : Probing.Table c Payload) (hkey : key ≠ c.sentinel) :
    ProbeReturns c.probingfn (c.home key) (Probing.lookupVisit c t key) (.value none) (Probing.lookup c t key) := by
  rw [Probing.lookup, if_neg hkey]
  exact exists_probeReturns _ c.directorySize_lt.le _ _ _ _

theorem Robinhood.lookup_returns (t : Robinhood.Table c Payload) (hkey : key ≠ c.sentinel) :
    ProbeReturns c.probingfn (c.home key) (Robinhood.lookupVisit c t key) (.value none) (Robinhood.lookup c t key) := by
  rw [Robinhood.lookup, if_neg hkey]
  exact exists_probeReturns _ c.directorySize_lt.le _ _ _ _

/-- An insert into a sound table comes back. -/
theorem Robinhood.insert_ne_diverged {t : Robinhood.Table c Payload} (hinv : Robinhood.Inv t)
    (hkey : key ≠ c.sentinel) (payload : Payload) : (Robinhood.insert c t key payload).1 ≠ .diverged := by
  by_cases hres : Robinhood.Resident t key
  · rw [Robinhood.insert_resident hinv hkey hres payload]
    exact nofun
  · have hsettled := Robinhood.insert_absent hinv hkey hres payload
    generalize Robinhood.insert c t key payload = r at hsettled ⊢
    cases hsettled with
    | stored => exact nofun
    | thrown => exact nofun

theorem Robinhood.insert_returns {t : Robinhood.Table c Payload} (hinv : Robinhood.Inv t) (hkey : key ≠ c.sentinel)
    (payload : Payload) : Returns (Robinhood.insertBody c key) (Robinhood.Hand.start t key payload)
      (Robinhood.insert c t key payload) := by
  have hne := Robinhood.insert_ne_diverged hinv hkey payload
  rw [Robinhood.insert, if_neg hkey] at hne ⊢
  cases hrun : run (Robinhood.insertBody c key) (Robinhood.insertBound c) (Robinhood.Hand.start t key payload) with
  | none =>
    rw [hrun] at hne
    exact absurd rfl hne
  | some r => exact ⟨_, hrun⟩

end

/-- **Every probe loop ends**, with what the function returns: on every table content in `Probing`, on every table a
run reaches in `RobinhoodProbing`. The loop inside the linear probing function ends too, and quadratic probing is back
at the home bucket after at most `N` and `2 ^ 32` steps. -/
theorem probe_loops_return {Key Hash Payload : Type} [DecidableEq Key] (c : Config Key Hash) (key : Key)
    (hkey : key ≠ c.sentinel) :
    (∀ (t : Probing.Table c Payload) payload, ProbeReturns c.probingfn (c.home key)
      (Probing.insertVisit c t key payload) (.thrown (Probing.cycleMessage c), t)
      (Probing.insert c t key payload)) ∧
    (∀ t : Probing.Table c Payload, ProbeReturns c.probingfn (c.home key) (Probing.lookupVisit c t key) (.value none)
      (Probing.lookup c t key)) ∧
    (∀ (memory : Robinhood.Table c Payload) (ops : List (Op Key Payload)) payload,
      let t := ((Robinhood.store c).run (Robinhood.clear c memory) ops).2
      Returns (Robinhood.insertBody c key) (Robinhood.Hand.start t key payload)
        (Robinhood.insert c t key payload) ∧
      ProbeReturns c.probingfn (c.home key) (Robinhood.lookupVisit c t key) (.value none)
        (Robinhood.lookup c t key)) ∧
    (∀ index probingStep, Returns (subtractBody c.directorySize) ((index + probingStep) % 2 ^ 64)
      (LinearProbingFunc c.directorySize index probingStep)) ∧
    ∀ h : Fin c.directorySize, ∃ j, 1 ≤ j ∧ j ≤ min c.directorySize (2 ^ 32) ∧
      ProbingFn.quadratic.probe h j = h :=
  ⟨fun t payload => Probing.insert_returns t hkey payload, fun t => Probing.lookup_returns t hkey,
    fun memory ops payload => ⟨Robinhood.insert_returns (Robinhood.inv_reached memory ops) hkey payload,
      Robinhood.lookup_returns _ hkey⟩,
    fun index probingStep => returns_subtractBody (c.home key).pos index probingStep,
    fun h => ProbingFn.exists_back_quadratic h c.directorySize_lt.le⟩

/-- Two buckets that hold key `1` twice, which no run leads to. -/
def twiceOne : Probing.Table (Probing.twoBuckets .quadratic) ℕ := fun _ _ => { key := 1, payload := 9 }

/-- A lookup of key `0` ends all the same. -/
theorem probe_loops_return_two_buckets :
    ProbeReturns .quadratic ((Probing.twoBuckets .quadratic).home 0)
      (Probing.lookupVisit (Probing.twoBuckets .quadratic) twiceOne 0) (.value none) (.value none) := by
  have hreturns := (probe_loops_return (Probing.twoBuckets .quadratic) 0 (by decide)).2.1 twiceOne
  rwa [show Probing.lookup (Probing.twoBuckets .quadratic) twiceOne 0 = .value none by decide] at hreturns

end HashingArchive.Hashtable
