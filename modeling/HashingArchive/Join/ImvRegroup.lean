import HashingArchive.Join.Imv

/-!
# The interleaved vectorised join: no lane is lost

A vector that is partly empty goes to the temporary state or is filled up from there. Either way the two
hold the same items as before, and the temporary state stays packed (`Regrouped`).
-/

namespace HashingArchive.Join

open HashingArchive.Loop HashingArchive.Lanes

variable {n : ℕ} {μ : Type}

/-- A tuple and the bucket it has come to. -/
abbrev Item (n : ℕ) := Tuple × Option (Addr n)

def SIMDState.items (st : SIMDState n) : List (Item n) := lanes st.mHaveTuple fun i => (st.key i, st.htOff i)

@[simp] theorem SIMDState.items_stage (st : SIMDState n) (g : Fin 4) :
    ({ st with stage := g } : SIMDState n).items = st.items :=
  rfl

theorem SIMDState.items_eq_nil {st : SIMDState n} (h : st.mHaveTuple = noLanes 8) : st.items = [] := by
  rw [SIMDState.items, ← List.length_eq_zero_iff, length_lanes, popcnt_eq_zero_iff]
  exact h

theorem SIMDState.mem_items {st : SIMDState n} {x : Item n} :
    x ∈ st.items ↔ ∃ i, st.mHaveTuple i = true ∧ (st.key i, st.htOff i) = x := by
  simp [SIMDState.items, lanes, mem_indices]

namespace Machine

@[simp] theorem set_state_self (s : Machine n μ) (k : Fin 6) (st : SIMDState n) : (s.set k st).state k = st :=
  Function.update_self _ _ _

theorem set_state_of_ne (s : Machine n μ) {j k : Fin 6} (st : SIMDState n) (h : j ≠ k) :
    (s.set k st).state j = s.state j :=
  Function.update_of_ne h _ _

/-- What a stage makes of its vector and of the memory, before it regroups. -/
abbrev worked (s : Machine n μ) (k : Fin 6) (st : SIMDState n) (mem : μ) : Machine n μ :=
  { s.set k st with mem := mem }

end Machine

/-! ### Regrouping -/

section
variable {s : Machine n μ} {k : Fin 6} {t : ℕ}

theorem low_eight : low 8 8 = allLanes 8 := by
  funext i
  exact decide_eq_true i.isLt

/-- The temporary state takes the vector behind its own items. -/
theorem spill_items (htemp : (s.state 5).mHaveTuple = low 8 t) (ht : t ≤ 8)
    (hroom : popcnt (s.state k).mHaveTuple + popcnt (s.state 5).mHaveTuple < 8) (hk : k ≠ 5) :
    ((spill s k).state k).items = [] ∧ ((spill s k).state 5).items = (s.state 5).items ++ (s.state k).items := by
  constructor
  · exact SIMDState.items_eq_nil (by simp [spill])
  · rw [htemp, popcnt_low ht] at hroom
    simp only [spill, Machine.set_state_of_ne _ _ hk.symm, Machine.set_state_self, SIMDState.items, htemp,
      popcnt_low ht, expand_pair, compress_pair]
    exact lanes_expand_low _ _ _ hroom.le

/-- The vector is filled up from the front of the temporary state. -/
theorem refill_items (htemp : (s.state 5).mHaveTuple = low 8 t) (ht : t ≤ 8)
    (hfull : 8 ≤ popcnt (s.state k).mHaveTuple + popcnt (s.state 5).mHaveTuple) (hk : k ≠ 5) (k' : ℕ) :
    (((refill s k k').state k).items ++ ((refill s k k').state 5).items).Perm
      ((s.state k).items ++ (s.state 5).items) := by
  rw [htemp, popcnt_low ht] at hfull
  have hle := popcnt_le (s.state k).mHaveTuple
  have hst : 8 - popcnt (s.state k).mHaveTuple ≤ t := by omega
  have hpop : popcnt (kand (low 8 t) (knot (low 8 (8 - popcnt (s.state k).mHaveTuple)))) =
      t - (8 - popcnt (s.state k).mHaveTuple) := by
    rw [popcnt, indices_low_knot_low hst, List.length_drop, List.length_take, List.length_finRange, min_eq_left ht]
  simp only [refill, Machine.set_state_of_ne _ _ hk.symm, Machine.set_state_self, SIMDState.items, htemp,
    expand_pair, compress_pair, low_eight, lanes_allLanes, kshiftr_low ht]
  rw [← hpop, lanes_compress, lanes_drop hst, lanes_low]
  apply ((ofFn_expand_perm _ _ _).append_right _).trans
  rw [List.append_assoc]
  apply List.Perm.append_left
  rw [← min_eq_left hst, ← List.take_take, min_eq_left hst, List.take_append_drop]

end

/-- A vector may be regrouped: one of the five while the loop reads on, with the temporary state packed and
not full, or the temporary state at the end. -/
structure Ready (s : Machine n μ) (k : Fin 6) : Prop where
  tail : 5 ≤ s.done → k = 5
  vector : s.done < 5 → k ≠ 5
  packed : s.done < 5 → ∃ t < 8, (s.state 5).mHaveTuple = low 8 t
  temp : (s.state 5).stage = 0 ∨ (s.state 5).stage = 1

/-- What the vector and the temporary state hold together stays, and the vector goes on to stage 0 or
is empty. -/
structure Regrouped (s s' : Machine n μ) (k : Fin 6) : Prop where
  mem : s'.mem = s.mem
  done : s'.done = s.done
  cur : s'.cur = s.cur
  others : ∀ j ∉ ({k, 5} : Finset (Fin 6)), s'.state j = s.state j
  items : ∑ j ∈ {k, 5}, ((s'.state j).items : Multiset (Item n)) =
    ∑ j ∈ {k, 5}, ((s.state j).items : Multiset (Item n))
  packed : s.done < 5 → ∃ t < 8, (s'.state 5).mHaveTuple = low 8 t
  temp : (s'.state 5).stage = 0 ∨ (s'.state 5).stage = 1
  vector : k ≠ 5 → ((s'.state k).stage = 0 ∧ (s'.state k).mHaveTuple ≠ noLanes 8) ∨
    ((s'.state k).stage = 1 ∧ (s'.state k).mHaveTuple = noLanes 8)

section
variable {s : Machine n μ} {k : Fin 6}

/-- The vector stays as it is but for its stage. -/
theorem Ready.stay (h : Ready s k) {s' : Machine n μ} (hmem : s'.mem = s.mem) (hdone : s'.done = s.done)
    (hcur : s'.cur = s.cur) {g : Fin 4} (hstate : s'.state = Function.update s.state k { s.state k with stage := g })
    (hg : g = 0 ∨ g = 1) (hvector : k ≠ 5 → (g = 0 ∧ (s.state k).mHaveTuple ≠ noLanes 8) ∨
      (g = 1 ∧ (s.state k).mHaveTuple = noLanes 8)) : Regrouped s s' k := by
  have hitems : ∀ j, (s'.state j).items = (s.state j).items := by
    intro j
    rw [hstate]
    rcases eq_or_ne j k with rfl | hj
    · rw [Function.update_self, SIMDState.items_stage]
    · rw [Function.update_of_ne hj]
  refine ⟨hmem, hdone, hcur, fun j hj => ?_, Finset.sum_congr rfl fun j _ => by rw [hitems j], fun hlt => ?_, ?_,
    fun hk => ?_⟩
  · rw [hstate, Function.update_of_ne]
    rintro rfl
    simp at hj
  · rw [hstate, Function.update_of_ne (h.vector hlt).symm]
    exact h.packed hlt
  · rw [hstate]
    rcases eq_or_ne 5 k with rfl | hk
    · rw [Function.update_self]
      exact hg
    · rw [Function.update_of_ne hk]
      exact h.temp
  · rw [hstate, Function.update_self]
    exact hvector hk

theorem regrouped_regroup (h : Ready s k) (hlt : s.done < 5) (k' : ℕ) : Regrouped s (regroup s k k') k := by
  have hk := h.vector hlt
  obtain ⟨t, ht, htemp⟩ := h.packed hlt
  unfold regroup
  split_ifs with hroom
  · obtain ⟨hvector, hbehind⟩ := spill_items htemp ht.le hroom hk
    refine ⟨rfl, rfl, rfl, fun j hj => ?_, ?_, fun _ => ⟨_, hroom, ?_⟩, ?_, fun _ => Or.inr ?_⟩
    · rw [Finset.mem_insert, Finset.mem_singleton, not_or] at hj
      simp only [spill, Machine.set_state_of_ne _ _ hj.1, Machine.set_state_of_ne _ _ hj.2]
    · rw [Finset.sum_pair hk, Finset.sum_pair hk, hvector, hbehind, ← Multiset.coe_add]
      exact (zero_add _).trans (add_comm _ _)
    · simp only [spill, Machine.set_state_of_ne _ _ hk.symm, Machine.set_state_self]
    · simp only [spill, Machine.set_state_of_ne _ _ hk.symm, Machine.set_state_self]
      exact h.temp
    · simp only [spill, Machine.set_state_self, and_self]
  · have hle := popcnt_le (s.state k).mHaveTuple
    refine ⟨rfl, rfl, rfl, fun j hj => ?_, ?_, fun _ => ⟨t - (8 - popcnt (s.state k).mHaveTuple), by omega, ?_⟩, ?_,
      fun _ => Or.inl ⟨?_, ?_⟩⟩
    · rw [Finset.mem_insert, Finset.mem_singleton, not_or] at hj
      simp only [refill, Machine.set_state_of_ne _ _ hj.1, Machine.set_state_of_ne _ _ hj.2]
    · rw [Finset.sum_pair hk, Finset.sum_pair hk, Multiset.coe_add, Multiset.coe_add, Multiset.coe_eq_coe]
      exact refill_items htemp ht.le (Nat.le_of_not_lt hroom) hk k'
    · simp only [refill, Machine.set_state_of_ne _ _ hk.symm, Machine.set_state_self, htemp]
      exact kshiftr_low ht.le
    · simp only [refill, Machine.set_state_of_ne _ _ hk.symm, Machine.set_state_self]
      exact h.temp
    · simp only [refill, Machine.set_state_self]
    · simp only [refill, Machine.set_state_self]
      decide

theorem Ready.buildSettle (h : Ready s k) (kKeep kRefill : ℕ) : Regrouped s (buildSettle s k kKeep kRefill) k := by
  unfold Join.buildSettle
  dsimp only
  split_ifs with hkeep hzero
  · refine h.stay rfl rfl rfl rfl (Or.inl rfl) fun hk => Or.inl ⟨rfl, fun hnone => ?_⟩
    rw [popcnt_eq_zero_iff.mpr hnone] at hkeep
    rcases hkeep with hzero | hdone
    · exact absurd hzero (by norm_num)
    · exact hk (h.tail hdone)
  · exact h.stay rfl rfl rfl rfl (Or.inr rfl) fun _ => Or.inr ⟨rfl, popcnt_eq_zero_iff.mp hzero⟩
  · exact regrouped_regroup h (by omega) kRefill

theorem Ready.probeSettle (h : Ready s k) (hstage : (s.state k).stage = 0) : Regrouped s (probeSettle s k) k := by
  have hkeep : popcnt (s.state k).mHaveTuple ≠ 0 → Regrouped s { s with k := k + 1 } k := by
    intro hne
    refine h.stay rfl rfl rfl ?_ (Or.inl hstage) fun _ => Or.inl ⟨hstage, fun hnone => ?_⟩
    · exact (Function.update_eq_self k s.state).symm
    · exact hne (popcnt_eq_zero_iff.mpr hnone)
  unfold Join.probeSettle
  dsimp only
  split_ifs with hfull hzero hlt
  · exact hkeep (by omega)
  · exact h.stay rfl rfl rfl rfl (Or.inr rfl) fun _ => Or.inr ⟨rfl, popcnt_eq_zero_iff.mp hzero⟩
  · exact regrouped_regroup h hlt (k + 1)
  · exact hkeep hzero

end

end HashingArchive.Join
