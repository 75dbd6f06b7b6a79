import HashingArchive.Join.ImvRegroup

/-!
# The interleaved vectorised join: the loop

The loop around the stages is proved once for build and probe. `J w mem ahead behind rest` says what the
memory has to do with the items in front of their heads, those behind their heads and the tuples not
read, and `Sound` what the stages do to it; `w` bounds the work left. The items are counted over all six
states, so a pass is judged by what it makes of its own vector, however that is regrouped
(`Interleaved.of_work`). Passes that do no work bring a state closer to the next one that has some.
-/

namespace HashingArchive.Join

open HashingArchive.Loop HashingArchive.Lanes

variable {n : ℕ} {μ : Type}

/-! ### What is under way -/

/-- The items in front of their heads. -/
def Machine.ahead (s : Machine n μ) : Multiset (Item n) :=
  ∑ j, if (s.state j).stage = 2 then ((s.state j).items : Multiset (Item n)) else 0

/-- The items behind their heads. -/
def Machine.behind (s : Machine n μ) : Multiset (Item n) :=
  ∑ j, if (s.state j).stage = 2 then 0 else ((s.state j).items : Multiset (Item n))

/-- How many passes the states may still take without any work done. -/
def Machine.effort (s : Machine n μ) : ℕ := ∑ j, if j = 5 then 0 else ![2, 1, 3, 0] (s.state j).stage

/-- What holds between two passes of the loop. -/
structure Interleaved (numTuples : ℕ) (s : Machine n μ) : Prop where
  done : s.done = (Finset.univ.filter fun j => (s.state j).stage = 3).card
  packed : s.done < 5 → ∃ t < 8, (s.state 5).mHaveTuple = low 8 t
  temp : (s.state 5).stage = 0 ∨ (s.state 5).stage = 1
  idle : ∀ j ≠ 5, (s.state j).mHaveTuple = noLanes 8 ↔ (s.state j).stage = 1 ∨ (s.state j).stage = 3
  read : 0 < s.done → numTuples ≤ s.cur

/-- Two sums over the states differ in what the states of `K` add to them. -/
theorem sum_states {M : Type*} [AddCommMonoid M] {f g : Fin 6 → M} (K : Finset (Fin 6))
    (h : ∀ j ∉ K, f j = g j) : ∑ j, f j + ∑ j ∈ K, g j = ∑ j, g j + ∑ j ∈ K, f j := by
  have hrest : ∑ j ∈ Kᶜ, f j = ∑ j ∈ Kᶜ, g j := Finset.sum_congr rfl fun j hj => h j (Finset.mem_compl.mp hj)
  rw [← Finset.sum_add_sum_compl K f, ← Finset.sum_add_sum_compl K g, hrest]
  abel

section
variable {numTuples : ℕ} {s s' : Machine n μ} {k : Fin 6}

/-- The loop does not stand still on states that are done while others are not. -/
theorem Interleaved.exists_busy (h : Interleaved numTuples s) (hlt : s.done < 5) {turn : ℕ} (hturn : turn < 5) :
    ∃ d < 5, ∃ j : Fin 6, j ≠ 5 ∧ (s.state j).stage ≠ 3 ∧ (turn + d) % 5 = j := by
  obtain ⟨j, hj, hstage⟩ : ∃ j : Fin 6, j ≠ 5 ∧ (s.state j).stage ≠ 3 := by
    by_contra hall
    push Not at hall
    have hsub : ({5}ᶜ : Finset (Fin 6)) ⊆ Finset.univ.filter fun j => (s.state j).stage = 3 := by
      intro j hj
      rw [Finset.mem_compl, Finset.mem_singleton] at hj
      exact Finset.mem_filter.mpr ⟨Finset.mem_univ j, hall j hj⟩
    have hcard := Finset.card_le_card hsub
    rw [← h.done, Finset.card_compl, Finset.card_singleton, Fintype.card_fin] at hcard
    omega
  have hval : j.val ≠ 5 := fun heq => hj (Fin.ext heq)
  exact ⟨(j + 5 - turn) % 5, Nat.mod_lt _ (by norm_num), j, hj, hstage, by omega⟩

/-- At the end every state but the temporary one is done. -/
theorem Interleaved.all_done (h : Interleaved numTuples s) (hdone : 5 ≤ s.done) {j : Fin 6} (hj : j ≠ 5) :
    (s.state j).stage = 3 := by
  by_contra hstage
  have hsub : (Finset.univ.filter fun j => (s.state j).stage = 3) ⊆ ({5, j}ᶜ : Finset (Fin 6)) := by
    intro j' hj'
    rw [Finset.mem_compl, Finset.mem_insert, Finset.mem_singleton]
    intro hor
    rcases hor with rfl | rfl
    · have htemp := (Finset.mem_filter.mp hj').2
      rcases h.temp with h0 | h1
      · exact absurd (h0.symm.trans htemp) (by decide)
      · exact absurd (h1.symm.trans htemp) (by decide)
    · exact hstage (Finset.mem_filter.mp hj').2
  have hcard := Finset.card_le_card hsub
  rw [← h.done, Finset.card_compl, Finset.card_pair hj.symm, Fintype.card_fin] at hcard
  omega

theorem Interleaved.items_eq_nil (h : Interleaved numTuples s) (hk : k ≠ 5)
    (hstage : (s.state k).stage = 1 ∨ (s.state k).stage = 3) : (s.state k).items = [] :=
  SIMDState.items_eq_nil ((h.idle k hk).mpr hstage)

/-- Two machines whose other states are the same. -/
theorem sums_of_update (hothers : ∀ j ∉ ({k} : Finset (Fin 6)), s'.state j = s.state j) (hk : k ≠ 5) :
    (s'.ahead + (if (s.state k).stage = 2 then ((s.state k).items : Multiset (Item n)) else 0) =
      s.ahead + (if (s'.state k).stage = 2 then ((s'.state k).items : Multiset (Item n)) else 0)) ∧
    (s'.behind + (if (s.state k).stage = 2 then 0 else ((s.state k).items : Multiset (Item n))) =
      s.behind + (if (s'.state k).stage = 2 then 0 else ((s'.state k).items : Multiset (Item n)))) ∧
    s'.effort + ![2, 1, 3, 0] (s.state k).stage = s.effort + ![2, 1, 3, 0] (s'.state k).stage := by
  have hahead := sum_states
    (f := fun j => if (s'.state j).stage = 2 then ((s'.state j).items : Multiset (Item n)) else 0)
    (g := fun j => if (s.state j).stage = 2 then ((s.state j).items : Multiset (Item n)) else 0) {k}
    fun j hj => by rw [hothers j hj]
  have hbehind := sum_states
    (f := fun j => if (s'.state j).stage = 2 then 0 else ((s'.state j).items : Multiset (Item n)))
    (g := fun j => if (s.state j).stage = 2 then 0 else ((s.state j).items : Multiset (Item n))) {k}
    fun j hj => by rw [hothers j hj]
  have heffort := sum_states
    (f := fun j => if j = 5 then 0 else ![2, 1, 3, 0] (s'.state j).stage)
    (g := fun j => if j = 5 then 0 else ![2, 1, 3, 0] (s.state j).stage) {k}
    fun j hj => by rw [hothers j hj]
  simp only [Finset.sum_singleton, if_neg hk] at hahead hbehind heffort
  exact ⟨hahead, hbehind, heffort⟩

variable (s') in
/-- A vector without tuples is done. -/
theorem Interleaved.of_done (h : Interleaved numTuples s) (hk : k ≠ 5) (hstage : (s.state k).stage = 1)
    (hread : numTuples ≤ s.cur) (hstate : s'.state = Function.update s.state k { s.state k with stage := 3 })
    (hdone : s'.done = s.done + 1) (hcur : s'.cur = s.cur) :
    Interleaved numTuples s' ∧ s'.ahead = s.ahead ∧ s'.behind = s.behind ∧ s'.effort < s.effort := by
  have hnil := h.items_eq_nil hk (Or.inl hstage)
  have hother : ∀ j, j ≠ k → s'.state j = s.state j := fun j hj => by rw [hstate, Function.update_of_ne hj]
  have hself : s'.state k = { s.state k with stage := 3 } := by rw [hstate, Function.update_self]
  have hinter : Interleaved numTuples s' := by
    refine ⟨?_, fun hlt => ?_, ?_, fun j hj => ?_, fun _ => by rwa [hcur]⟩
    · have hinsert : (Finset.univ.filter fun j => (s'.state j).stage = 3) =
          insert k (Finset.univ.filter fun j => (s.state j).stage = 3) := by
        ext j
        rw [Finset.mem_insert, Finset.mem_filter, Finset.mem_filter]
        rcases eq_or_ne j k with rfl | hj
        · simp [hself]
        · simp [hj, hother j hj]
      rw [hinsert, Finset.card_insert_of_notMem (by simp [hstage]), hdone, h.done]
    · rw [hother 5 hk.symm]
      exact h.packed (by omega)
    · rw [hother 5 hk.symm]
      exact h.temp
    · rcases eq_or_ne j k with rfl | hjk
      · rw [hself]
        simpa [hstage] using h.idle j hj
      · rw [hother j hjk]
        exact h.idle j hj
  obtain ⟨hahead, hbehind, heffort⟩ :=
    sums_of_update (fun j hj => hother j (by simpa using hj)) hk
  simp [hself, hstage, hnil] at hahead hbehind heffort
  exact ⟨hinter, hahead, hbehind, by omega⟩

/-- Where a tuple goes first. -/
def atHead (idx : Tuple → Fin n) (t : Tuple) : Item n := (t, some (.head (idx t)))

/-- A vector reads the next tuples. -/
theorem load_items (idx : Tuple → Fin n) (rel : List Tuple) (s : Machine n μ) (k : Fin 6) :
    ((load idx rel s k).state k).items = ((rel.drop s.cur).take 8).map (atHead idx) := by
  have hmask : (fun i : Fin 8 => decide (s.cur + i < rel.length)) = low 8 (rel.length - s.cur) := by
    funext i
    exact decide_eq_decide.mpr (by omega)
  have hread : ∀ i : Fin 8, ((load idx rel s k).state k).mHaveTuple i = true →
      (((load idx rel s k).state k).key i, ((load idx rel s k).state k).htOff i) =
        atHead idx (rel.getD (s.cur + i) 0) := by
    intro i hi
    simp only [load, Machine.set_state_self] at hi ⊢
    simp only [hi, if_true]
    rfl
  have hmask' : ((load idx rel s k).state k).mHaveTuple = low 8 (rel.length - s.cur) := by
    rw [← hmask, load]
    exact congrArg SIMDState.mHaveTuple (Machine.set_state_self s k _)
  rw [SIMDState.items, lanes_congr hread, hmask', lanes_low]
  apply List.ext_getElem
  · simp only [List.length_take, List.length_ofFn, List.length_map, List.length_drop]
    exact min_comm _ _
  · intro i h₁ h₂
    rw [List.length_take, List.length_ofFn] at h₁
    have hget : rel.getD (s.cur + i) 0 = rel[s.cur + i] := List.getD_eq_getElem _ _ (by omega)
    simp only [List.getElem_take, List.getElem_ofFn, List.getElem_map, List.getElem_drop, hget]

theorem Interleaved.of_load (idx : Tuple → Fin n) {rel : List Tuple} (h : Interleaved rel.length s) (hk : k ≠ 5)
    (hstage : (s.state k).stage = 1) (hread : s.cur < rel.length) :
    Interleaved rel.length (load idx rel s k) ∧
      (load idx rel s k).ahead = s.ahead + (((rel.drop s.cur).take 8).map (atHead idx) : Multiset (Item n)) ∧
      (load idx rel s k).behind = s.behind ∧ (load idx rel s k).effort = s.effort + 2 := by
  have hother : ∀ j, j ≠ k → (load idx rel s k).state j = s.state j :=
    fun j hj => Machine.set_state_of_ne s _ hj
  have hself : ((load idx rel s k).state k).stage = 2 := by simp only [load, Machine.set_state_self]
  have hnil := h.items_eq_nil hk (Or.inl hstage)
  have hdone : (load idx rel s k).done = 0 := by
    by_contra hpos
    exact absurd (h.read (Nat.pos_of_ne_zero hpos)) (by omega)
  have hinter : Interleaved rel.length (load idx rel s k) := by
    refine ⟨?_, fun hlt => ?_, ?_, fun j hj => ?_, fun hpos => absurd hpos (by omega)⟩
    · have hsame : (Finset.univ.filter fun j => ((load idx rel s k).state j).stage = 3) =
          Finset.univ.filter fun j => (s.state j).stage = 3 := by
        apply Finset.filter_congr
        intro j _
        rcases eq_or_ne j k with rfl | hj
        · rw [hself, hstage]
          decide
        · rw [hother j hj]
      rw [hsame, ← h.done]
      rfl
    · rw [hother 5 hk.symm]
      exact h.packed hlt
    · rw [hother 5 hk.symm]
      exact h.temp
    · rcases eq_or_ne j k with rfl | hjk
      · rw [hself]
        refine ⟨fun hnone => ?_, fun hor => absurd hor (by decide)⟩
        have hempty := SIMDState.items_eq_nil hnone
        rw [load_items, List.map_eq_nil_iff, List.take_eq_nil_iff, List.drop_eq_nil_iff] at hempty
        omega
      · rw [hother j hjk]
        exact h.idle j hj
  obtain ⟨hahead, hbehind, heffort⟩ := sums_of_update (fun j hj => hother j (by simpa using hj)) hk
  rw [load_items] at hahead
  simp [hself, hstage, hnil] at hahead hbehind heffort
  exact ⟨hinter, by rwa [List.map_take, List.map_drop], hbehind, by omega⟩

theorem Interleaved.ready (h : Interleaved numTuples s) (hk : s.done < 5 ↔ k ≠ 5) {st : SIMDState n} {mem : μ}
    (hst : k = 5 → st.stage = 0 ∨ st.stage = 1) : Ready (s.worked k st mem) k := by
  refine ⟨fun hdone => ?_, hk.mp, fun hlt => ?_, ?_⟩
  · by_contra hne
    exact absurd (hk.mpr hne) (Nat.not_lt_of_le hdone)
  · obtain ⟨t, ht, htemp⟩ := h.packed hlt
    exact ⟨t, ht, by rwa [Machine.set_state_of_ne _ _ (hk.mp hlt).symm]⟩
  · rcases eq_or_ne 5 k with rfl | hne
    · rw [Machine.set_state_self]
      exact hst rfl
    · rw [Machine.set_state_of_ne _ _ hne]
      exact h.temp

/-! ### Regrouping after work -/

section
variable {st : SIMDState n} {mem : μ}

theorem worked_of_notMem (hr : Regrouped (s.worked k st mem) s' k) {j : Fin 6} (hj : j ∉ ({k, 5} : Finset (Fin 6))) :
    s'.state j = s.state j := by
  have hjk : j ≠ k := by
    rintro rfl
    simp at hj
  rw [hr.others j hj]
  exact Machine.set_state_of_ne s st hjk

/-- After the work neither the vector nor the temporary one is in stage 2 or 3. -/
theorem worked_stage (hr : Regrouped (s.worked k st mem) s' k) {j : Fin 6} (hj : j ∈ ({k, 5} : Finset (Fin 6))) :
    (s'.state j).stage = 0 ∨ (s'.state j).stage = 1 := by
  rw [Finset.mem_insert, Finset.mem_singleton] at hj
  rcases eq_or_ne j 5 with rfl | hne
  · exact hr.temp
  · obtain rfl : j = k := hj.resolve_right hne
    exact (hr.vector hne).imp And.left And.left

/-- Before the work this holds of the temporary one. -/
theorem Interleaved.temp_stage (h : Interleaved numTuples s) {j : Fin 6} (hj : j ∈ ({k, 5} : Finset (Fin 6)).erase k) :
    (s.state j).stage = 0 ∨ (s.state j).stage = 1 := by
  obtain rfl : j = 5 := by
    rw [Finset.mem_erase, Finset.mem_insert, Finset.mem_singleton] at hj
    exact hj.2.resolve_left hj.1
  exact h.temp

theorem Interleaved.stage_ne_three (h : Interleaved numTuples s)
    (hstage : (s.state k).stage = 0 ∨ (k ≠ 5 ∧ (s.state k).stage = 2)) {j : Fin 6}
    (hj : j ∈ ({k, 5} : Finset (Fin 6))) : (s.state j).stage ≠ 3 := by
  rcases eq_or_ne j k with rfl | hjk
  · rcases hstage with h0 | ⟨-, h2⟩
    · rw [h0]
      decide
    · rw [h2]
      decide
  · rcases h.temp_stage (Finset.mem_erase.mpr ⟨hjk, hj⟩) with h0 | h1
    · rw [h0]
      decide
    · rw [h1]
      decide

/-- The states that are done stay the same. -/
theorem Interleaved.regrouped (h : Interleaved numTuples s)
    (hstage : (s.state k).stage = 0 ∨ (k ≠ 5 ∧ (s.state k).stage = 2))
    (hr : Regrouped (s.worked k st mem) s' k) : Interleaved numTuples s' := by
  have hdone : s'.done = s.done := hr.done
  have hcur : s'.cur = s.cur := hr.cur
  refine ⟨?_, fun hlt => hr.packed (by rwa [hdone] at hlt), hr.temp, fun j hj => ?_, fun hpos => ?_⟩
  · have hsame : (Finset.univ.filter fun j => (s'.state j).stage = 3) =
        Finset.univ.filter fun j => (s.state j).stage = 3 := by
      apply Finset.filter_congr
      intro j _
      by_cases hj : j ∈ ({k, 5} : Finset (Fin 6))
      · have hbefore := h.stage_ne_three hstage hj
        rcases worked_stage hr hj with h0 | h1
        · simp [h0, hbefore]
        · simp [h1, hbefore]
      · rw [worked_of_notMem hr hj]
    rw [hsame, hdone, h.done]
  · rcases eq_or_ne j k with rfl | hjk
    · rcases hr.vector hj with ⟨h0, hmask⟩ | ⟨h1, hmask⟩
      · simp [h0, hmask]
      · simp [h1, hmask]
    · rw [worked_of_notMem hr (by simp [hjk, hj])]
      exact h.idle j hj
  · rw [hcur]
    exact h.read (by rwa [hdone] at hpos)

theorem sum_items_worked (hr : Regrouped (s.worked k st mem) s' k) :
    ∑ j ∈ {k, 5}, ((s'.state j).items : Multiset (Item n)) =
      (st.items : Multiset (Item n)) +
        ∑ j ∈ ({k, 5} : Finset (Fin 6)).erase k, ((s.state j).items : Multiset (Item n)) := by
  rw [hr.items, ← Finset.add_sum_erase _ _ (Finset.mem_insert_self k _)]
  congr 1
  · rw [Machine.set_state_self]
  · apply Finset.sum_congr rfl
    intro j hj
    rw [Machine.set_state_of_ne s st (Finset.ne_of_mem_erase hj)]

theorem Interleaved.ahead_worked (h : Interleaved numTuples s) (hr : Regrouped (s.worked k st mem) s' k) :
    s'.ahead + (if (s.state k).stage = 2 then ((s.state k).items : Multiset (Item n)) else 0) = s.ahead := by
  have hsum := sum_states
    (f := fun j => if (s'.state j).stage = 2 then ((s'.state j).items : Multiset (Item n)) else 0)
    (g := fun j => if (s.state j).stage = 2 then ((s.state j).items : Multiset (Item n)) else 0) {k, 5}
    fun j hj => by rw [worked_of_notMem hr hj]
  have hafter : ∑ j ∈ ({k, 5} : Finset (Fin 6)),
      (if (s'.state j).stage = 2 then ((s'.state j).items : Multiset (Item n)) else 0) = 0 :=
    Finset.sum_eq_zero fun j hj => if_neg (by rcases worked_stage hr hj with hg | hg <;> rw [hg] <;> decide)
  have hbefore : ∑ j ∈ ({k, 5} : Finset (Fin 6)).erase k,
      (if (s.state j).stage = 2 then ((s.state j).items : Multiset (Item n)) else 0) = 0 :=
    Finset.sum_eq_zero fun j hj => if_neg (by rcases h.temp_stage hj with hg | hg <;> rw [hg] <;> decide)
  rw [hafter, ← Finset.add_sum_erase _ _ (Finset.mem_insert_self k _), hbefore, add_zero, add_zero] at hsum
  exact hsum

theorem Interleaved.behind_worked (h : Interleaved numTuples s) (hr : Regrouped (s.worked k st mem) s' k) :
    s'.behind + (if (s.state k).stage = 2 then 0 else ((s.state k).items : Multiset (Item n))) =
      s.behind + (st.items : Multiset (Item n)) := by
  have hsum := sum_states
    (f := fun j => if (s'.state j).stage = 2 then 0 else ((s'.state j).items : Multiset (Item n)))
    (g := fun j => if (s.state j).stage = 2 then 0 else ((s.state j).items : Multiset (Item n))) {k, 5}
    fun j hj => by rw [worked_of_notMem hr hj]
  have hafter : ∑ j ∈ ({k, 5} : Finset (Fin 6)),
      (if (s'.state j).stage = 2 then 0 else ((s'.state j).items : Multiset (Item n))) =
        ∑ j ∈ {k, 5}, ((s'.state j).items : Multiset (Item n)) :=
    Finset.sum_congr rfl fun j hj => if_neg (by rcases worked_stage hr hj with hg | hg <;> rw [hg] <;> decide)
  have hbefore : ∑ j ∈ ({k, 5} : Finset (Fin 6)).erase k,
      (if (s.state j).stage = 2 then 0 else ((s.state j).items : Multiset (Item n))) =
        ∑ j ∈ ({k, 5} : Finset (Fin 6)).erase k, ((s.state j).items : Multiset (Item n)) :=
    Finset.sum_congr rfl fun j hj => if_neg (by rcases h.temp_stage hj with hg | hg <;> rw [hg] <;> decide)
  rw [hafter, sum_items_worked hr, ← Finset.add_sum_erase _ _ (Finset.mem_insert_self k _), hbefore, ← add_assoc,
    ← add_assoc] at hsum
  exact add_right_cancel hsum

theorem effort_worked (hstage : (s.state k).stage = 0 ∨ (k ≠ 5 ∧ (s.state k).stage = 2))
    (hr : Regrouped (s.worked k st mem) s' k) :
    s'.effort + (if (s.state k).stage = 2 then 1 else 0) ≤ s.effort := by
  have hafter := worked_stage hr (Finset.mem_insert_self k _)
  have hsum := sum_states
    (f := fun j => if j = 5 then 0 else ![2, 1, 3, 0] (s'.state j).stage)
    (g := fun j => if j = 5 then 0 else ![2, 1, 3, 0] (s.state j).stage) {k} fun j hj => by
      rcases eq_or_ne j 5 with rfl | h5
      · rfl
      · rw [worked_of_notMem hr (by simpa [h5] using hj)]
  simp only [Finset.sum_singleton] at hsum
  unfold Machine.effort
  rcases hstage with h0 | ⟨hk, h2⟩
  · rcases hafter with hg | hg
    · simp [h0, hg] at hsum ⊢
      exact hsum.le
    · simp [h0, hg] at hsum ⊢
      split_ifs at hsum <;> omega
  · rcases hafter with hg | hg
    · simp [hk, h2, hg] at hsum ⊢
      omega
    · simp [hk, h2, hg] at hsum ⊢
      omega

/-- A working stage leaves `st` of its vector and regroups it. -/
theorem Interleaved.of_work (h : Interleaved numTuples s)
    (hstage : (s.state k).stage = 0 ∨ (k ≠ 5 ∧ (s.state k).stage = 2))
    (hr : Regrouped (s.worked k st mem) s' k) :
    Interleaved numTuples s' ∧
      s'.ahead + (if (s.state k).stage = 2 then ((s.state k).items : Multiset (Item n)) else 0) = s.ahead ∧
      s'.behind + (if (s.state k).stage = 2 then 0 else ((s.state k).items : Multiset (Item n))) =
        s.behind + (st.items : Multiset (Item n)) ∧
      s'.effort + (if (s.state k).stage = 2 then 1 else 0) ≤ s.effort :=
  ⟨h.regrouped hstage hr, h.ahead_worked hr, h.behind_worked hr, effort_worked hstage hr⟩

end

end

/-! ### The loop ends -/

/-- The state the loop turns to. -/
def Machine.turn (s : Machine n μ) : Fin 6 := if h : s.k < 5 then ⟨s.k, Machine.k_lt h⟩ else 0

theorem Machine.turn_lt (s : Machine n μ) : s.turn.val < 5 := by
  unfold Machine.turn
  split_ifs with h
  · exact h
  · norm_num

theorem Machine.turn_ne (s : Machine n μ) : s.turn ≠ 5 := fun h => absurd (congrArg Fin.val h) s.turn_lt.ne

/-- After a pass that does nothing the next state comes. -/
theorem Machine.turn_next (s s' : Machine n μ) (h : s'.k = s.turn + 1) : s'.turn.val = (s.turn.val + 1) % 5 := by
  have hlt := s.turn_lt
  rw [Machine.turn]
  split_ifs with h5
  · dsimp only
    rw [h, Nat.mod_eq_of_lt (by omega)]
  · rw [show s.turn.val = 4 by omega]
    rfl

/-- What stages must do: `J w mem ahead behind rest` relates the memory to the items in front of their
heads, those behind their heads and the tuples not yet read, and `w` bounds the work left. -/
structure Sound (idx : Tuple → Fin n) (rel : List Tuple)
    (stage : Machine n μ → Fin 6 → Pass (Machine n μ) (Option μ))
    (J : ℕ → μ → Multiset (Item n) → Multiset (Item n) → List Tuple → Prop) : Prop where
  read : ∀ s k, (s.state k).stage = 1 → stage s k = .again (load idx rel s k)
  skip : ∀ s k, (s.state k).stage = 3 → stage s k = .again { s with k := k + 1 }
  load : ∀ w mem ahead behind rest, rest ≠ [] → J w mem ahead behind rest →
    ∃ w' < w, J w' mem (ahead + ((rest.take 8).map (atHead idx) : Multiset (Item n))) behind (rest.drop 8)
  heads : ∀ (s : Machine n μ) (k : Fin 6) w ahead behind rest, k ≠ 5 → (s.state k).stage = 2 →
    (s.state k).mHaveTuple ≠ noLanes 8 →
    (∀ st mem, Ready (s.worked k st mem) k) →
    J w s.mem ((s.state k).items + ahead) behind rest →
    ∃ st mem s', stage s k = .again s' ∧ Regrouped (s.worked k st mem) s' k ∧
      ∃ w' ≤ w, J w' mem ahead (st.items + behind) rest
  buckets : ∀ (s : Machine n μ) (k : Fin 6) w ahead behind rest, (s.state k).stage = 0 →
    (s.state k).mHaveTuple ≠ noLanes 8 →
    (∀ st mem, st.stage = 0 → Ready (s.worked k st mem) k) →
    J w s.mem ahead ((s.state k).items + behind) rest →
    ∃ st mem s', stage s k = .again s' ∧ Regrouped (s.worked k st mem) s' k ∧
      ∃ w' < w, J w' mem ahead (st.items + behind) rest

section
variable {idx : Tuple → Fin n} {rel : List Tuple} {stage : Machine n μ → Fin 6 → Pass (Machine n μ) (Option μ)}
  {J : ℕ → μ → Multiset (Item n) → Multiset (Item n) → List Tuple → Prop}

/-- The loop runs and ends within `N` passes. -/
structure Running (rel : List Tuple) (J : ℕ → μ → Multiset (Item n) → Multiset (Item n) → List Tuple → Prop)
    (N : ℕ) (s : Machine n μ) : Prop where
  inter : Interleaved rel.length s
  within : ∃ w d, J w s.mem s.ahead s.behind (rel.drop s.cur) ∧ d < 5 ∧ N = 5 * (3 * w + s.effort) + d ∧
    (s.done < 5 → ∃ j : Fin 6, j ≠ 5 ∧ (s.state j).stage ≠ 3 ∧ (s.turn.val + d) % 5 = j)

/-- Less effort makes up for starting anywhere in the round. -/
theorem Running.of_less {s : Machine n μ} {w x d : ℕ} (hinter : Interleaved rel.length s)
    (hJ : J w s.mem s.ahead s.behind (rel.drop s.cur)) (hless : 3 * w + s.effort < x) :
    ∃ N < 5 * x + d, Running rel J N s := by
  obtain ⟨e, he, hbusy⟩ : ∃ e < 5, s.done < 5 → ∃ j : Fin 6, j ≠ 5 ∧ (s.state j).stage ≠ 3 ∧
      (s.turn.val + e) % 5 = j := by
    by_cases hlt : s.done < 5
    · obtain ⟨e, he, hj⟩ := hinter.exists_busy hlt s.turn_lt
      exact ⟨e, he, fun _ => hj⟩
    · exact ⟨0, by norm_num, fun hdone => absurd hdone hlt⟩
  exact ⟨5 * (3 * w + s.effort) + e, by omega, hinter, w, e, hJ, he, rfl, hbusy⟩

theorem exists_behind {s : Machine n μ} {k : Fin 6} (h : (s.state k).stage ≠ 2) :
    ∃ others, s.behind = (s.state k).items + others := by
  rw [Machine.behind, ← Finset.add_sum_erase Finset.univ _ (Finset.mem_univ k), if_neg h]
  exact ⟨_, rfl⟩

theorem exists_ahead {s : Machine n μ} {k : Fin 6} (h : (s.state k).stage = 2) :
    ∃ others, s.ahead = (s.state k).items + others := by
  rw [Machine.ahead, ← Finset.add_sum_erase Finset.univ _ (Finset.mem_univ k), if_pos h]
  exact ⟨_, rfl⟩

/-- A working stage. -/
theorem Sound.work (hs : Sound idx rel stage J) {s : Machine n μ} {k : Fin 6} {w d : ℕ}
    (hinter : Interleaved rel.length s) (hJ : J w s.mem s.ahead s.behind (rel.drop s.cur))
    (hk : s.done < 5 ↔ k ≠ 5) (hstage : (s.state k).stage = 0 ∨ (k ≠ 5 ∧ (s.state k).stage = 2))
    (hmask : (s.state k).mHaveTuple ≠ noLanes 8) :
    (stage s k).Holds (fun s' => ∃ N < 5 * (3 * w + s.effort) + d, Running rel J N s')
      fun r => ∃ m w, r = some m ∧ J w m 0 0 [] := by
  rcases hstage with h0 | ⟨hne, h2⟩
  · obtain ⟨others, hbehind⟩ := exists_behind (s := s) (k := k) (by rw [h0]; decide)
    rw [hbehind] at hJ
    obtain ⟨st, mem, s', hpass, hr, w', hw, hJ'⟩ :=
      hs.buckets s k w _ _ _ h0 hmask (fun st mem hst => hinter.ready hk fun _ => Or.inl hst) hJ
    obtain ⟨hinter', hahead', hbehind', heffort'⟩ := hinter.of_work (Or.inl h0) hr
    rw [h0, if_neg (by decide)] at hahead' hbehind' heffort'
    have hleft : s'.behind = st.items + others := by
      apply add_right_cancel (b := ((s.state k).items : Multiset (Item n)))
      rw [hbehind', hbehind]
      abel
    rw [hpass, Pass.holds_again]
    refine Running.of_less hinter' ?_ (w := w') (by omega)
    rw [add_zero] at hahead'
    rw [hr.mem, hr.cur, hleft, hahead']
    exact hJ'
  · obtain ⟨others, hahead⟩ := exists_ahead (s := s) (k := k) h2
    rw [hahead] at hJ
    obtain ⟨st, mem, s', hpass, hr, w', hw, hJ'⟩ :=
      hs.heads s k w _ _ _ hne h2 hmask (fun st mem => hinter.ready hk fun h5 => absurd h5 hne) hJ
    obtain ⟨hinter', hahead', hbehind', heffort'⟩ := hinter.of_work (Or.inr ⟨hne, h2⟩) hr
    rw [h2, if_pos rfl] at hahead' hbehind' heffort'
    have hleft : s'.ahead = others := by
      apply add_right_cancel (b := ((s.state k).items : Multiset (Item n)))
      rw [hahead', hahead, add_comm]
    rw [hpass, Pass.holds_again]
    refine Running.of_less hinter' ?_ (w := w') (by omega)
    rw [hr.mem, hr.cur, hleft, ← add_zero s'.behind, hbehind', add_comm]
    exact hJ'

theorem drive_eq (numTuples : ℕ) (s : Machine n μ) : drive numTuples stage s =
    if numTuples ≤ s.cur then
      if (s.state s.turn).mHaveTuple = noLanes 8 ∧ (s.state s.turn).stage ≠ 3 then
        .again { s.set s.turn { s.state s.turn with stage := 3 } with done := s.done + 1, k := s.turn + 1 }
      else if 5 ≤ s.done then
        if (s.state 5).mHaveTuple ≠ noLanes 8 then stage (s.set 5 { s.state 5 with stage := 0 }) 5
        else .leave (some s.mem)
      else stage s s.turn
    else stage s s.turn :=
  rfl

/-- A stage before all tuples are read and worked off. -/
theorem Sound.step (hs : Sound idx rel stage J) {N : ℕ} {s : Machine n μ} (h : Running rel J N s)
    (hlt : s.done < 5) (hidle : (s.state s.turn).stage = 1 → s.cur < rel.length) :
    (stage s s.turn).Holds (fun s' => ∃ N' < N, Running rel J N' s') fun r => ∃ m w, r = some m ∧ J w m 0 0 [] := by
  obtain ⟨hinter, w, d, hJ, hd, rfl, hbusy⟩ := h
  have hk := s.turn_ne
  have hwork : (s.state s.turn).stage = 0 ∨ (s.turn ≠ 5 ∧ (s.state s.turn).stage = 2) →
      (stage s s.turn).Holds (fun s' => ∃ N' < 5 * (3 * w + s.effort) + d, Running rel J N' s')
        fun r => ∃ m w, r = some m ∧ J w m 0 0 [] := by
    intro hstage
    apply hs.work hinter hJ (iff_of_true hlt hk) hstage
    intro hnone
    have hor := (hinter.idle _ hk).mp hnone
    rcases hstage with h0 | ⟨-, h2⟩
    · rw [h0] at hor
      exact absurd hor (by decide)
    · rw [h2] at hor
      exact absurd hor (by decide)
  obtain h0 | h1 | h2 | h3 : (s.state s.turn).stage = 0 ∨ (s.state s.turn).stage = 1 ∨
      (s.state s.turn).stage = 2 ∨ (s.state s.turn).stage = 3 := by omega
  · exact hwork (Or.inl h0)
  · -- read the next tuples
    have hrest : rel.drop s.cur ≠ [] := fun hnil => by
      rw [List.drop_eq_nil_iff] at hnil
      exact absurd (hidle h1) (Nat.not_lt_of_le hnil)
    obtain ⟨w', hw, hJ'⟩ := hs.load w _ _ _ _ hrest hJ
    obtain ⟨hinter', hahead, hbehind, heffort⟩ := hinter.of_load idx hk h1 (hidle h1)
    rw [hs.read s _ h1, Pass.holds_again]
    refine Running.of_less hinter' ?_ (w := w') (by omega)
    rw [hahead, hbehind]
    rwa [List.drop_drop] at hJ'
  · exact hwork (Or.inr ⟨hk, h2⟩)
  · -- skip a state that is done
    obtain ⟨j, hj, hjstage, hjd⟩ := hbusy hlt
    have hturn := s.turn_lt
    have hpos : d ≠ 0 := by
      rintro rfl
      obtain rfl : s.turn = j := Fin.ext (by omega)
      exact hjstage h3
    rw [hs.skip s _ h3, Pass.holds_again]
    refine ⟨5 * (3 * w + s.effort) + (d - 1), by omega, ⟨hinter.done, hinter.packed, hinter.temp, hinter.idle,
      hinter.read⟩, w, d - 1, hJ, by omega, rfl, fun _ => ⟨j, hj, hjstage, ?_⟩⟩
    rw [Machine.turn_next s _ rfl]
    omega

theorem Interleaved.set_tail {numTuples : ℕ} {s : Machine n μ} (h : Interleaved numTuples s) :
    Interleaved numTuples (s.set 5 { s.state 5 with stage := 0 }) ∧
      (s.set 5 { s.state 5 with stage := 0 }).ahead = s.ahead ∧
      (s.set 5 { s.state 5 with stage := 0 }).behind = s.behind ∧
      (s.set 5 { s.state 5 with stage := 0 }).effort = s.effort := by
  have hother : ∀ j, j ≠ 5 → (s.set 5 { s.state 5 with stage := 0 }).state j = s.state j :=
    fun j hj => Machine.set_state_of_ne s _ hj
  have hself := Machine.set_state_self s 5 { s.state 5 with stage := 0 }
  have h2 : (s.state 5).stage ≠ 2 := by rcases h.temp with hg | hg <;> rw [hg] <;> decide
  have h3 : (s.state 5).stage ≠ 3 := by rcases h.temp with hg | hg <;> rw [hg] <;> decide
  refine ⟨⟨h.done.trans (congrArg Finset.card (Finset.filter_congr fun j _ => ?_)), fun hlt => ?_, Or.inl ?_,
    fun j hj => ?_, h.read⟩, Finset.sum_congr rfl fun j _ => ?_, Finset.sum_congr rfl fun j _ => ?_,
    Finset.sum_congr rfl fun j _ => ?_⟩
  · rcases eq_or_ne j 5 with rfl | hj
    · rw [hself]
      exact iff_of_false h3 (show ¬ (0 : Fin 4) = 3 by decide)
    · rw [hother j hj]
  · rw [hself]
    exact h.packed hlt
  · rw [hself]
  · rw [hother j hj]
    exact h.idle j hj
  · rcases eq_or_ne j 5 with rfl | hj
    · rw [hself, if_neg h2, if_neg (show ¬ (0 : Fin 4) = 2 by decide)]
    · rw [hother j hj]
  · rcases eq_or_ne j 5 with rfl | hj
    · rw [hself, if_neg h2, if_neg (show ¬ (0 : Fin 4) = 2 by decide), SIMDState.items_stage]
    · rw [hother j hj]
  · rcases eq_or_ne j 5 with rfl | hj
    · rfl
    · rw [hother j hj]

/-- **One pass of the loop.** -/
theorem Sound.drive (hs : Sound idx rel stage J) {N : ℕ} {s : Machine n μ} (h : Running rel J N s) :
    (drive rel.length stage s).Holds (fun s' => ∃ N' < N, Running rel J N' s')
      fun r => ∃ m w, r = some m ∧ J w m 0 0 [] := by
  have hinter := h.inter
  obtain ⟨w, d, hJ, hd, hN, hbusy⟩ := h.within
  rw [drive_eq]
  split_ifs with hread hidle hdone htail
  · have h1 : (s.state s.turn).stage = 1 := ((hinter.idle _ s.turn_ne).mp hidle.1).resolve_right hidle.2
    obtain ⟨hinter', hahead, hbehind, heffort⟩ := hinter.of_done
      { s.set s.turn { s.state s.turn with stage := 3 } with done := s.done + 1, k := s.turn + 1 } s.turn_ne h1 hread
      rfl rfl rfl
    rw [Pass.holds_again, hN]
    refine Running.of_less hinter' ?_ (w := w) (by omega)
    rw [hahead, hbehind]
    exact hJ
  · obtain ⟨hinter', hahead, hbehind, heffort⟩ := hinter.set_tail
    rw [hN, ← heffort]
    refine hs.work hinter' ?_ (iff_of_false (Nat.not_lt_of_le hdone) (not_not.mpr rfl)) (Or.inl ?_) ?_
    · rw [hahead, hbehind]
      exact hJ
    · rw [Machine.set_state_self]
    · rw [Machine.set_state_self]
      exact htail
  · -- every vector is empty
    have hnil : ∀ j, (s.state j).items = [] := by
      intro j
      rcases eq_or_ne j 5 with rfl | hj
      · exact SIMDState.items_eq_nil (not_not.mp htail)
      · exact hinter.items_eq_nil hj (Or.inr (hinter.all_done hdone hj))
    have hahead : s.ahead = 0 := Finset.sum_eq_zero fun j _ => by simp [hnil]
    have hbehind : s.behind = 0 := Finset.sum_eq_zero fun j _ => by simp [hnil]
    rw [hahead, hbehind, List.drop_eq_nil_iff.mpr hread] at hJ
    exact ⟨s.mem, w, rfl, hJ⟩
  · apply hs.step h (Nat.lt_of_not_le hdone)
    intro h1
    exact absurd ⟨(hinter.idle _ s.turn_ne).mpr (Or.inl h1), by rw [h1]; decide⟩ hidle
  · refine hs.step h ?_ fun _ => Nat.lt_of_not_le hread
    by_contra hdone
    exact hread (hinter.read (by omega))

/-- **The loop ends**, with nothing under way and nothing unread. -/
theorem Sound.returns (hs : Sound idx rel stage J) {s : Machine n μ} {w : ℕ} (hdone : s.done = 0) (hcur : s.cur = 0)
    (hstate : ∀ j, (s.state j).stage = 1 ∧ (s.state j).mHaveTuple = noLanes 8) (hJ : J w s.mem 0 0 rel) :
    ∃ m w, Returns (Join.drive rel.length stage) s (some m) ∧ J w m 0 0 [] := by
  have hnil : ∀ j, (s.state j).items = [] := fun j => SIMDState.items_eq_nil (hstate j).2
  have hahead : s.ahead = 0 := Finset.sum_eq_zero fun j _ => by simp [hnil]
  have hbehind : s.behind = 0 := Finset.sum_eq_zero fun j _ => by simp [hnil]
  have hinter : Interleaved rel.length s := by
    refine ⟨?_, fun _ => ⟨0, by norm_num, ?_⟩, Or.inr (hstate 5).1, fun j _ => ?_, fun hpos => by omega⟩
    · simp [hdone, (hstate _).1]
    · rw [(hstate 5).2]
      rfl
    · simp [hstate j]
  obtain ⟨N, -, hrun⟩ := Running.of_less (d := 0) hinter (by rwa [hahead, hbehind, hcur]) (Nat.lt_succ_self _)
  obtain ⟨r, hr, m, w', rfl, hJ'⟩ := returns_of_variant _ _ _ (fun _ _ h => hs.drive h) N s hrun
  exact ⟨m, w', hr, hJ'⟩

end

end HashingArchive.Join
