import HashingArchive.Join.ImvLoop

/-!
# The vectorised build

Whatever conflicts there are among the lanes of a vector, one lane for each head is inserted and the others
go on. What is stored and what is still under way make up what has been read of R, bucket by bucket
(`Building.stored`).
-/

namespace HashingArchive.Join

open HashingArchive.Loop HashingArchive.Lanes

variable {n : ℕ}

theorem Memory.gather_some {γ : Type} (m : Memory n) {mask : Mask 8} {p : Fin 8 → Option (Addr n)}
    (field : Bucket n → γ) (src : γ) {i : Fin 8} {a : Addr n} (hi : mask i = true) (hp : p i = some a) :
    m.gather mask p field src i = field (m.bucket a) := by
  rw [Memory.gather, hp]
  exact if_pos hi

/-! ### New buckets -/

/-- The lanes of the mask have got new buckets, each its own. -/
structure NewBuckets (mask : Mask 8) (m m' : Memory n) (new : Fin 8 → Option (Addr n)) : Prop where
  bucket : m'.bucket = m.bucket
  mono : ∀ a, m.Allocated a → m'.Allocated a
  some : ∀ i, mask i = true → ∃ b, new i = some b ∧ ¬ m.Allocated b ∧ m'.Allocated b ∧ ∀ h, b ≠ .head h
  inj : ∀ i j, mask i = true → mask j = true → new i = new j → i = j

theorem NewBuckets.none (m : Memory n) : NewBuckets (noLanes 8) m m fun _ => none where
  bucket := rfl
  mono _ h := h
  some _ hi := absurd hi Bool.false_ne_true
  inj _ _ hi := absurd hi Bool.false_ne_true

/-- One lane more. -/
theorem NewBuckets.next {mask : Mask 8} {m m' : Memory n} {new : Fin 8 → Option (Addr n)}
    (h : NewBuckets mask m m' new) {i : Fin 8} (hi : mask i = false) :
    NewBuckets (Function.update mask i true) m (getNewBucket m').2
      (Function.update new i (Option.some (getNewBucket m').1)) := by
  have hne : ∀ j, mask j = true → j ≠ i := by
    intro j hj heq
    rw [heq, hi] at hj
    exact absurd hj Bool.false_ne_true
  have hlane : ∀ j, Function.update mask i true j = true → j = i ∨ mask j = true := by
    intro j hj
    rcases eq_or_ne j i with heq | hji
    · exact Or.inl heq
    · rw [Function.update_of_ne hji] at hj
      exact Or.inr hj
  have hfresh : ∀ j, mask j = true → new j ≠ Option.some (getNewBucket m').1 := by
    intro j hj heq
    obtain ⟨b, hb, -, halloc, -⟩ := h.some j hj
    rw [hb] at heq
    exact not_allocated_new m' (Option.some.inj heq ▸ halloc)
  refine ⟨(getNewBucket_bucket m').trans h.bucket, fun a ha => (h.mono a ha).mono, fun j hj => ?_,
    fun j j' hj hj' heq => ?_⟩
  · rcases hlane j hj with rfl | hj
    · exact ⟨_, Function.update_self _ _ _, fun ha => not_allocated_new m' (h.mono _ ha), allocated_new m',
        new_ne_head m'⟩
    · obtain ⟨b, hb, hnot, halloc, hhead⟩ := h.some j hj
      exact ⟨b, (Function.update_of_ne (hne j hj) _ _).trans hb, hnot, halloc.mono, hhead⟩
  · rcases hlane j hj with rfl | hold
    · rcases hlane j' hj' with rfl | hold'
      · rfl
      · rw [Function.update_self, Function.update_of_ne (hne j' hold')] at heq
        exact absurd heq.symm (hfresh j' hold')
    · rcases hlane j' hj' with rfl | hold'
      · rw [Function.update_self, Function.update_of_ne (hne j hold)] at heq
        exact absurd heq (hfresh j hold)
      · rw [Function.update_of_ne (hne j hold), Function.update_of_ne (hne j' hold')] at heq
        exact h.inj j j' hold hold' heq

theorem newBuckets_spec (mask : Mask 8) (m : Memory n) :
    NewBuckets mask m (newBuckets mask m).2 (newBuckets mask m).1 := by
  -- over the lanes `l` the loop has come past
  have hfold : ∀ l : List (Fin 8), l.Nodup → ∃ r, l.foldl (fun r i => if mask i then
      (Function.update r.1 i (some (getNewBucket r.2).1), (getNewBucket r.2).2) else r) (fun _ => none, m) = r ∧
        NewBuckets (fun i => mask i && decide (i ∈ l)) m r.2 r.1 := by
    intro l
    induction l using List.reverseRecOn with
    | nil =>
      intro _
      have hmask : (fun i => mask i && decide (i ∈ ([] : List (Fin 8)))) = noLanes 8 := by
        funext i
        simp [noLanes]
      rw [hmask]
      exact ⟨_, rfl, NewBuckets.none m⟩
    | append_singleton l i ih =>
      intro hnodup
      rw [List.nodup_append] at hnodup
      have hil : i ∉ l := fun hmem => hnodup.2.2 i hmem i List.mem_cons_self rfl
      obtain ⟨r, hr, h⟩ := ih hnodup.1
      rw [List.foldl_append, List.foldl_cons, List.foldl_nil, hr]
      refine ⟨_, rfl, ?_⟩
      cases hi : mask i with
      | true =>
        have hmask : (fun j => mask j && decide (j ∈ l ++ [i])) =
            Function.update (fun j => mask j && decide (j ∈ l)) i true := by
          funext j
          rcases eq_or_ne j i with rfl | hj
          · simp [hi]
          · simp [hj]
        rw [if_pos rfl, hmask]
        exact h.next (by simp [hil])
      | false =>
        have hmask : (fun j => mask j && decide (j ∈ l ++ [i])) = fun j => mask j && decide (j ∈ l) := by
          funext j
          rcases eq_or_ne j i with rfl | hj
          · simp [hi]
          · simp [hj]
        rw [if_neg Bool.false_ne_true, hmask]
        exact h
  obtain ⟨r, hr, hall⟩ := hfold (List.finRange 8) (List.nodup_finRange 8)
  simp only [List.mem_finRange, decide_true, Bool.and_true] at hall
  rw [newBuckets, hr]
  exact hall

/-! ### What a build keeps -/

/-- What is stored and what is under way or not yet read make up R, bucket by bucket. -/
structure Building (idx : Tuple → Fin n) (relR : List Tuple) (w : ℕ) (m : Memory n)
    (ahead behind : Multiset (Item n)) (rest : List Tuple) : Prop where
  bound : w = 2 * rest.length + ahead.card + behind.card
  heads : ∀ x ∈ ahead + behind, x.2 = some (.head (idx x.1))
  full : ∀ x ∈ behind, (m.bucket (.head (idx x.1))).count ≠ 0
  stored : ∀ i, ∃ l ts, Holds m i l ts ∧ (ts : Multiset Tuple) +
    ((ahead + behind).map Prod.fst).filter (fun t => idx t = i) + (rest.filter fun t => idx t = i : List Tuple) =
      (relR.filter fun t => idx t = i : List Tuple)

section
variable {idx : Tuple → Fin n} {relR : List Tuple}

/-- What the lanes of `inserted` leave of the vector. -/
def SIMDState.without (st : SIMDState n) (inserted : Mask 8) : SIMDState n :=
  { st with mHaveTuple := kandn inserted st.mHaveTuple }

theorem SIMDState.items_perm {st : SIMDState n} {inserted : Mask 8}
    (hsub : ∀ i, inserted i = true → st.mHaveTuple i = true) :
    st.items.Perm (lanes inserted (fun i => (st.key i, st.htOff i)) ++ (st.without inserted).items) :=
  lanes_kandn_perm hsub _

theorem SIMDState.mem_without {st : SIMDState n} {inserted : Mask 8} {x : Item n}
    (hx : x ∈ (st.without inserted).items) :
    ∃ i, inserted i = false ∧ st.mHaveTuple i = true ∧ (st.key i, st.htOff i) = x := by
  obtain ⟨i, hi, hxi⟩ := mem_items.mp hx
  change (!inserted i && st.mHaveTuple i) = true at hi
  rw [Bool.and_eq_true, Bool.not_eq_true'] at hi
  exact ⟨i, hi.1, hi.2, hxi⟩

theorem SIMDState.length_without {st : SIMDState n} {inserted : Mask 8}
    (hsub : ∀ i, inserted i = true → st.mHaveTuple i = true) :
    popcnt inserted + (st.without inserted).items.length = st.items.length := by
  rw [(SIMDState.items_perm hsub).length_eq, List.length_append, length_lanes]

theorem SIMDState.without_subset {st : SIMDState n} {inserted : Mask 8} {x : Item n}
    (hx : x ∈ (st.without inserted).items) : x ∈ st.items := by
  obtain ⟨i, -, hi, hxi⟩ := mem_without hx
  exact mem_items.mpr ⟨i, hi, hxi⟩

/-- The lanes of `inserted` go to their buckets, one for each, and the other buckets stay. -/
theorem stored_of_insert {m m' : Memory n} {st : SIMDState n} {inserted : Mask 8}
    {others : Multiset (Item n)} {rest : List Tuple} (hsub : ∀ i, inserted i = true → st.mHaveTuple i = true)
    (hinj : ∀ i j, inserted i = true → inserted j = true → idx (st.key i) = idx (st.key j) → i = j)
    (hstored : ∀ i, ∃ l ts, Holds m i l ts ∧ (ts : Multiset Tuple) +
      ((st.items + others).map Prod.fst).filter (fun t => idx t = i) +
        (rest.filter fun t => idx t = i : List Tuple) = (relR.filter fun t => idx t = i : List Tuple))
    (hkeep : ∀ i, (∀ j, inserted j = true → idx (st.key j) ≠ i) → ∀ l ts, Holds m i l ts → Holds m' i l ts)
    (hput : ∀ j, inserted j = true → ∀ l ts, Holds m (idx (st.key j)) l ts →
      ∃ l', Holds m' (idx (st.key j)) l' (st.key j :: ts)) :
    ∀ i, ∃ l ts, Holds m' i l ts ∧ (ts : Multiset Tuple) +
      (((st.without inserted).items + others).map Prod.fst).filter (fun t => idx t = i) +
        (rest.filter fun t => idx t = i : List Tuple) = (relR.filter fun t => idx t = i : List Tuple) := by
  intro i
  obtain ⟨l, ts, hholds, hsum⟩ := hstored i
  have hitems : (st.items : Multiset (Item n)) =
      (lanes inserted (fun i => (st.key i, st.htOff i)) : List (Item n)) +
        ((st.without inserted).items : Multiset (Item n)) :=
    (Multiset.coe_eq_coe.mpr (SIMDState.items_perm hsub)).trans (Multiset.coe_add _ _).symm
  have hkeys : (lanes inserted (fun i => (st.key i, st.htOff i)) : List (Item n)).map Prod.fst =
      lanes inserted st.key := by
    rw [lanes, lanes, List.map_map]
    rfl
  rw [hitems, Multiset.map_add, Multiset.map_add, Multiset.map_coe, hkeys, Multiset.filter_add, Multiset.filter_add,
    Multiset.filter_coe] at hsum
  rw [Multiset.map_add, Multiset.filter_add]
  by_cases hsome : ∃ j, inserted j = true ∧ idx (st.key j) = i
  · obtain ⟨j, hj, rfl⟩ := hsome
    obtain ⟨l', hholds'⟩ := hput j hj l ts hholds
    have hone : (lanes inserted st.key).filter (fun t => idx t = idx (st.key j)) = [st.key j] :=
      filter_lanes_eq_singleton hj (decide_eq_true rfl) fun j' hj' heq => hinj j' j hj' hj (of_decide_eq_true heq)
    rw [hone, Multiset.coe_singleton] at hsum
    refine ⟨l', st.key j :: ts, hholds', ?_⟩
    rw [← hsum, ← Multiset.cons_coe, ← Multiset.singleton_add]
    abel
  · push Not at hsome
    have hnone : (lanes inserted st.key).filter (fun t => idx t = i) = [] :=
      filter_lanes_eq_nil fun j hj => decide_eq_false (hsome j hj)
    rw [hnone, Multiset.coe_nil, zero_add] at hsum
    exact ⟨l, ts, hkeep i hsome l ts hholds, hsum⟩

theorem Building.at_head {w : ℕ} {m : Memory n} {ahead behind : Multiset (Item n)} {rest : List Tuple}
    (h : Building idx relR w m ahead behind rest) (st : SIMDState n)
    (hsub : ∀ x ∈ st.items, x ∈ ahead + behind) {i : Fin 8} (hi : st.mHaveTuple i = true) :
    st.htOff i = some (.head (idx (st.key i))) :=
  h.heads _ (hsub _ (SIMDState.mem_items.mpr ⟨i, hi, rfl⟩))

theorem SIMDState.not_faults {st : SIMDState n} {head : Tuple → Fin n}
    (h : ∀ i, st.mHaveTuple i = true → st.htOff i = some (.head (head (st.key i)))) : ¬ st.faults := by
  intro ⟨i, hi, hnone⟩
  rw [h i hi] at hnone
  exact absurd hnone (by simp)

/-- One lane for each head is inserted. -/
theorem noConflict_heads {st : SIMDState n} {mask : Mask 8}
    (hhead : ∀ i, mask i = true → st.htOff i = some (.head (idx (st.key i)))) {i j : Fin 8}
    (hi : noConflict mask st.htOff i = true) (hj : noConflict mask st.htOff j = true)
    (heq : idx (st.key i) = idx (st.key j)) : i = j := by
  apply noConflict_inj hi hj
  rw [hhead i (noConflict_iff.mp hi).1, hhead j (noConflict_iff.mp hj).1, heq]

/-- The lanes to be inserted hold tuples at their heads, one for each head. -/
structure Inserting (idx : Tuple → Fin n) (st : SIMDState n) (inserted : Mask 8) : Prop where
  sub : ∀ i, inserted i = true → st.mHaveTuple i = true
  head : ∀ i, st.mHaveTuple i = true → st.htOff i = some (.head (idx (st.key i)))
  inj : ∀ i j, inserted i = true → inserted j = true → idx (st.key i) = idx (st.key j) → i = j

theorem inserting_noConflict {st : SIMDState n} {mask : Mask 8} (hmask : ∀ i, mask i = true → st.mHaveTuple i = true)
    (hhead : ∀ i, st.mHaveTuple i = true → st.htOff i = some (.head (idx (st.key i)))) :
    Inserting idx st (noConflict mask st.htOff) where
  sub i hi := hmask i (noConflict_iff.mp hi).1
  head := hhead
  inj _ _ hi hj heq := noConflict_heads (fun i hi => hhead i (hmask i hi)) hi hj heq

namespace Inserting

variable {st : SIMDState n} {inserted : Mask 8} (h : Inserting idx st inserted)
include h

theorem htOff_eq {j : Fin 8} (hj : inserted j = true) : st.htOff j = some (.head (idx (st.key j))) :=
  h.head j (h.sub j hj)

theorem eq_of_htOff {i j : Fin 8} (hi : inserted i = true) (hj : inserted j = true)
    (heq : st.htOff i = some (.head (idx (st.key j)))) : i = j := by
  rw [h.htOff_eq hi] at heq
  exact h.inj i j hi hj (Addr.head.inj (Option.some.inj heq))

theorem ne_of_htOff {a : Addr n} (ha : ∀ j, inserted j = true → a ≠ .head (idx (st.key j))) {j : Fin 8}
    (hj : inserted j = true) : st.htOff j ≠ some a := by
  rw [h.htOff_eq hj]
  intro heq
  exact ha j hj (Option.some.inj heq).symm

end Inserting

/-! ### Filling heads -/

/-- Stage 2: the lanes of `inserted` fill their heads. -/
def Memory.fillHeads (m : Memory n) (st : SIMDState n) (inserted : Mask 8) : Memory n :=
  { m with bucket := scatter m.bucket inserted st.htOff fun i b => { b with count := 1, tuple := st.key i } }

/-- The lanes whose heads are empty. -/
def Memory.toInsert (m : Memory n) (st : SIMDState n) : Mask 8 :=
  kand (fun i => m.gather st.mHaveTuple st.htOff (fun b => (b.count : ℤ)) (-1) i == 0) st.mHaveTuple

theorem Memory.toInsert_iff (m : Memory n) {st : SIMDState n}
    (hhead : ∀ i, st.mHaveTuple i = true → st.htOff i = some (.head (idx (st.key i)))) (i : Fin 8) :
    m.toInsert st i = true ↔ st.mHaveTuple i = true ∧ (m.bucket (.head (idx (st.key i)))).count = 0 := by
  rw [Memory.toInsert, kand, Bool.and_eq_true, and_comm]
  apply and_congr_right
  intro hi
  rw [m.gather_some _ _ hi (hhead i hi), beq_iff_eq, Nat.cast_eq_zero]

section
variable {st : SIMDState n} {inserted : Mask 8} (hins : Inserting idx st inserted) (m : Memory n)
include hins

theorem fillHeads_at {j : Fin 8} (hj : inserted j = true) :
    (m.fillHeads st inserted).bucket (.head (idx (st.key j))) =
      { m.bucket (.head (idx (st.key j))) with count := 1, tuple := st.key j } := by
  dsimp only [Memory.fillHeads]
  exact scatter_at hj (hins.htOff_eq hj) fun i hi heq => hins.eq_of_htOff hi hj heq

theorem fillHeads_of_ne {a : Addr n} (ha : ∀ j, inserted j = true → a ≠ .head (idx (st.key j))) :
    (m.fillHeads st inserted).bucket a = m.bucket a := by
  dsimp only [Memory.fillHeads]
  exact scatter_of_ne fun j hj heq => hins.ne_of_htOff ha hj heq

/-- A head that is full stays full. -/
theorem fillHeads_count_ne_zero {i : Fin n} (hne : (m.bucket (.head i)).count ≠ 0) :
    ((m.fillHeads st inserted).bucket (.head i)).count ≠ 0 := by
  by_cases hsome : ∃ j, inserted j = true ∧ idx (st.key j) = i
  · obtain ⟨j, hj, rfl⟩ := hsome
    rw [fillHeads_at hins m hj]
    exact one_ne_zero
  · push Not at hsome
    rwa [fillHeads_of_ne hins m fun j hj heq => hsome j hj (Addr.head.inj heq).symm]

end

theorem Building.of_heads {w : ℕ} {m : Memory n} {st : SIMDState n} {ahead behind : Multiset (Item n)}
    {rest : List Tuple} (h : Building idx relR w m (st.items + ahead) behind rest) :
    ∃ w' ≤ w, Building idx relR w' (m.fillHeads st (noConflict (m.toInsert st) st.htOff)) ahead
      ((st.without (noConflict (m.toInsert st) st.htOff)).items + behind) rest := by
  have hhead : ∀ i, st.mHaveTuple i = true → st.htOff i = some (.head (idx (st.key i))) := fun i hi =>
    h.at_head st (fun x hx => Multiset.mem_add.mpr (Or.inl (Multiset.mem_add.mpr (Or.inl hx)))) hi
  have hempty := m.toInsert_iff hhead
  have hins := inserting_noConflict (fun i hi => ((hempty i).mp hi).1) hhead
  have hto : ∀ i, noConflict (m.toInsert st) st.htOff i = true → m.toInsert st i = true :=
    fun i hi => (noConflict_iff.mp hi).1
  refine ⟨_, ?_, rfl, fun x hx => h.heads x ?_, fun x hx => ?_, ?_⟩
  · have hlen := SIMDState.length_without hins.sub
    rw [h.bound, Multiset.card_add, Multiset.card_add, Multiset.coe_card, Multiset.coe_card]
    omega
  · rw [Multiset.mem_add, Multiset.mem_add] at hx
    rw [Multiset.mem_add, Multiset.mem_add]
    rcases hx with hahead | hleft | hbehind
    · exact Or.inl (Or.inr hahead)
    · exact Or.inl (Or.inl (SIMDState.without_subset hleft))
    · exact Or.inr hbehind
  · -- an empty head has been filled by this lane or by the lane it conflicts with
    rcases Multiset.mem_add.mp hx with hleft | hbehind
    · obtain ⟨i, -, hi, rfl⟩ := SIMDState.mem_without hleft
      by_cases hzero : (m.bucket (.head (idx (st.key i)))).count = 0
      · obtain ⟨j, hj, heq⟩ := exists_noConflict (v := st.htOff) ((hempty i).mpr ⟨hi, hzero⟩)
        rw [hhead i hi, hins.htOff_eq hj, Option.some_inj, Addr.head.injEq] at heq
        rw [← heq, fillHeads_at hins m hj]
        exact one_ne_zero
      · exact fillHeads_count_ne_zero hins m hzero
    · exact fillHeads_count_ne_zero hins m (h.full x hbehind)
  · rw [add_left_comm]
    refine stored_of_insert hins.sub hins.inj (by simpa only [add_assoc] using h.stored)
      (fun i hi l ts hholds => ?_) fun j hj l ts hholds => ?_
    · refine hholds.frame (fillHeads_of_ne hins m fun j hj heq => hi j hj (Addr.head.inj heq).symm) (fun a ha => ?_)
        fun a ha => ?_
      · apply fillHeads_of_ne hins m
        intro j hj heq
        rw [heq] at ha
        exact Memory.not_allocated_head m _ ha
      · cases a <;> exact ha
    · obtain ⟨rfl, hfill⟩ := hholds.fill ((hempty j).mp (hto j hj)).2 (fillHeads_at hins m hj)
      exact ⟨[], hfill⟩

/-! ### Hooking in behind heads -/

/-- Stage 0: the lanes of `inserted` get new buckets, hooked in behind their heads. -/
def Memory.hookBehind (m : Memory n) (st : SIMDState n) (inserted : Mask 8) : Memory n :=
  let new := (newBuckets inserted m).1
  let mem := (newBuckets inserted m).2
  let next := mem.gather st.mHaveTuple st.htOff Bucket.next none
  let bucket := scatter mem.bucket inserted new fun i b => { b with tuple := st.key i, next := next i }
  { mem with bucket := scatter bucket inserted st.htOff fun i b => { b with next := new i } }

theorem NewBuckets.ne_head {mask : Mask 8} {m m' : Memory n} {new : Fin 8 → Option (Addr n)}
    (h : NewBuckets mask m m' new) {j : Fin 8} (hj : mask j = true) (i : Fin n) : new j ≠ Option.some (.head i) := by
  intro heq
  obtain ⟨b, hb, -, -, hnot⟩ := h.some j hj
  rw [hb] at heq
  exact hnot i (Option.some.inj heq)

section
variable {st : SIMDState n} {inserted : Mask 8} (hins : Inserting idx st inserted) (m : Memory n)
include hins

/-- The heads of the lanes point to the new buckets. -/
theorem hookBehind_head {j : Fin 8} (hj : inserted j = true) :
    (m.hookBehind st inserted).bucket (.head (idx (st.key j))) =
      { m.bucket (.head (idx (st.key j))) with next := (newBuckets inserted m).1 j } := by
  have hnew := newBuckets_spec inserted m
  dsimp only [Memory.hookBehind]
  rw [scatter_at hj (hins.htOff_eq hj) fun i hi heq => hins.eq_of_htOff hi hj heq,
    scatter_of_ne fun i hi => hnew.ne_head hi _, hnew.bucket]

/-- The new buckets hold the tuples and point to what was behind the heads. -/
theorem hookBehind_new {j : Fin 8} (hj : inserted j = true) {b : Addr n}
    (hb : (newBuckets inserted m).1 j = some b) :
    (m.hookBehind st inserted).bucket b =
      { m.bucket b with tuple := st.key j, next := (m.bucket (.head (idx (st.key j)))).next } := by
  have hnew := newBuckets_spec inserted m
  dsimp only [Memory.hookBehind]
  rw [scatter_of_ne, scatter_at hj hb, Memory.gather_some _ _ _ (hins.sub j hj) (hins.htOff_eq hj), hnew.bucket]
  · intro i hi heq
    exact hnew.inj i j hi hj (heq.trans hb.symm)
  · intro i hi heq
    rw [hins.htOff_eq hi, ← hb] at heq
    exact hnew.ne_head hj _ heq.symm

theorem hookBehind_of_ne {a : Addr n} (ha : ∀ j, inserted j = true → a ≠ .head (idx (st.key j)))
    (hfresh : ∀ j, inserted j = true → (newBuckets inserted m).1 j ≠ some a) :
    (m.hookBehind st inserted).bucket a = m.bucket a := by
  dsimp only [Memory.hookBehind]
  rw [scatter_of_ne fun j hj => hins.ne_of_htOff ha hj, scatter_of_ne hfresh, (newBuckets_spec inserted m).bucket]

theorem hookBehind_other_head {i : Fin n} (hi : ∀ j, inserted j = true → idx (st.key j) ≠ i) :
    (m.hookBehind st inserted).bucket (.head i) = m.bucket (.head i) :=
  hookBehind_of_ne hins m (fun j hj heq => hi j hj (Addr.head.inj heq).symm) fun _ hj =>
    (newBuckets_spec inserted m).ne_head hj i

theorem hookBehind_of_allocated {a : Addr n} (ha : m.Allocated a) :
    (m.hookBehind st inserted).bucket a = m.bucket a := by
  refine hookBehind_of_ne hins m (fun j hj heq => ?_) fun j hj heq => ?_
  · rw [heq] at ha
    exact Memory.not_allocated_head m _ ha
  · obtain ⟨b, hb, hnot, -⟩ := (newBuckets_spec inserted m).some j hj
    rw [hb] at heq
    exact hnot (Option.some.inj heq ▸ ha)

theorem hookBehind_count (i : Fin n) :
    ((m.hookBehind st inserted).bucket (.head i)).count = (m.bucket (.head i)).count := by
  by_cases hsome : ∃ j, inserted j = true ∧ idx (st.key j) = i
  · obtain ⟨j, hj, rfl⟩ := hsome
    rw [hookBehind_head hins m hj]
  · push Not at hsome
    rw [hookBehind_other_head hins m hsome]

end

theorem hookBehind_allocated (m : Memory n) (st : SIMDState n) (inserted : Mask 8) {a : Addr n}
    (ha : (newBuckets inserted m).2.Allocated a) : (m.hookBehind st inserted).Allocated a := by
  cases a <;> exact ha

theorem Building.of_behind {w : ℕ} {m : Memory n} {st : SIMDState n} {ahead behind : Multiset (Item n)}
    {rest : List Tuple} (h : Building idx relR w m ahead (st.items + behind) rest)
    (hne : st.mHaveTuple ≠ noLanes 8) :
    ∃ w' < w, Building idx relR w' (m.hookBehind st (noConflict st.mHaveTuple st.htOff)) ahead
      ((st.without (noConflict st.mHaveTuple st.htOff)).items + behind) rest := by
  have hhead : ∀ i, st.mHaveTuple i = true → st.htOff i = some (.head (idx (st.key i))) := fun i hi =>
    h.at_head st (fun x hx => Multiset.mem_add.mpr (Or.inr (Multiset.mem_add.mpr (Or.inl hx)))) hi
  have hpos : 0 < popcnt (noConflict st.mHaveTuple st.htOff) := by
    obtain ⟨i, hi⟩ : ∃ i, st.mHaveTuple i = true := by
      by_contra hnone
      push Not at hnone
      exact hne (funext fun i => Bool.eq_false_iff.mpr (hnone i))
    obtain ⟨j, hj, -⟩ := exists_noConflict (v := st.htOff) hi
    exact List.length_pos_of_mem (mem_indices.mpr hj)
  have hins := inserting_noConflict (fun _ hi => hi) hhead
  generalize noConflict st.mHaveTuple st.htOff = inserted at hpos hins ⊢
  have hnew := newBuckets_spec inserted m
  have hmono : ∀ a, m.Allocated a → (m.hookBehind st inserted).Allocated a := fun a ha =>
    hookBehind_allocated m st inserted (hnew.mono a ha)
  refine ⟨_, ?_, rfl, fun x hx => h.heads x ?_, fun x hx => ?_, ?_⟩
  · have hlen := SIMDState.length_without hins.sub
    rw [h.bound, Multiset.card_add, Multiset.card_add, Multiset.coe_card, Multiset.coe_card]
    omega
  · rw [Multiset.mem_add, Multiset.mem_add] at hx
    rw [Multiset.mem_add, Multiset.mem_add]
    exact hx.imp_right (Or.imp_left SIMDState.without_subset)
  · rw [hookBehind_count hins]
    rw [Multiset.mem_add] at hx
    exact h.full x (Multiset.mem_add.mpr (hx.imp_left SIMDState.without_subset))
  · rw [add_left_comm]
    refine stored_of_insert hins.sub hins.inj (by simpa only [add_left_comm] using h.stored)
      (fun i hi l ts hholds => ?_) fun j hj l ts hholds => ?_
    · exact hholds.frame (hookBehind_other_head hins m hi) (fun _ => hookBehind_of_allocated hins m) hmono
    · obtain ⟨b, hb, -, halloc, -⟩ := hnew.some j hj
      have hbucket := hookBehind_new hins m hj hb
      refine ⟨b :: l, hholds.push ?_ (by rw [hookBehind_head hins m hj, hb]) (by rw [hbucket]) (by rw [hbucket])
        (fun _ => hookBehind_of_allocated hins m) (hookBehind_allocated m st inserted halloc) hmono⟩
      exact h.full (st.key j, st.htOff j)
        (Multiset.mem_add.mpr (Or.inl (SIMDState.mem_items.mpr ⟨j, hins.sub j hj, rfl⟩)))

theorem Building.of_load {w : ℕ} {m : Memory n} {ahead behind : Multiset (Item n)} {rest : List Tuple}
    (h : Building idx relR w m ahead behind rest) (hne : rest ≠ []) :
    ∃ w' < w, Building idx relR w' m (ahead + ((rest.take 8).map (atHead idx) : Multiset (Item n))) behind
      (rest.drop 8) := by
  refine ⟨_, ?_, rfl, fun x hx => ?_, h.full, fun i => ?_⟩
  · have hlen := List.length_pos_iff.mpr hne
    rw [h.bound, Multiset.card_add, Multiset.coe_card, List.length_map, List.length_take, List.length_drop]
    omega
  · rw [Multiset.mem_add, Multiset.mem_add] at hx
    rcases hx with (hahead | hread) | hbehind
    · exact h.heads x (Multiset.mem_add.mpr (Or.inl hahead))
    · obtain ⟨t, -, rfl⟩ := List.mem_map.mp (Multiset.mem_coe.mp hread)
      rfl
    · exact h.heads x (Multiset.mem_add.mpr (Or.inr hbehind))
  · obtain ⟨l, ts, hholds, hsum⟩ := h.stored i
    have hkeys : ((rest.take 8).map (atHead idx)).map Prod.fst = rest.take 8 := by
      rw [List.map_map]
      exact List.map_id _
    have hrest : (rest.filter fun t => idx t = i : List Tuple) =
        ((rest.take 8).filter fun t => idx t = i) ++ ((rest.drop 8).filter fun t => idx t = i) := by
      rw [← List.filter_append, List.take_append_drop]
    refine ⟨l, ts, hholds, ?_⟩
    rw [← hsum, hrest, ← Multiset.coe_add, Multiset.map_add, Multiset.map_add, Multiset.map_add, Multiset.map_coe,
      hkeys, Multiset.filter_add, Multiset.filter_add, Multiset.filter_add, Multiset.filter_coe]
    abel

theorem SIMDState.without_noLanes (st : SIMDState n) : st.without (noLanes 8) = st := rfl

theorem Memory.fillHeads_noLanes (m : Memory n) (st : SIMDState n) : m.fillHeads st (noLanes 8) = m := by
  have hsame : scatter m.bucket (noLanes 8) st.htOff (fun i b => { b with count := 1, tuple := st.key i }) = m.bucket :=
    funext fun a => scatter_of_ne fun i hi => absurd hi Bool.false_ne_true
  rw [Memory.fillHeads, hsame]

theorem noConflict_noLanes (v : Fin 8 → Option (Addr n)) : noConflict (noLanes 8) v = noLanes 8 := by
  funext i
  exact Bool.and_false _

/-- Every stage of the build keeps the balance and works something off. -/
theorem build_sound (idx : Tuple → Fin n) (relR : List Tuple) :
    Sound idx relR (buildStage idx relR) (Building idx relR) where
  read s k h := by rw [buildStage, h]
  skip s k h := by rw [buildStage, h]
  load w mem ahead behind rest hne h := h.of_load hne
  heads s k w ahead behind rest hk hstage hmask hready h := by
    have hfault : ¬ (s.state k).faults := SIMDState.not_faults fun i hi =>
      h.at_head _ (fun x hx => Multiset.mem_add.mpr (Or.inl (Multiset.mem_add.mpr (Or.inl hx)))) hi
    obtain ⟨w', hw, h'⟩ := h.of_heads
    by_cases hto : s.mem.toInsert (s.state k) = noLanes 8
    · rw [hto, noConflict_noLanes, Memory.fillHeads_noLanes, SIMDState.without_noLanes] at h'
      refine ⟨{ s.state k with stage := 0 }, s.mem, { s.set k { s.state k with stage := 0 } with k := k }, ?_, ?_,
        w', hw, h'⟩
      · rw [buildStage, hstage]
        dsimp only [buildHeads]
        exact (if_neg hfault).trans (if_pos hto)
      · refine (hready _ _).stay rfl rfl rfl (g := 0) ?_ (Or.inl rfl) fun _ => Or.inl ⟨rfl, ?_⟩
        · simp [Machine.set]
        · simpa [Machine.set] using hmask
    · refine ⟨_, _, _, ?_, (hready _ _).buildSettle k k, w', hw, h'⟩
      rw [buildStage, hstage]
      dsimp only [buildHeads]
      exact (if_neg hfault).trans (if_neg hto)
  buckets s k w ahead behind rest hstage hmask hready h := by
    have hfault : ¬ (s.state k).faults := SIMDState.not_faults fun i hi =>
      h.at_head _ (fun x hx => Multiset.mem_add.mpr (Or.inr (Multiset.mem_add.mpr (Or.inl hx)))) hi
    obtain ⟨w', hw, h'⟩ := h.of_behind hmask
    refine ⟨_, _, _, ?_, (hready _ _ ?_).buildSettle (k + 1) (k + 1), w', hw, h'⟩
    · rw [buildStage, hstage]
      dsimp only [buildBehind]
      rw [if_neg hfault]
      rfl
    · exact hstage

end

end HashingArchive.Join
