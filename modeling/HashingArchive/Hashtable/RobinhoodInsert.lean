import HashingArchive.Hashtable.Robinhood

/-!
# `RobinhoodProbing::insert`, pass by pass

`BodyStep` lists what one pass of the insert loop can do, and `insertBody_step` says that it does
nothing else. `insert_rule` is the loop rule for an insert of an absent key: the loop ends, and what
every `BodyStep` keeps holds on the way. The table keeps the robin hood order at every pass, and table
and hand together hold what the table held before plus the new key (`insert_absent`), also when the
insert throws. An insert of a resident key displaces nothing before it finds the key
(`insert_resident`).
-/

namespace HashingArchive.Hashtable.Robinhood

open HashingArchive.Library HashingArchive.Loop

section
variable {Key Hash Payload : Type} {c : Config Key Hash}

/-- The slot of the current bucket. -/
abbrev Hand.slot (s : Hand c Payload) (i : Fin c.bucketSize) : Slot Key Payload := s.table s.slotIndex i

/-- The table with the key in hand put into slot `i` of the current bucket. -/
abbrev Hand.placed (s : Hand c Payload) (i : Fin c.bucketSize) : Table c Payload :=
  s.table.set s.slotIndex i { key := s.key, psl := s.probingStep, payload := s.payload }

/-- What one pass can do. -/
inductive BodyStep (origKey : Key) (s : Hand c Payload) :
    Pass (Hand c Payload) (Outcome Bool × Table c Payload) → Prop where
  | place (i : Fin c.bucketSize) (hi : s.i = i) (hempty : (s.slot i).key = c.sentinel) :
      BodyStep origKey s (.leave (.value true, s.placed i))
  | found (i : Fin c.bucketSize) (hi : s.i = i) (hsame : (s.slot i).key = s.key) :
      BodyStep origKey s (.leave (.value false, s.table))
  | skip (i : Fin c.bucketSize) (hi : s.i = i) (hocc : (s.slot i).key ≠ c.sentinel)
      (hother : (s.slot i).key ≠ s.key) (hpoor : s.probingStep ≤ (s.slot i).psl) :
      BodyStep origKey s (.again { s with i := s.i + 1 })
  | displace (i : Fin c.bucketSize) (hi : s.i = i) (hocc : (s.slot i).key ≠ c.sentinel)
      (hrich : (s.slot i).psl < s.probingStep) (horig : origKey ≠ (s.slot i).key) :
      BodyStep origKey s (.again
        { table := s.placed i
          key := (s.slot i).key
          payload := (s.slot i).payload
          origSlotIndex := c.home (s.slot i).key
          slotIndex := s.slotIndex
          probingStep := (s.slot i).psl
          i := s.i + 1 })
  | loop (i : Fin c.bucketSize) (hi : s.i = i) (hrich : (s.slot i).psl < s.probingStep)
      (horig : origKey = (s.slot i).key) : BodyStep origKey s (.leave (.thrown loopMessage, s.table))
  | next (hi : c.bucketSize ≤ s.i)
      (hne : c.probingfn.probe s.origSlotIndex ((s.probingStep + 1) % 2 ^ 64) ≠ s.origSlotIndex) :
      BodyStep origKey s (.again
        { s with
          slotIndex := c.probingfn.probe s.origSlotIndex ((s.probingStep + 1) % 2 ^ 64)
          probingStep := (s.probingStep + 1) % 2 ^ 64
          i := 0 })
  | cycle (hi : c.bucketSize ≤ s.i)
      (hback : c.probingfn.probe s.origSlotIndex ((s.probingStep + 1) % 2 ^ 64) = s.origSlotIndex) :
      BodyStep origKey s (.leave (.thrown (cycleMessage c), s.table))

theorem insertBody_step [DecidableEq Key] (origKey : Key) (s : Hand c Payload) :
    BodyStep origKey s (insertBody c origKey s) := by
  unfold insertBody
  dsimp only
  split_ifs with hlt hempty hsame hrich horig hback
  · exact .place ⟨s.i, hlt⟩ rfl hempty
  · exact .found ⟨s.i, hlt⟩ rfl hsame
  · exact .loop ⟨s.i, hlt⟩ rfl hrich horig
  · exact .displace ⟨s.i, hlt⟩ rfl hempty hrich horig
  · exact .skip ⟨s.i, hlt⟩ rfl hempty hsame (not_lt.mp hrich)
  · exact .cycle (not_lt.mp hlt) hback
  · exact .next (not_lt.mp hlt) hback

/-- The loop invariant of an insert of an absent key. -/
structure Hand.Ok (s : Hand c Payload) : Prop where
  inv : Inv s.table
  carries : Carries s.table s.key s.probingStep s.i
  slotIndex_eq : s.slotIndex = c.bucketAt s.key s.probingStep
  origSlotIndex_eq : s.origSlotIndex = c.home s.key
  i_le : s.i ≤ c.bucketSize

theorem Hand.Ok.placed_eq {s : Hand c Payload} (hs : s.Ok) (i : Fin c.bucketSize) :
    s.placed i = put s.table s.key s.probingStep i s.payload := by
  rw [Hand.placed, put, hs.slotIndex_eq]

theorem Hand.Ok.carries_at {s : Hand c Payload} (hs : s.Ok) {i : Fin c.bucketSize} (hi : s.i = i) :
    Carries s.table s.key s.probingStep i := hi ▸ hs.carries

/-- The way on to the next bucket, with the step counter as a number. -/
theorem Hand.Ok.next {s : Hand c Payload} (hs : s.Ok) (hi : c.bucketSize ≤ s.i)
    (hne : c.probingfn.probe s.origSlotIndex ((s.probingStep + 1) % 2 ^ 64) ≠ s.origSlotIndex) :
    Carries s.table s.key (s.probingStep + 1) 0 ∧ (s.probingStep + 1) % 2 ^ 64 = s.probingStep + 1 := by
  have hcarries := hs.carries
  rw [le_antisymm hs.i_le hi] at hcarries
  rw [hs.origSlotIndex_eq] at hne
  exact hcarries.next hne

/-- Every pass that goes on keeps the loop invariant. -/
theorem BodyStep.ok {origKey : Key} {s s' : Hand c Payload} (hs : s.Ok)
    (hstep : BodyStep origKey s (.again s')) : s'.Ok := by
  have hslot := hs.slotIndex_eq
  cases hstep with
  | skip i hi hocc hother hpoor =>
    have hcarries := hs.carries
    refine ⟨hs.inv, ⟨hcarries.key_ne, hcarries.absent, hcarries.reaches, hcarries.full, fun i' hi' => ?_⟩,
      hslot, hs.origSlotIndex_eq, by dsimp only; omega⟩
    rcases Nat.lt_succ_iff_lt_or_eq.mp hi' with hlt | heq
    · exact hcarries.before i' hlt
    · obtain rfl : i' = i := Fin.ext (by omega)
      rw [Hand.slot, hslot] at hocc hpoor
      exact ⟨hocc, hpoor⟩
  | displace i hi hocc hrich horig =>
    have hcarries := hs.carries_at hi
    rw [hs.placed_eq]
    rw [Hand.slot, hslot] at hocc hrich
    simp only [Hand.slot, hslot]
    refine ⟨hcarries.inv_put hs.inv fun _ => hrich, ?_, (hs.inv.bucket _ i hocc).symm, rfl,
      by dsimp only; omega⟩
    rw [hi]
    exact hcarries.displaced hs.inv hocc hrich
  | next hi hne =>
    obtain ⟨hcarries, hmod⟩ := hs.next hi hne
    rw [hmod]
    exact ⟨hs.inv, hcarries, by dsimp only; rw [hs.origSlotIndex_eq], hs.origSlotIndex_eq, Nat.zero_le _⟩

/-! ### The loop ends -/

/-- What is left to do: `2 ^ 64` minus the `psl`, over the slots and the hand together, and the rest of
the bucket. A displacement only moves `psl` between hand and slot. -/
def Hand.measure (s : Hand c Payload) : ℕ :=
  (s.table.sum (fun slot => 2 ^ 64 - slot.psl) + (2 ^ 64 - s.probingStep)) * (c.bucketSize + 1) +
    (c.bucketSize - s.i)

theorem BodyStep.measure_lt {origKey : Key} {s s' : Hand c Payload} (hlt : s.probingStep < 2 ^ 64)
    (hnext : ∀ (_ : c.bucketSize ≤ s.i)
      (_ : c.probingfn.probe s.origSlotIndex ((s.probingStep + 1) % 2 ^ 64) ≠ s.origSlotIndex),
      (s.probingStep + 1) % 2 ^ 64 = s.probingStep + 1)
    (hstep : BodyStep origKey s (.again s')) : s'.measure < s.measure := by
  unfold Hand.measure
  cases hstep with
  | skip i hi hocc hother hpoor =>
    have := i.isLt
    dsimp only
    omega
  | displace i hi hocc hrich horig =>
    have hi' := i.isLt
    have hsum := Grid.sum_set s.table s.slotIndex i
      { key := s.key, psl := s.probingStep, payload := s.payload } (fun slot => 2 ^ 64 - slot.psl)
    have hkeep : (s.placed i).sum (fun slot => 2 ^ 64 - slot.psl) + (2 ^ 64 - (s.slot i).psl) =
        s.table.sum (fun slot => 2 ^ 64 - slot.psl) + (2 ^ 64 - s.probingStep) := hsum
    dsimp only
    rw [hkeep]
    omega
  | next hi hne =>
    have hsplit : 2 ^ 64 - s.probingStep = (2 ^ 64 - (s.probingStep + 1)) + 1 := by omega
    dsimp only
    rw [hnext hi hne, hsplit, ← Nat.add_assoc, Nat.add_mul _ 1]
    omega

theorem sum_psl_le (t : Table c Payload) :
    t.sum (fun slot => 2 ^ 64 - slot.psl) ≤ c.directorySize * c.bucketSize * 2 ^ 64 := by
  have hrow : ∀ b, ∑ i, (2 ^ 64 - (t b i).psl) ≤ c.bucketSize * 2 ^ 64 := fun b =>
    le_trans (Finset.sum_le_card_nsmul _ _ (2 ^ 64) fun i _ => Nat.sub_le _ _) (by simp)
  apply le_trans (Finset.sum_le_card_nsmul _ _ _ fun b _ => hrow b)
  simp [mul_assoc]

theorem Hand.start_ok {t : Table c Payload} (hinv : Inv t) {k : Key} (hk : k ≠ c.sentinel)
    (habsent : ¬ Resident t k) (p : Payload) : (Hand.start t k p).Ok where
  inv := hinv
  carries := ⟨hk, habsent, .zero _ _, fun _ hj => absurd hj (Nat.not_lt_zero _),
    fun _ hi' => absurd hi' (Nat.not_lt_zero _)⟩
  slotIndex_eq := (c.probingfn.probe_zero c.directorySize_lt.le _).symm
  origSlotIndex_eq := rfl
  i_le := Nat.zero_le _

theorem Hand.start_measure_lt (t : Table c Payload) (k : Key) (p : Payload) :
    (Hand.start t k p).measure < insertBound c := by
  have hsum := sum_psl_le t
  have hmul : (t.sum (fun slot => 2 ^ 64 - slot.psl) + 2 ^ 64) * (c.bucketSize + 1) ≤
      (c.directorySize * c.bucketSize + 1) * 2 ^ 64 * (c.bucketSize + 1) :=
    Nat.mul_le_mul_right _ (by omega)
  simp only [Hand.measure, Hand.start, insertBound, Nat.sub_zero]
  omega

end

section
variable {Key Hash Payload : Type} [DecidableEq Key] {c : Config Key Hash}

/-- **The loop rule of an insert of an absent key.** The insert ends with what its last pass leaves
with; `J` may be any property of the hand that every pass keeps. -/
theorem insert_rule {t : Table c Payload} (hinv : Inv t) {k : Key} (hk : k ≠ c.sentinel)
    (habsent : ¬ Resident t k) (p : Payload) (J : Hand c Payload → Prop)
    (Post : Outcome Bool × Table c Payload → Prop) (hstart : J (Hand.start t k p))
    (hpass : ∀ s r, s.Ok → J s → BodyStep k s r → r.Holds J Post) : Post (insert c t k p) := by
  obtain ⟨r, hr, hpost⟩ := Loop.run_total (insertBody c k) (fun s => s.Ok ∧ J s) Hand.measure Post
    (fun s hs => by
      have hstep := insertBody_step k s
      have hholds := hpass s _ hs.1 hs.2 hstep
      cases hb : insertBody c k s with
      | again s' =>
        rw [hb] at hstep hholds
        exact ⟨⟨hstep.ok hs.1, hholds⟩, hstep.measure_lt hs.1.carries.reaches.1 fun hi hne => (hs.1.next hi hne).2⟩
      | leave r =>
        rw [hb] at hholds
        exact hholds)
    (insertBound c) (Hand.start t k p) ⟨Hand.start_ok hinv hk habsent p, hstart⟩ (Hand.start_measure_lt t k p)
  rwa [insert, if_neg hk, hr, Option.getD_some]

/-! ### Table and hand together -/

omit [DecidableEq Key] in
/-- Every pass that goes on keeps what table and hand hold together. -/
theorem BodyStep.holds_iff {origKey : Key} {s s' : Hand c Payload} (hs : s.Ok)
    (hstep : BodyStep origKey s (.again s')) {k : Key} (hk : k ≠ c.sentinel) (q : Payload) :
    (Stores s'.table k q ∨ (k = s'.key ∧ q = s'.payload)) ↔
      (Stores s.table k q ∨ (k = s.key ∧ q = s.payload)) := by
  cases hstep with
  | skip i hi hocc hother hpoor => exact Iff.rfl
  | next hi hne => exact Iff.rfl
  | displace i hi hocc hrich horig =>
    have hvictim : Stores s.table (s.slot i).key (s.slot i).payload := ⟨_, i, rfl, rfl⟩
    rw [hs.placed_eq, (hs.carries_at hi).stores_put_iff hs.inv hk q, ← hs.slotIndex_eq]
    constructor
    · rintro ((⟨hst, -⟩ | hhand) | ⟨rfl, rfl⟩)
      · exact Or.inl hst
      · exact Or.inr hhand
      · exact Or.inl hvictim
    · rintro (hst | hhand)
      · by_cases hkey : k = (s.slot i).key
        · subst hkey
          exact Or.inr ⟨rfl, hs.inv.stores_unique hk hst hvictim⟩
        · exact Or.inl (Or.inl ⟨hst, hkey⟩)
      · exact Or.inl (Or.inr hhand)

/-- What an insert of an absent key comes back with: the key is in, or it throws with some key `v` still
in hand. -/
inductive Settled (t : Table c Payload) (k : Key) (p : Payload) : Outcome Bool × Table c Payload → Prop where
  | stored (t' : Table c Payload) (hinv : Inv t')
      (hstores : ∀ k', k' ≠ c.sentinel → ∀ q, Stores t' k' q ↔ Stores t k' q ∨ (k' = k ∧ q = p)) :
      Settled t k p (.value true, t')
  | thrown (what : String) (t' : Table c Payload) (v : Key) (pv : Payload) (hinv : Inv t')
      (hv : v ≠ c.sentinel) (hlost : ¬ Resident t' v)
      (hstores : ∀ k', k' ≠ c.sentinel → ∀ q,
        (Stores t' k' q ∨ (k' = v ∧ q = pv)) ↔ (Stores t k' q ∨ (k' = k ∧ q = p))) :
      Settled t k p (.thrown what, t')

theorem insert_absent {t : Table c Payload} (hinv : Inv t) {k : Key} (hk : k ≠ c.sentinel)
    (habsent : ¬ Resident t k) (p : Payload) : Settled t k p (insert c t k p) := by
  refine insert_rule hinv hk habsent p
    (fun s => ∀ k', k' ≠ c.sentinel → ∀ q,
      (Stores s.table k' q ∨ (k' = s.key ∧ q = s.payload)) ↔ (Stores t k' q ∨ (k' = k ∧ q = p)))
    (Settled t k p) (fun _ _ _ => Iff.rfl) ?_
  intro s r hs hholds hstep
  cases r with
  | again s' => exact fun k' hk' q => (hstep.holds_iff hs hk' q).trans (hholds k' hk' q)
  | leave r =>
    cases hstep with
    | place i hi hempty =>
      have hcarries := hs.carries_at hi
      rw [Hand.slot, hs.slotIndex_eq] at hempty
      rw [hs.placed_eq]
      refine .stored _ (hcarries.inv_put hs.inv fun hocc => absurd hempty hocc) fun k' hk' q => ?_
      rw [hcarries.stores_put_iff hs.inv hk' q, ← hholds k' hk' q, hempty]
      exact or_congr_left (and_iff_left hk')
    | found i hi hsame => exact absurd ⟨_, _, hsame⟩ hs.carries.absent
    | loop i hi hrich horig => exact .thrown _ _ _ _ hs.inv hs.carries.key_ne hs.carries.absent hholds
    | cycle hi hback => exact .thrown _ _ _ _ hs.inv hs.carries.key_ne hs.carries.absent hholds

/-! ### A resident key -/

omit [DecidableEq Key] in
/-- The slots a search passes on its way to a resident key outrank the searching key. -/
theorem Inv.outranks {t : Table c Payload} (hinv : Inv t) {b : Fin c.directorySize} {i₀ : Fin c.bucketSize}
    (hocc : Occupied t b i₀) {step : ℕ} {i : Fin c.bucketSize}
    (hbefore : step < (t b i₀).psl ∨ step = (t b i₀).psl ∧ i ≤ i₀) :
    Occupied t (c.bucketAt (t b i₀).key step) i ∧ step ≤ (t (c.bucketAt (t b i₀).key step) i).psl := by
  rcases hbefore with hlt | ⟨rfl, hi⟩
  · exact hinv.full b i₀ hocc step hlt i
  · rw [hinv.bucket b i₀ hocc]
    exact ⟨hinv.filled b i₀ i hi hocc, hinv.sorted b i₀ i hi hocc⟩

/-- An insert of the key in slot `i₀` of bucket `b` that has displaced nothing and is not past it. -/
structure Searching (t : Table c Payload) (b : Fin c.directorySize) (i₀ : Fin c.bucketSize)
    (s : Hand c Payload) : Prop where
  table_eq : s.table = t
  key_eq : s.key = (t b i₀).key
  slotIndex_eq : s.slotIndex = c.bucketAt (t b i₀).key s.probingStep
  origSlotIndex_eq : s.origSlotIndex = c.home (t b i₀).key
  before : s.probingStep < (t b i₀).psl ∨ s.probingStep = (t b i₀).psl ∧ s.i ≤ i₀

omit [DecidableEq Key] in
/-- A search that has passed a whole bucket is not yet at the bucket of its key. -/
theorem Searching.step_mod {t : Table c Payload} (hinv : Inv t) {b : Fin c.directorySize}
    {i₀ : Fin c.bucketSize} (hocc : Occupied t b i₀) {s : Hand c Payload} (hs : Searching t b i₀ s)
    (hi : c.bucketSize ≤ s.i) :
    s.probingStep < (t b i₀).psl ∧ (s.probingStep + 1) % 2 ^ 64 = s.probingStep + 1 := by
  have hlt : s.probingStep < (t b i₀).psl := by
    rcases hs.before with hlt | ⟨-, hle⟩
    · exact hlt
    · have := i₀.isLt
      omega
  have := (hinv.reaches b i₀ hocc).1
  exact ⟨hlt, Nat.mod_eq_of_lt (by omega)⟩

omit [DecidableEq Key] in
theorem Searching.pass {t : Table c Payload} (hinv : Inv t) {b : Fin c.directorySize} {i₀ : Fin c.bucketSize}
    (hocc : Occupied t b i₀) {s : Hand c Payload} (hs : Searching t b i₀ s) {r}
    (hstep : BodyStep (t b i₀).key s r) :
    r.Holds (Searching t b i₀) (fun r => r = (.value false, t)) := by
  have hrank : ∀ i : Fin c.bucketSize, s.i = i →
      (s.slot i).key ≠ c.sentinel ∧ s.probingStep ≤ (s.slot i).psl := by
    intro i hi
    rw [Hand.slot, hs.table_eq, hs.slotIndex_eq]
    exact hinv.outranks hocc (hs.before.imp_right fun h => ⟨h.1, by rw [Fin.le_def]; omega⟩)
  cases hstep with
  | place i hi hempty => exact absurd hempty (hrank i hi).1
  | found i hi hsame => rw [Pass.holds_leave, hs.table_eq]
  | loop i hi hrich horig => exact absurd hrich (not_lt.mpr (hrank i hi).2)
  | displace i hi _ hrich horig => exact absurd hrich (not_lt.mpr (hrank i hi).2)
  | skip i hi _ hother hpoor =>
    refine ⟨hs.table_eq, hs.key_eq, hs.slotIndex_eq, hs.origSlotIndex_eq, hs.before.imp_right fun h => ⟨h.1, ?_⟩⟩
    refine Nat.succ_le_of_lt (lt_of_le_of_ne h.2 fun he => hother ?_)
    rw [Hand.slot, hs.table_eq, hs.slotIndex_eq, h.1, hinv.bucket b i₀ hocc, hs.key_eq,
      show i = i₀ from Fin.ext (hi.symm.trans he)]
  | next hi hne =>
    obtain ⟨hlt, hmod⟩ := hs.step_mod hinv hocc hi
    rw [hmod, hs.origSlotIndex_eq]
    exact ⟨hs.table_eq, hs.key_eq, rfl, rfl, by dsimp only; omega⟩
  | cycle hi hback =>
    obtain ⟨hlt, hmod⟩ := hs.step_mod hinv hocc hi
    rw [hmod, hs.origSlotIndex_eq] at hback
    exact absurd hback ((hinv.reaches b i₀ hocc).2 _ (by omega) hlt)

/-- An insert of a resident key finds it before it displaces anything. -/
theorem insert_resident {t : Table c Payload} (hinv : Inv t) {k : Key} (hk : k ≠ c.sentinel)
    (hres : Resident t k) (p : Payload) : insert c t k p = (.value false, t) := by
  obtain ⟨b, i₀, rfl⟩ := hres
  have hstart : Searching t b i₀ (Hand.start t (t b i₀).key p) :=
    ⟨rfl, rfl, (c.probingfn.probe_zero c.directorySize_lt.le _).symm, rfl,
      by simp only [Hand.start]; omega⟩
  obtain ⟨r, hr, hpost⟩ := Loop.run_total (insertBody c (t b i₀).key) (Searching t b i₀) Hand.measure
    (fun r => r = (Outcome.value false, t))
    (fun s hs => by
      have hstep := insertBody_step (t b i₀).key s
      have hholds := hs.pass hinv hk hstep
      cases hb : insertBody c (t b i₀).key s with
      | again s' =>
        rw [hb] at hstep hholds
        have hle : s.probingStep ≤ (t b i₀).psl := by have := hs.before; omega
        exact ⟨hholds, hstep.measure_lt (lt_of_le_of_lt hle (hinv.reaches b i₀ hk).1)
          fun hi _ => (hs.step_mod hinv hk hi).2⟩
      | leave r =>
        rw [hb] at hholds
        exact hholds)
    (insertBound c) _ hstart (Hand.start_measure_lt _ _ _)
  rw [insert, if_neg hk, hr, Option.getD_some, hpost]

end

end HashingArchive.Hashtable.Robinhood
