import HashingArchive.Hashtable.CuckooKicking

/-!
# `Cuckoo`: one insert

What an insert does to a sound table. Whatever key it is called with, `Sentinel` included, it leaves the table
sound (`Sound.insert`). It overwrites the payload of a resident key (`insert_resident`). While an insert of an
absent key is under way, the table and the entry in hand together hold what the table held and the new key (`Out`),
whatever the kicking functor and its generator do; so one that throws leaves out the entry in hand after the last
kick (`insert_throws`). In a table that satisfies `Inv` it stores the key and loses nothing, or it throws
(`insert_absent`).
-/

namespace HashingArchive.Hashtable.Cuckoo

open HashingArchive.Library HashingArchive.Loop

variable {Key Hash1 Hash2 Payload : Type} {c : Config Key Hash1 Hash2}

/-! ### An entry in hand -/

/-- The entry `v` with `pv` is out of the table `t'`, and together they hold what `t` held and `k` with `p`. -/
structure Out (t : Table c Payload) (k : Key) (p : Payload) (t' : Table c Payload) (v : Key) (pv : Payload) :
    Prop where
  sound : Sound t'.buckets
  key_ne : v ≠ c.sentinel
  absent : ¬ Resident t'.buckets v
  stores_iff : ∀ key, key ≠ c.sentinel → ∀ q,
    (Stores t'.buckets key q ∨ (key = v ∧ q = pv)) ↔ (Stores t.buckets key q ∨ (key = k ∧ q = p))

section
variable {t t' : Table c Payload} {k v : Key} {p pv : Payload}

/-- The entry that is out takes the slot of another. -/
theorem Out.kick (hout : Out t k p t' v pv) {b : Fin c.directorySize} {i : Fin c.bucketSize}
    (hcandidate : b = c.i1 v ∨ b = c.i2 v) (hocc : Occupied t'.buckets b i) (draws : ℕ) :
    Out t k p { buckets := take t'.buckets v b i pv, draws := draws } (t'.buckets b i).key
      (t'.buckets b i).payload where
  sound := hout.sound.take hcandidate fun _ => hout.absent
  key_ne := hocc
  absent := hout.sound.not_resident_take hocc fun _ => hout.absent
  stores_iff key hkey q := by
    rw [← hout.stores_iff key hkey q, ← stores_take_iff t'.buckets v b i pv key q]
    simp only [eq_comm]

/-- The entry that is out takes an empty slot: nothing is out any more. -/
theorem Out.stores_take (hout : Out t k p t' v pv) {b : Fin c.directorySize} {i : Fin c.bucketSize}
    (hempty : ¬ Occupied t'.buckets b i) {key : Key} (hkey : key ≠ c.sentinel) (q : Payload) :
    Stores (take t'.buckets v b i pv) key q ↔ Stores t.buckets key q ∨ (key = k ∧ q = p) := by
  have hold : ¬ ((t'.buckets b i).key = key ∧ (t'.buckets b i).payload = q) :=
    fun h => hempty (by rw [Occupied, h.1]; exact hkey)
  rw [← hout.stores_iff key hkey q, ← stores_take_iff t'.buckets v b i pv key q]
  exact (or_iff_left hold).symm

theorem out_start (hsound : Sound t.buckets) (hk : k ≠ c.sentinel) (habsent : ¬ Resident t.buckets k)
    (p : Payload) : Out t k p t k p :=
  ⟨hsound, hk, habsent, fun _ _ _ => Iff.rfl⟩

end

variable [DecidableEq Key]

/-! ### The kicking functors -/

section
variable {g : Buckets c Payload} {b : Fin c.directorySize}

theorem count_eq_card (g : Buckets c Payload) (b : Fin c.directorySize) :
    count c g b = (Finset.univ.filter fun i => (g b i).key ≠ c.sentinel).card := by
  rw [Finset.card_filter, count]
  apply Finset.sum_congr rfl
  intro i _
  simp only [ne_eq, ite_not]

theorem occupied_of_le_count (h : c.bucketSize ≤ count c g b) (i : Fin c.bucketSize) : Occupied g b i := by
  by_contra hempty
  have hlt : count c g b < (Finset.univ : Finset (Fin c.bucketSize)).card := by
    rw [count_eq_card]
    exact Finset.card_lt_card (Finset.filter_ssubset.mpr ⟨i, Finset.mem_univ i, hempty⟩)
  rw [Finset.card_fin] at hlt
  omega

/-- In a bucket filled from the front the occupied slots are those before the count. -/
theorem occupied_iff_lt_count (hfilled : ∀ i i', i' ≤ i → Occupied g b i → Occupied g b i') (i : Fin c.bucketSize) :
    Occupied g b i ↔ (i : ℕ) < count c g b := by
  rw [count_eq_card]
  constructor
  · intro hocc
    have hsub : Finset.Iic i ⊆ Finset.univ.filter fun i => (g b i).key ≠ c.sentinel := by
      intro i' hi'
      exact Finset.mem_filter.mpr ⟨Finset.mem_univ i', hfilled i i' (Finset.mem_Iic.mp hi') hocc⟩
    have hcard := Finset.card_le_card hsub
    rw [Fin.card_Iic] at hcard
    omega
  · intro hlt
    by_contra hempty
    have hsub : (Finset.univ.filter fun i => (g b i).key ≠ c.sentinel) ⊆ Finset.Iio i := by
      intro i' hi'
      rw [Finset.mem_Iio]
      by_contra hge
      exact hempty (hfilled i' i (not_lt.mp hge) (Finset.mem_filter.mp hi').2)
    have hcard := Finset.card_le_card hsub
    rw [Fin.card_Iio] at hcard
    omega

end

/-- What a kicking functor does: the key takes the slot that a candidate bucket has at its count, or the slot of a
key it kicks out of a full one. -/
inductive Kicked (t : Table c Payload) (key : Key) (payload : Payload) :
    Option (Key × Payload) × Table c Payload → Prop where
  | placed (b : Fin c.directorySize) (i : Fin c.bucketSize) (draws : ℕ) (hcandidate : b = c.i1 key ∨ b = c.i2 key)
      (hcount : (i : ℕ) = count c t.buckets b) :
      Kicked t key payload (none, { buckets := take t.buckets key b i payload, draws := draws })
  | kicked (b : Fin c.directorySize) (i : Fin c.bucketSize) (draws : ℕ) (hcandidate : b = c.i1 key ∨ b = c.i2 key)
      (hfull : ∀ i', Occupied t.buckets b i') :
      Kicked t key payload (some ((t.buckets b i).key, (t.buckets b i).payload),
        { buckets := take t.buckets key b i payload, draws := draws })

theorem kick_kicked {prefers : ℕ → ℕ → Bool} (fromFirst : BitVec 32 → Bool)
    (hprefers : ∀ c1 c2, prefers c1 c2 = false → c2 ≤ c1) (t : Table c Payload) (key : Key) (payload : Payload) :
    Kicked t key payload (kick c prefers fromFirst t (c.i1 key) (c.i2 key) key payload) := by
  by_cases h1 : prefers (count c t.buckets (c.i1 key)) (count c t.buckets (c.i2 key)) = true ∧
      count c t.buckets (c.i1 key) < c.bucketSize
  · unfold kick
    dsimp only
    rw [dif_pos h1]
    exact .placed (c.i1 key) ⟨_, h1.2⟩ t.draws (Or.inl rfl) rfl
  by_cases h2 : count c t.buckets (c.i2 key) < c.bucketSize
  · unfold kick
    dsimp only
    rw [dif_neg h1, dif_pos h2]
    exact .placed (c.i2 key) ⟨_, h2⟩ t.draws (Or.inr rfl) rfl
  -- both buckets are full: where `b1` is not preferred its count is no smaller than that of `b2`
  have hfull : ∀ b, b = c.i1 key ∨ b = c.i2 key → ∀ i, Occupied t.buckets b i := by
    intro b hb
    apply occupied_of_le_count
    rcases hb with rfl | rfl
    · cases hp : prefers (count c t.buckets (c.i1 key)) (count c t.buckets (c.i2 key)) with
      | true => have := not_and.mp h1 hp; omega
      | false => have := hprefers _ _ hp; omega
    · omega
  rw [kick_of_full prefers fromFirst (hfull _ (Or.inl rfl)) (hfull _ (Or.inr rfl))]
  have hcandidate := victim_fst fromFirst (c.i1 key) (c.i2 key) (c.rand_ t.draws)
  exact .kicked _ _ (t.draws + 1) hcandidate (hfull _ hcandidate)

theorem kickingfn_kicked (t : Table c Payload) (key : Key) (payload : Payload) :
    Kicked t key payload (kickingfn c t (c.i1 key) (c.i2 key) key payload) := by
  unfold kickingfn
  cases c.kickingfn with
  | BalancedKicking =>
    refine kick_kicked _ (fun c1 c2 h => ?_) t key payload
    rw [decide_eq_false_iff_not] at h
    omega
  | BiasedKicking threshold_ => exact kick_kicked _ (fun c1 c2 h => absurd h (by simp)) t key payload

/-! ### The update loop -/

theorem findSlot_eq_some {g : Buckets c Payload} {key : Key} {b : Fin c.directorySize} {i : Fin c.bucketSize}
    (h : findSlot c g key = some (b, i)) : (g b i).key = key := by
  obtain ⟨i', -, hi'⟩ := List.exists_of_findSome?_eq_some h
  split_ifs at hi' with h1 h2
  · cases hi'
    exact h1
  · cases hi'
    exact h2

theorem findSlot_eq_none_iff {g : Buckets c Payload} {key : Key} :
    findSlot c g key = none ↔ ∀ i, (g (c.i1 key) i).key ≠ key ∧ (g (c.i2 key) i).key ≠ key := by
  rw [findSlot, List.findSome?_eq_none_iff]
  constructor
  · intro h i
    have hi := h i (List.mem_finRange i)
    split_ifs at hi with h1 h2
    exact ⟨h1, h2⟩
  · intro h i _
    rw [if_neg (h i).1, if_neg (h i).2]

/-- The update loop finds every resident key. -/
theorem Sound.findSlot_eq_none {g : Buckets c Payload} (hsound : Sound g) {key : Key} (hkey : key ≠ c.sentinel) :
    findSlot c g key = none ↔ ¬ Resident g key := by
  rw [findSlot_eq_none_iff]
  constructor
  · intro h ⟨b, i, hbi⟩
    rcases hsound.candidate b i (by rw [Occupied, hbi]; exact hkey) with hb | hb
    · rw [hbi] at hb
      exact (h i).1 (hb ▸ hbi)
    · rw [hbi] at hb
      exact (h i).2 (hb ▸ hbi)
  · exact fun h i => ⟨fun h1 => h ⟨_, i, h1⟩, fun h2 => h ⟨_, i, h2⟩⟩

/-! ### One pass -/

/-- What one pass does. -/
inductive Passed (s : Hand c Payload) : Pass (Hand c Payload) (Outcome Unit × Table c Payload) → Prop where
  | thrown : Passed s (.leave (.thrown cycleMessage, s.table))
  | found (b : Fin c.directorySize) (i : Fin c.bucketSize) (hkey : (s.table.buckets b i).key = s.key) :
      Passed s (.leave (.value (), { s.table with buckets := take s.table.buckets s.key b i s.payload }))
  | placed (b : Fin c.directorySize) (i : Fin c.bucketSize) (draws : ℕ)
      (hfind : findSlot c s.table.buckets s.key = none) (hcandidate : b = c.i1 s.key ∨ b = c.i2 s.key)
      (hcount : (i : ℕ) = count c s.table.buckets b) :
      Passed s (.leave (.value (), { buckets := take s.table.buckets s.key b i s.payload, draws := draws }))
  | kicked (b : Fin c.directorySize) (i : Fin c.bucketSize) (draws : ℕ) (hle : s.kickCount ≤ MaxKickCycleLength)
      (hfind : findSlot c s.table.buckets s.key = none) (hcandidate : b = c.i1 s.key ∨ b = c.i2 s.key)
      (hfull : ∀ i', Occupied s.table.buckets b i') :
      Passed s (.again
        { table := { buckets := take s.table.buckets s.key b i s.payload, draws := draws }
          key := (s.table.buckets b i).key
          payload := (s.table.buckets b i).payload
          kickCount := s.kickCount + 1 })

theorem insertBody_passed (s : Hand c Payload) : Passed s (insertBody c s) := by
  unfold insertBody
  split_ifs with hcount
  · exact .thrown
  cases hfind : findSlot c s.table.buckets s.key with
  | some slot =>
    have hkey := findSlot_eq_some hfind
    dsimp only
    rw [hkey]
    exact .found slot.1 slot.2 hkey
  | none =>
    have hkicked := kickingfn_kicked s.table s.key s.payload
    dsimp only
    generalize kickingfn c s.table (c.i1 s.key) (c.i2 s.key) s.key s.payload = r at hkicked
    cases hkicked with
    | placed b i draws hcandidate hcount => exact .placed b i draws hfind hcandidate hcount
    | kicked b i draws hcandidate hfull => exact .kicked b i draws (not_lt.mp hcount) hfind hcandidate hfull

/-- **The loop ends**, with what an invariant that every pass keeps gives on leaving. -/
theorem run_of_pass {P : Hand c Payload → Prop} {Q : Outcome Unit × Table c Payload → Prop}
    (hpass : ∀ s, P s → (insertBody c s).Holds P Q) {s : Hand c Payload} (hs : P s) {n : ℕ}
    (hn : MaxKickCycleLength + 1 - s.kickCount < n) : ∃ r, Loop.run (insertBody c) n s = some r ∧ Q r := by
  refine Loop.run_total (insertBody c) P (fun s => MaxKickCycleLength + 1 - s.kickCount) Q (fun s hs => ?_) n s hs hn
  have hholds := hpass s hs
  have hpassed := insertBody_passed s
  generalize insertBody c s = x at hholds hpassed ⊢
  cases hpassed with
  | thrown => exact hholds
  | found b i _ => exact hholds
  | placed b i draws _ _ _ => exact hholds
  | kicked b i draws hle _ _ _ => exact ⟨hholds, by dsimp only; omega⟩

theorem insert_of_pass {P : Hand c Payload → Prop} {Q : Outcome Unit × Table c Payload → Prop}
    (hpass : ∀ s, P s → (insertBody c s).Holds P Q) {t : Table c Payload} {k : Key} {p : Payload}
    (hstart : P { table := t, key := k, payload := p, kickCount := 0 }) : Q (insert c t k p) := by
  obtain ⟨r, hr, hQ⟩ := run_of_pass hpass hstart (Nat.lt_succ_self (MaxKickCycleLength + 1))
  rw [insert, hr]
  exact hQ

theorem Sound.pass {s : Hand c Payload} (hsound : Sound s.table.buckets) :
    (insertBody c s).Holds (fun s' => Sound s'.table.buckets) (fun r => Sound r.2.buckets) := by
  have hpassed := insertBody_passed s
  generalize insertBody c s = x at hpassed
  cases hpassed with
  | thrown => exact hsound
  | found b i hkey => exact hsound.overwrite hkey
  | placed b i draws hfind hcandidate hcount =>
    exact hsound.take hcandidate fun hkey => (hsound.findSlot_eq_none hkey).mp hfind
  | kicked b i draws hle hfind hcandidate hfull =>
    exact hsound.take hcandidate fun hkey => (hsound.findSlot_eq_none hkey).mp hfind

/-- **Every insert leaves the table sound**, also one of `Sentinel` and one that throws. -/
theorem Sound.insert {t : Table c Payload} (hsound : Sound t.buckets) (k : Key) (p : Payload) :
    Sound (Cuckoo.insert c t k p).2.buckets :=
  insert_of_pass (P := fun s => Sound s.table.buckets) (Q := fun r => Sound r.2.buckets)
    (fun _ hs => Sound.pass hs) hsound

/-! ### Inserting a resident key -/

/-- An insert that finds the key, or room for it, in one of its buckets writes that slot and nothing else. -/
theorem insert_of_findSlot {t : Table c Payload} {k : Key} {b : Fin c.directorySize} {i : Fin c.bucketSize}
    (hfind : findSlot c t.buckets k = some (b, i)) (p : Payload) :
    insert c t k p = (.value (), { t with buckets := take t.buckets k b i p }) := by
  have hbody : insertBody c { table := t, key := k, payload := p, kickCount := 0 } =
      .leave (.value (), { t with buckets := take t.buckets k b i p }) := by
    unfold insertBody
    rw [if_neg (Nat.not_lt_zero _)]
    simp only [hfind, take, findSlot_eq_some hfind]
  rw [insert, Loop.run_leave hbody, Option.getD_some]

/-- An insert of a resident key overwrites its payload and nothing else. -/
theorem insert_resident {t : Table c Payload} (hsound : Sound t.buckets) {k : Key} (hk : k ≠ c.sentinel)
    (hres : Resident t.buckets k) (p : Payload) :
    ∃ b i, (t.buckets b i).key = k ∧
      insert c t k p = (.value (), { t with buckets := take t.buckets k b i p }) := by
  cases hfind : findSlot c t.buckets k with
  | none => exact absurd hres ((hsound.findSlot_eq_none hk).mp hfind)
  | some slot => exact ⟨slot.1, slot.2, findSlot_eq_some hfind, insert_of_findSlot hfind p⟩

theorem Sound.stores_overwrite {g : Buckets c Payload} (hsound : Sound g) {k : Key} (hk : k ≠ c.sentinel)
    {b : Fin c.directorySize} {i : Fin c.bucketSize} (hkey : (g b i).key = k) (p : Payload) (key : Key)
    (q : Payload) :
    Stores (Cuckoo.take g k b i p) key q ↔ if key = k then q = p else Stores g key q := by
  have hself : Stores (Cuckoo.take g k b i p) k p := ⟨b, i, take_self⟩
  split_ifs with hkk
  · subst hkk
    exact ⟨fun h => (hsound.overwrite hkey).stores_unique hk h hself, fun h => h ▸ hself⟩
  · have htake := stores_take_iff g k b i p key q
    rw [hkey] at htake
    simpa [hkk, Ne.symm hkk, eq_comm] using htake

/-! ### Inserting an absent key -/

section
variable {t : Table c Payload} {k : Key} {p : Payload}

/-- How an insert of an absent key ends in a table whose buckets fill from the front. -/
inductive Settled (t : Table c Payload) (k : Key) (p : Payload) : Outcome Unit × Table c Payload → Prop where
  | stored (t' : Table c Payload) (hinv : Inv t'.buckets)
      (hstores : ∀ key, key ≠ c.sentinel → ∀ q,
        (Stores t'.buckets key q ↔ Stores t.buckets key q ∨ (key = k ∧ q = p))) :
      Settled t k p (.value (), t')
  | thrown (t' : Table c Payload) (v : Key) (pv : Payload) (hinv : Inv t'.buckets) (hout : Out t k p t' v pv) :
      Settled t k p (.thrown cycleMessage, t')

/-- A pass that does not store the entry in hand leaves another one out. -/
theorem Out.pass {s : Hand c Payload} (hout : Out t k p s.table s.key s.payload) :
    (insertBody c s).Holds (fun s' => Out t k p s'.table s'.key s'.payload)
      (fun r => ∀ what, r.1 = .thrown what → ∃ v pv, Out t k p r.2 v pv) := by
  have hpassed := insertBody_passed s
  generalize insertBody c s = x at hpassed
  cases hpassed with
  | thrown => exact fun _ _ => ⟨s.key, s.payload, hout⟩
  | found b i hkey => exact absurd ⟨b, i, hkey⟩ hout.absent
  | placed b i draws hfind hcandidate hcount => exact fun _ hthrow => absurd hthrow (by simp)
  | kicked b i draws hle hfind hcandidate hfull => exact hout.kick hcandidate (hfull i) draws

/-- With the buckets filled from the front the pass that stores it writes over nothing. -/
theorem Out.pass_settled {s : Hand c Payload}
    (hs : Inv s.table.buckets ∧ Out t k p s.table s.key s.payload) :
    (insertBody c s).Holds (fun s' => Inv s'.table.buckets ∧ Out t k p s'.table s'.key s'.payload)
      (Settled t k p) := by
  obtain ⟨hinv, hout⟩ := hs
  have hpassed := insertBody_passed s
  generalize insertBody c s = x at hpassed
  cases hpassed with
  | thrown => exact .thrown s.table s.key s.payload hinv hout
  | found b i hkey => exact absurd ⟨b, i, hkey⟩ hout.absent
  | placed b i draws hfind hcandidate hcount =>
    have hocc := occupied_iff_lt_count (hinv.filled b)
    have htakes : Takes s.table.buckets s.key b i := ⟨hcandidate, fun i' hi' => (hocc i').mpr (hcount ▸ hi')⟩
    have hempty : ¬ Occupied s.table.buckets b i := fun h => absurd ((hocc i).mp h) (by omega)
    exact .stored _ (htakes.inv hinv hout.key_ne hout.absent) fun _ hkey q => hout.stores_take hempty hkey q
  | kicked b i draws hle hfind hcandidate hfull =>
    have htakes : Takes s.table.buckets s.key b i := ⟨hcandidate, fun i' _ => hfull i'⟩
    exact ⟨htakes.inv hinv hout.key_ne hout.absent, hout.kick hcandidate (hfull i) draws⟩

theorem insert_absent (hinv : Inv t.buckets) (hk : k ≠ c.sentinel) (habsent : ¬ Resident t.buckets k)
    (p : Payload) : Settled t k p (insert c t k p) :=
  insert_of_pass (P := fun s => Inv s.table.buckets ∧ Out t k p s.table s.key s.payload)
    (fun _ hs => Out.pass_settled hs) ⟨hinv, out_start hinv.toSound hk habsent p⟩

/-- An insert that throws was of an absent key, and leaves one entry out. -/
theorem insert_throws (hsound : Sound t.buckets) (hk : k ≠ c.sentinel) {what : String}
    (hthrow : (insert c t k p).1 = .thrown what) :
    ¬ Resident t.buckets k ∧ ∃ v pv, Out t k p (insert c t k p).2 v pv := by
  have habsent : ¬ Resident t.buckets k := by
    intro hres
    obtain ⟨b, i, -, hins⟩ := insert_resident hsound hk hres p
    rw [hins] at hthrow
    exact absurd hthrow (by simp)
  have hout := insert_of_pass (P := fun s => Out t k p s.table s.key s.payload)
    (Q := fun r => ∀ what, r.1 = .thrown what → ∃ v pv, Out t k p r.2 v pv) (fun _ hs => Out.pass hs)
    (out_start hsound hk habsent p)
  exact ⟨habsent, hout what hthrow⟩

end

/-! ### Lookup -/

theorem lookupBucket_eq_some {g : Buckets c Payload} {b : Fin c.directorySize} {key : Key} {payload : Payload}
    (h : lookupBucket c g b key = some payload) : ∃ i, g b i = { key := key, payload := payload } := by
  obtain ⟨i, -, hi⟩ := List.exists_of_findSome?_eq_some h
  split_ifs at hi with hkey
  cases hi
  exact ⟨i, congrArg (Slot.mk · _) hkey⟩

theorem lookupBucket_eq_none {g : Buckets c Payload} {b : Fin c.directorySize} {key : Key}
    (h : lookupBucket c g b key = none) (i : Fin c.bucketSize) : (g b i).key ≠ key := by
  intro hkey
  rw [lookupBucket, List.findSome?_eq_none_iff] at h
  have hi := h i (List.mem_finRange i)
  rw [if_pos hkey] at hi
  exact absurd hi (by simp)

theorem lookup_of_not_resident {t : Table c Payload} {key : Key} (h : ¬ Resident t.buckets key) :
    lookup c t key = .value none := by
  have hnone : ∀ b, lookupBucket c t.buckets b key = none := by
    intro b
    cases hb : lookupBucket c t.buckets b key with
    | none => rfl
    | some payload =>
      obtain ⟨i, hi⟩ := lookupBucket_eq_some hb
      exact absurd ⟨b, i, by rw [hi]⟩ h
  simp only [lookup, hnone]

theorem lookup_of_stores {t : Table c Payload} (hsound : Sound t.buckets) {key : Key} (hkey : key ≠ c.sentinel)
    {payload : Payload} (h : Stores t.buckets key payload) : lookup c t key = .value (some payload) := by
  have hsome : ∀ {b q}, lookupBucket c t.buckets b key = some q → q = payload := by
    intro b q hb
    obtain ⟨i, hi⟩ := lookupBucket_eq_some hb
    exact hsound.stores_unique hkey ⟨b, i, hi⟩ h
  unfold lookup
  cases h1 : lookupBucket c t.buckets (c.i1 key) key with
  | some q => rw [hsome h1]
  | none =>
    cases h2 : lookupBucket c t.buckets (c.i2 key) key with
    | some q => rw [hsome h2]
    | none =>
      obtain ⟨b, i, hbi⟩ := h
      have hbkey : (t.buckets b i).key = key := by rw [hbi]
      have hcand := hsound.candidate b i (by rw [Occupied, hbkey]; exact hkey)
      rw [hbkey] at hcand
      rcases hcand with rfl | rfl
      · exact absurd hbkey (lookupBucket_eq_none h1 i)
      · exact absurd hbkey (lookupBucket_eq_none h2 i)

theorem lookup_answers {t : Table c Payload} (hsound : Sound t.buckets) {key : Key} (hkey : key ≠ c.sentinel) :
    Answers (Stores t.buckets key) (lookup c t key) where
  stored _ h := lookup_of_stores hsound hkey h
  absent h := lookup_of_not_resident fun hres => hres.stores.elim h

end HashingArchive.Hashtable.Cuckoo
