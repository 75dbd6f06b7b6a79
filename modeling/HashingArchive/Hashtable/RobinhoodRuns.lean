import HashingArchive.Hashtable.RobinhoodInsert

/-!
# `RobinhoodProbing` is an insert-only map until it throws

Every run keeps the robin hood order, throwing inserts included (`inv_run`). A run without a throw has
the history of the abstract insert-only map (`robinhood_refines`). An insert that throws leaves one key
out, the one in hand: it is the key to insert, and the table is untouched, exactly when no slot on the
key's probe sequence has a smaller `psl` than the step it is visited at (`insert_thrown`).
-/

namespace HashingArchive.Hashtable.Robinhood

open HashingArchive.Library HashingArchive.Loop

variable {Key Hash Payload : Type} [DecidableEq Key] {c : Config Key Hash}

/-! ### Every run -/

/-- The step lemma: an operation on a key other than `Sentinel` keeps the robin hood order. -/
theorem inv_step {t : Table c Payload} (hinv : Inv t) (op : Op Key Payload)
    (hop : op.Avoids (· = c.sentinel)) : Inv ((store c).step t op).2 := by
  cases op with
  | lookup k => exact hinv
  | clear => exact inv_clear t
  | insert k p =>
    have hk : k ≠ c.sentinel := hop
    simp only [Store.step, store]
    by_cases hres : Resident t k
    · rw [insert_resident hinv hk hres p]
      exact hinv
    · cases hins : insert c t k p with
      | mk r t' =>
        have hsettled := insert_absent hinv hk hres p
        rw [hins] at hsettled
        cases hsettled with
        | stored _ hinv' _ => exact hinv'
        | thrown what _ v pv hinv' _ _ _ => exact hinv'

theorem inv_run (memory : Table c Payload) (ops : List (Op Key Payload))
    (hops : ∀ op ∈ ops, op.Avoids (· = c.sentinel)) : Inv ((store c).run (clear c memory) ops).2 :=
  Store.run_induction (·.Avoids (· = c.sentinel)) (fun _ t => Inv t) (inv_clear memory)
    (fun _ _ op hop hinv => inv_step hinv op hop) ops hops

/-- Operations on `Sentinel` change nothing, so every reachable table keeps the order. -/
theorem inv_reached (memory : Table c Payload) (ops : List (Op Key Payload)) :
    Inv ((store c).run (clear c memory) ops).2 := by
  refine Store.run_induction (fun _ => True) (fun _ t => Inv t) (inv_clear memory) ?_ ops fun _ _ => trivial
  intro _ t op _ hinv
  by_cases hop : op.Avoids (· = c.sentinel)
  · exact inv_step hinv op hop
  · cases op with
    | lookup k => exact hinv
    | clear => exact inv_clear t
    | insert k p =>
      have hk : k = c.sentinel := not_not.mp hop
      simp only [Store.step, store]
      rw [Robinhood.insert, if_pos hk]
      exact hinv

/-! ### Runs that do not throw -/

/-- The table stands for the abstract map `a`. -/
structure Represents (t : Table c Payload) (a : Key → Option Payload) : Prop where
  inv : Inv t
  stores_iff : ∀ key, key ≠ c.sentinel → ∀ payload, Stores t key payload ↔ a key = some payload

omit [DecidableEq Key] in
theorem Represents.resident_iff {t : Table c Payload} {a : Key → Option Payload} (hr : Represents t a)
    {key : Key} (hkey : key ≠ c.sentinel) : Resident t key ↔ (a key).isSome := by
  constructor
  · intro hres
    obtain ⟨p, hp⟩ := hres.stores
    rw [(hr.stores_iff key hkey p).mp hp, Option.isSome_some]
  · intro hsome
    obtain ⟨p, hp⟩ := Option.isSome_iff_exists.mp hsome
    exact ((hr.stores_iff key hkey p).mpr hp).resident

theorem Represents.lookup_eq {t : Table c Payload} {a : Key → Option Payload} (hr : Represents t a)
    {key : Key} (hkey : key ≠ c.sentinel) : lookup c t key = .value (a key) :=
  (lookup_answers hr.inv hkey).eq_value (hr.stores_iff key hkey)

omit [DecidableEq Key] in
theorem represents_clear (t : Table c Payload) : Represents (clear c t) (fun _ => none) where
  inv := inv_clear t
  stores_iff key hkey payload :=
    iff_of_false (fun hs => not_resident_clear t hkey hs.resident) (by simp)

/-- A step that does not throw is a step of the insert-only map. -/
theorem Represents.step {t : Table c Payload} {a : Key → Option Payload} (hr : Represents t a)
    (op : Op Key Payload) (hop : op.Avoids (· = c.sentinel)) (hthrow : ¬ ((store c).step t op).1.Throws) :
    ((store c).step t op).1 = (firstWriter.step a op).1 ∧
      Represents ((store c).step t op).2 (firstWriter.step a op).2 := by
  cases op with
  | lookup k =>
    have hk : k ≠ c.sentinel := hop
    refine ⟨?_, hr⟩
    simp only [Store.step, store, firstWriter]
    rw [hr.lookup_eq hk]
  | clear => exact ⟨rfl, represents_clear t⟩
  | insert k p =>
    have hk : k ≠ c.sentinel := hop
    simp only [Store.step, store, firstWriter] at hthrow ⊢
    by_cases hres : Resident t k
    · rw [insert_resident hr.inv hk hres p, if_pos ((hr.resident_iff hk).mp hres)]
      exact ⟨rfl, hr⟩
    · rw [if_neg (mt (hr.resident_iff hk).mpr hres)]
      have hnone : a k = none := by
        simpa [Option.not_isSome_iff_eq_none] using mt (hr.resident_iff hk).mpr hres
      have hsettled := insert_absent hr.inv hk hres p
      generalize insert c t k p = r at hsettled hthrow ⊢
      cases hsettled with
      | thrown what t' v pv _ _ _ _ => exact absurd (by simp) hthrow
      | stored t' hinv hstores =>
        refine ⟨rfl, hinv, fun key hkey q => ?_⟩
        rw [hstores key hkey q, hr.stores_iff key hkey q]
        dsimp only
        by_cases hkk : key = k
        · subst hkk
          simp [hnone, eq_comm]
        · rw [Function.update_of_ne hkk]
          simp [hkk]

/-- **Refinement.** A run from a fresh table that does not throw has the history of the insert-only map. -/
theorem robinhood_refines (memory : Table c Payload) (ops : List (Op Key Payload))
    (hops : ∀ op ∈ ops, op.Avoids (· = c.sentinel))
    (hthrow : ∀ e ∈ ((store c).run (clear c memory) ops).1, ¬ e.Throws) :
    ((store c).run (clear c memory) ops).1 = (firstWriter.run (fun _ => none) ops).1 ∧
      Represents ((store c).run (clear c memory) ops).2 (firstWriter.run (fun _ => none) ops).2 :=
  Store.run_refines (represents_clear memory) (fun _ _ op hop hr hthrow => hr.step op hop hthrow) ops hops hthrow

/-- **`RobinhoodProbing` refines an insert-only first-writer-wins map**, in every state a run without a
throw reaches from a fresh table. -/
theorem robinhood_first_writer_wins (c : Config Key Hash) (memory : Table c Payload)
    (ops : List (Op Key Payload)) (hops : ∀ op ∈ ops, op.Avoids (· = c.sentinel))
    (hthrow : ∀ e ∈ ((store c).run (clear c memory) ops).1, ¬ e.Throws) :
    let h := ((store c).run (clear c memory) ops).1
    let t := ((store c).run (clear c memory) ops).2
    h = (firstWriter.run (fun _ => none) ops).1 ∧
    (∀ key payload, key ≠ c.sentinel → Resident t key → insert c t key payload = (.value false, t)) ∧
    (∀ key payload, key ≠ c.sentinel → ¬ Resident t key →
      (∀ what, (insert c t key payload).1 ≠ .thrown what) →
      (insert c t key payload).1 = .value true ∧
      ∀ k q, k ≠ c.sentinel →
        (Stores (insert c t key payload).2 k q ↔ Stores t k q ∨ (k = key ∧ q = payload))) ∧
    (∀ key, key ≠ c.sentinel → Resident t key →
      ∃! slot : Fin c.directorySize × Fin c.bucketSize, (t slot.1 slot.2).key = key) ∧
    (∀ b i, (t b i).key ≠ c.sentinel → c.probingfn.probe (c.home (t b i).key) (t b i).psl = b) ∧
    ∀ key, key ≠ c.sentinel → lookup c t key = .value (firstWrite (fun _ => true) key h) := by
  intro h t
  obtain ⟨hhist, hrep⟩ := robinhood_refines memory ops hops hthrow
  have hinv : Inv t := hrep.inv
  refine ⟨hhist, fun key payload hkey hres => insert_resident hinv hkey hres payload,
    fun key payload hkey habsent hno => ?_, fun key hkey hres => ?_, fun b i hocc => hinv.bucket b i hocc,
    fun key hkey => ?_⟩
  · have hsettled := insert_absent hinv hkey habsent payload
    generalize insert c t key payload = r at hsettled hno ⊢
    cases hsettled with
    | stored t' _ hstores => exact ⟨rfl, fun k q hk => hstores k hk q⟩
    | thrown what t' v pv _ _ _ _ => exact absurd rfl (hno what)
  · obtain ⟨b, i, hbi⟩ := hres
    refine ⟨(b, i), hbi, ?_⟩
    rintro ⟨b', i'⟩ hbi'
    have hocc : Occupied t b i := by rw [Occupied, hbi]; exact hkey
    obtain ⟨rfl, rfl⟩ := hinv.unique b i b' i' hocc (hbi'.trans hbi.symm)
    rfl
  · have hlook : lookup c t key = _ := hrep.lookup_eq hkey
    rw [hlook, firstWriter_state, ← hhist]

/-- Two buckets of one slot, the keys `0`, `1`, `2` at home in the buckets `0`, `1`, `0`, and the
sentinel `3`. -/
def crossingHomes (probingfn : ProbingFn) : Config (Fin 4) (Fin 4) where
  directorySize := 2
  directorySize_lt := two_lt_two_pow
  bucketSize := 1
  hashfn := id
  reductionfn h := if h = 1 then 1 else 0
  probingfn := probingfn
  sentinel := 3

/-- A fresh table of `crossingHomes`, over memory that held other things. -/
def crossingMemory (probingfn : ProbingFn) : Table (crossingHomes probingfn) ℕ :=
  fun _ _ => { key := 2, psl := 17, payload := 9 }

/-- Three buckets of one slot, all keys at home in the first one but key `1` in the second, and the sentinel `4`. -/
def displacingHomes (probingfn : ProbingFn) : Config (Fin 5) (Fin 5) where
  directorySize := 3
  directorySize_lt := three_lt_two_pow
  bucketSize := 1
  hashfn := id
  reductionfn h := if h = 1 then 1 else 0
  probingfn := probingfn
  sentinel := 4

/-- A fresh table of `displacingHomes`, over memory that held other things. -/
def displacingMemory (probingfn : ProbingFn) : Table (displacingHomes probingfn) ℕ :=
  fun _ _ => { key := 2, psl := 17, payload := 9 }

/-- Key `2` moves on from bucket `0` and displaces key `1`, whose second insert is refused. -/
theorem robinhood_first_writer_wins_displacing :
    lookup (displacingHomes .linear) ((store (displacingHomes .linear)).run
      (clear (displacingHomes .linear) (displacingMemory .linear))
      [.insert 0 5, .insert 1 6, .insert 2 7, .insert 1 8]).2 1 = .value (some 6) :=
  ((robinhood_first_writer_wins (displacingHomes .linear) (displacingMemory .linear)
    [.insert 0 5, .insert 1 6, .insert 2 7, .insert 1 8] (by decide) (by decide)).2.2.2.2.2 1 (by decide)).trans
      (by decide)

/-! ### Inserts that throw -/

/-- How far an insert of `k` has got: it still has `k` in hand and has found nothing to displace, or it
has displaced a slot on the probe sequence of `k` and `k` is in the table. -/
inductive Progress (t : Table c Payload) (k : Key) (s : Hand c Payload) : Prop where
  | searching (htable : s.table = t) (hkey : s.key = k)
  | displacing (hres : Resident s.table k) (j : ℕ) (hreach : c.Reaches k j)
      (hrich : ¬ FullTo t (c.bucketAt k j) j)

omit [DecidableEq Key] in
theorem Progress.pass {t : Table c Payload} {k : Key} {s s' : Hand c Payload} (hs : s.Ok)
    (hp : Progress t k s) (hstep : BodyStep k s (.again s')) : Progress t k s' := by
  cases hstep with
  | skip i hi hocc hother hpoor =>
    cases hp with
    | searching htable hkey => exact .searching htable hkey
    | displacing hres j hreach hrich => exact .displacing hres j hreach hrich
  | next hi hne =>
    cases hp with
    | searching htable hkey => exact .searching htable hkey
    | displacing hres j hreach hrich => exact .displacing hres j hreach hrich
  | displace i hi hocc hrich horig =>
    cases hp with
    | searching htable hkey =>
      refine .displacing ⟨s.slotIndex, i, ?_⟩ s.probingStep (hkey ▸ hs.carries.reaches) fun hfull => ?_
      · simp only [Hand.placed, Grid.set_self, hkey]
      · have hle := (hfull i).2
        rw [Hand.slot, hs.slotIndex_eq, htable, hkey] at hrich
        omega
    | displacing hres j hreach hrich' =>
      obtain ⟨b, i', hbi⟩ := hres
      refine .displacing ⟨b, i', ?_⟩ j hreach hrich'
      have hslot : ¬ (b = s.slotIndex ∧ i' = i) := by
        rintro ⟨rfl, rfl⟩
        exact horig hbi.symm
      simp only [Hand.placed, Grid.set_of_ne hslot, hbi]

/-- What a throwing insert of an absent key leaves behind. -/
theorem insert_thrown {t : Table c Payload} (hinv : Inv t) {k : Key} (hk : k ≠ c.sentinel)
    (habsent : ¬ Resident t k) (p : Payload) {what : String} (hthrow : (insert c t k p).1 = .thrown what) :
    (insert c t k p).2 = t ↔ ∀ j, c.Reaches k j → FullTo t (c.bucketAt k j) j := by
  revert hthrow
  refine insert_rule hinv hk habsent p (Progress t k)
    (fun r => r.1 = .thrown what → (r.2 = t ↔ ∀ j, c.Reaches k j → FullTo t (c.bucketAt k j) j))
    (.searching rfl rfl) ?_
  intro s r hs hp hstep
  have hdisplaced : ∀ {t' : Table c Payload} (j : ℕ), Resident t' k → c.Reaches k j →
      ¬ FullTo t (c.bucketAt k j) j → (t' = t ↔ ∀ j, c.Reaches k j → FullTo t (c.bucketAt k j) j) := by
    intro t' j hres hreach hrich
    refine iff_of_false ?_ fun hall => hrich (hall j hreach)
    rintro rfl
    exact habsent hres
  cases r with
  | again s' => exact hp.pass hs hstep
  | leave r =>
    cases hstep with
    | place i hi hempty => exact fun h => absurd h (by simp)
    | found i hi hsame => exact fun h => absurd h (by simp)
    | loop i hi hrich horig =>
      intro _
      cases hp with
      | searching htable hkey => exact absurd ⟨_, i, by rw [← htable]; exact horig.symm⟩ habsent
      | displacing hres j hreach hrich => exact hdisplaced j hres hreach hrich
    | cycle hi hback =>
      intro _
      cases hp with
      | displacing hres j hreach hrich => exact hdisplaced j hres hreach hrich
      | searching htable hkey =>
        -- the whole probe sequence has been passed with nothing to displace
        apply iff_of_true htable
        intro j hreach i
        have hcarries := hs.carries
        rw [htable, hkey, le_antisymm hs.i_le hi] at hcarries
        have hj : j ≤ s.probingStep := by
          by_contra hlt
          have hsucc := hreach.mono (show s.probingStep + 1 ≤ j by omega)
          rw [hs.origSlotIndex_eq, hkey, Nat.mod_eq_of_lt hsucc.1] at hback
          exact hsucc.2 _ (by omega) le_rfl hback
        rcases Nat.lt_or_eq_of_le hj with hj | rfl
        · exact hcarries.full j hj i
        · exact hcarries.before i i.isLt

/-- **A throwing insert leaves one key out.** In every state a run reaches from a fresh table, throwing
inserts included: of the keys resident before and the key to insert, exactly one is not found
afterwards, the others with the payload they had; and the table is unchanged exactly when no slot on
the key's probe sequence is outranked. -/
theorem robinhood_throw_leaves_one_out (c : Config Key Hash) (memory : Table c Payload)
    (ops : List (Op Key Payload)) (hops : ∀ op ∈ ops, op.Avoids (· = c.sentinel)) (key : Key)
    (hkey : key ≠ c.sentinel) (payload : Payload) (what : String) :
    let t := ((store c).run (clear c memory) ops).2
    let t' := (insert c t key payload).2
    ¬ Resident t key → (insert c t key payload).1 = .thrown what →
    (∃ v, v ≠ c.sentinel ∧ (v = key ∨ Resident t v) ∧ lookup c t' v = .value none ∧ ¬ Resident t' v ∧
      ∀ k, k ≠ c.sentinel → k ≠ v →
        lookup c t' k = if k = key then .value (some payload) else lookup c t k) ∧
    (t' = t ↔ ∀ j, c.Reaches key j → FullTo t (c.bucketAt key j) j) := by
  intro t t' habsent hthrow
  have hinv : Inv t := inv_run memory ops hops
  refine ⟨?_, insert_thrown hinv hkey habsent payload hthrow⟩
  have hsettled := insert_absent hinv hkey habsent payload
  revert hthrow
  simp only [t']
  generalize insert c t key payload = r at hsettled ⊢
  cases hsettled with
  | stored t' _ _ => exact fun h => absurd h (by simp)
  | thrown what' t' v pv hinv' hv hlost hstores =>
    intro _
    refine ⟨v, hv, ?_, lookup_of_not_resident hinv' hv hlost, hlost, fun k hk hkv => ?_⟩
    · rcases (hstores v hv pv).mp (Or.inr ⟨rfl, rfl⟩) with hst | ⟨hvk, -⟩
      · exact Or.inr hst.resident
      · exact Or.inl hvk
    · have hst : ∀ q, Stores t' k q ↔ Stores t k q ∨ (k = key ∧ q = payload) := by
        intro q
        rw [← hstores k hk q]
        exact (or_iff_left fun h => hkv h.1).symm
      exact (lookup_answers hinv hk).after_insert (lookup_answers hinv' hk) hst

/-- With keys `0` and `1` resident, the insert of key `2` puts it into bucket `1`, key `1` into bucket
`0`, and throws with key `0` in hand. -/
theorem robinhood_throw_loses_resident :
    let t := ((store (crossingHomes .linear)).run
      (clear (crossingHomes .linear) (crossingMemory .linear)) [.insert 0 5, .insert 1 6]).2
    let r := insert (crossingHomes .linear) t 2 7
    ¬ Resident t 2 ∧ lookup (crossingHomes .linear) t 0 = .value (some 5) ∧
      r.1 = .thrown (cycleMessage (crossingHomes .linear)) ∧
      lookup (crossingHomes .linear) r.2 0 = .value none ∧ Resident r.2 2 := by
  decide

theorem robinhood_throw_leaves_one_out_crossing :
    let t := ((store (crossingHomes .linear)).run
      (clear (crossingHomes .linear) (crossingMemory .linear)) [.insert 0 5, .insert 1 6]).2
    ∃ v, v ≠ 3 ∧ (v = 2 ∨ Resident t v) ∧
      lookup (crossingHomes .linear) (insert (crossingHomes .linear) t 2 7).2 v = .value none := by
  intro t
  obtain ⟨⟨v, hv, hwas, hlook, -⟩, -⟩ := robinhood_throw_leaves_one_out (crossingHomes .linear)
    (crossingMemory .linear) [.insert 0 5, .insert 1 6] (by decide) 2 (by decide) 7
    (cycleMessage (crossingHomes .linear)) (by decide) (by decide)
  exact ⟨v, hv, hwas, hlook⟩

end HashingArchive.Hashtable.Robinhood
