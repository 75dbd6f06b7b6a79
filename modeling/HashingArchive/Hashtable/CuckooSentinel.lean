import HashingArchive.Hashtable.CuckooRuns

/-!
# Inserting `Sentinel` into `Cuckoo`

`insert` does not refuse the key `Sentinel`. While a candidate bucket of it has an empty slot the insert writes a
payload nobody reads. With both buckets full it stores `Sentinel` like a key in the place of the one it kicks out,
and the bucket has a hole. A hole at the end of the bucket is the empty slot the kicked key leaves behind
(`insert_sentinel`); a hole before the end makes the kicking functors, which count the occupied slots, write over
the last key of the bucket (`cuckoo_sentinel_loses_key`).
-/

namespace HashingArchive.Hashtable.Cuckoo

open HashingArchive.Library HashingArchive.Loop

variable {Key Hash1 Hash2 Payload : Type} {c : Config Key Hash1 Hash2}

/-- A candidate bucket of `Sentinel` has an empty slot, or the slot that the next number drawn picks is the last
one of its bucket. -/
def SentinelSafe (t : Table c Payload) : Prop :=
  (∃ i, ¬ Occupied t.buckets (c.i1 c.sentinel) i ∨ ¬ Occupied t.buckets (c.i2 c.sentinel) i) ∨
    (c.rand_ t.draws).toNat % c.bucketSize + 1 = c.bucketSize

/-! ### A hole at the end of a bucket -/

section
variable {g : Buckets c Payload} {b : Fin c.directorySize} {i : Fin c.bucketSize} {payload : Payload}

theorem occupied_take_sentinel_iff (b' : Fin c.directorySize) (i' : Fin c.bucketSize) :
    Occupied (take g c.sentinel b i payload) b' i' ↔ Occupied g b' i' ∧ ¬ (b' = b ∧ i' = i) := by
  by_cases hslot : b' = b ∧ i' = i
  · obtain ⟨rfl, rfl⟩ := hslot
    simp [Occupied]
  · simp only [Occupied, take_of_ne hslot, hslot, not_false_eq_true, and_true]

/-- Emptying the last slot of a candidate bucket keeps the invariant. -/
theorem Inv.take_sentinel (hinv : Inv g) (hcandidate : b = c.i1 c.sentinel ∨ b = c.i2 c.sentinel)
    (hlast : (i : ℕ) + 1 = c.bucketSize) : Inv (take g c.sentinel b i payload) := by
  refine ⟨hinv.toSound.take hcandidate fun hne => absurd rfl hne, fun b' i₁ i₂ hle h₁ => ?_⟩
  obtain ⟨hold, hslot⟩ := (occupied_take_sentinel_iff b' i₁).mp h₁
  refine (occupied_take_sentinel_iff b' i₂).mpr ⟨hinv.filled b' i₁ i₂ hle hold, ?_⟩
  rintro ⟨rfl, rfl⟩
  exact hslot ⟨rfl, Fin.ext (by have := i₁.isLt; rw [Fin.le_def] at hle; omega)⟩

end

variable [DecidableEq Key]

/-- An insert of `Sentinel` that finds an empty slot writes its payload there. -/
theorem insert_sentinel_found {t : Table c Payload} (hinv : Inv t.buckets) {b : Fin c.directorySize}
    {i : Fin c.bucketSize} (hfind : findSlot c t.buckets c.sentinel = some (b, i)) (p : Payload) :
    Settled t c.sentinel p (insert c t c.sentinel p) := by
  have hempty := findSlot_eq_some hfind
  rw [insert_of_findSlot hfind]
  refine .stored _ (hinv.overwrite hempty) fun key hkey q => ?_
  have hold : ¬ ((t.buckets b i).key = key ∧ (t.buckets b i).payload = q) :=
    fun h => hkey (h.1.symm.trans hempty)
  rw [← stores_take_iff t.buckets c.sentinel b i p key q]
  exact (or_iff_left hold).symm

/-- One that finds none kicks the last slot of a bucket, and goes on with that key. -/
theorem insert_sentinel_kicks {t : Table c Payload} (hinv : Inv t.buckets)
    (hfind : findSlot c t.buckets c.sentinel = none)
    (hdraw : (c.rand_ t.draws).toNat % c.bucketSize + 1 = c.bucketSize) (p : Payload) :
    Settled t c.sentinel p (insert c t c.sentinel p) := by
  have hfull := findSlot_eq_none_iff.mp hfind
  obtain ⟨b, i, hb, hi, hkick⟩ := kickingfn_of_full (fun i => (hfull i).1) (fun i => (hfull i).2) c.sentinel p
  have hocc : Occupied t.buckets b i := by
    rcases hb with rfl | rfl
    · exact (hfull i).1
    · exact (hfull i).2
  let s : Hand c Payload :=
    { table := { buckets := take t.buckets c.sentinel b i p, draws := t.draws + 1 }
      key := (t.buckets b i).key
      payload := (t.buckets b i).payload
      kickCount := 1 }
  have hbody : insertBody c { table := t, key := c.sentinel, payload := p, kickCount := 0 } = .again s := by
    unfold insertBody
    rw [if_neg (Nat.not_lt_zero _)]
    simp only [hfind, hkick, Table.evict, s]
  have hout : Out t c.sentinel p s.table s.key s.payload := by
    refine ⟨hinv.toSound.take hb fun hne => absurd rfl hne, hocc,
      hinv.toSound.not_resident_take hocc fun hne => absurd rfl hne, fun key hkey q => ?_⟩
    rw [← stores_take_iff t.buckets c.sentinel b i p key q]
    simp only [s, eq_comm]
  obtain ⟨r, hr, hsettled⟩ := run_of_pass (n := MaxKickCycleLength + 1) (fun _ hs => Out.pass_settled hs)
    ⟨hinv.take_sentinel hb (hi ▸ hdraw), hout⟩ (by dsimp only [s]; omega)
  rwa [insert, Loop.run_again hbody, hr]

/-- **An insert of `Sentinel` that is safe** changes nothing but where other keys are. -/
theorem insert_sentinel {t : Table c Payload} (hinv : Inv t.buckets) (hsafe : SentinelSafe t) (p : Payload) :
    Settled t c.sentinel p (insert c t c.sentinel p) := by
  cases hfind : findSlot c t.buckets c.sentinel with
  | some slot => exact insert_sentinel_found hinv hfind p
  | none =>
    rcases hsafe with ⟨i, hempty⟩ | hdraw
    · exact absurd hempty (by rw [not_or, not_not, not_not]; exact findSlot_eq_none_iff.mp hfind i)
    · exact insert_sentinel_kicks hinv hfind hdraw p

/-! ### Runs -/

/-- The table is sound, and stores what its history says was written last. -/
structure Holds (h : History Key Payload Unit) (t : Table c Payload) : Prop where
  inv : Inv t.buckets
  stores_iff : ∀ key, key ≠ c.sentinel → ∀ payload,
    Stores t.buckets key payload ↔ lastWrite key h = some payload

theorem Holds.lookup_eq {h : History Key Payload Unit} {t : Table c Payload} (hh : Holds h t) {key : Key}
    (hkey : key ≠ c.sentinel) : lookup c t key = .value (lastWrite key h) :=
  (lookup_answers hh.inv.toSound hkey).eq_value (hh.stores_iff key hkey)

theorem holds_fresh (memory : Buckets c Payload) : Holds [] (fresh c memory) where
  inv := inv_clear _
  stores_iff key hkey payload := iff_of_false (fun hs => not_resident_clear _ hkey hs.resident) (by simp [lastWrite])

/-- What a settled insert does to the history: `k` is written last, unless it is `Sentinel`. -/
theorem Holds.insert {h : History Key Payload Unit} {t : Table c Payload} (hh : Holds h t) {k : Key} {p : Payload}
    {r : Outcome Unit × Table c Payload} (hnone : ∀ q, ¬ Stores t.buckets k q ∨ k = c.sentinel)
    (hsettled : Settled t k p r) (hthrow : ¬ (Event.insert k p r.1).Throws) : Holds (.insert k p r.1 :: h) r.2 := by
  cases hsettled with
  | thrown t' v pv _ _ => exact absurd (by simp) hthrow
  | stored t' hinv hstores =>
    refine ⟨hinv, fun key hkey q => ?_⟩
    rw [hstores key hkey q, lastWrite]
    split_ifs with hkk
    · subst hkk
      rcases hnone q with hn | hsent
      · simp [hn, eq_comm]
      · exact absurd hsent hkey
    · rw [hh.stores_iff key hkey q]
      simp [Ne.symm hkk]

/-- The step lemma: a step that does not throw and, with `Sentinel`, is safe. -/
theorem Holds.step {h : History Key Payload Unit} {t : Table c Payload} (hh : Holds h t) (op : Op Key Payload)
    (hthrow : ¬ ((store c).step t op).1.Throws) (hsafe : ∀ p, op = .insert c.sentinel p → SentinelSafe t) :
    Holds (((store c).step t op).1 :: h) ((store c).step t op).2 := by
  cases op with
  | lookup k => exact ⟨hh.inv, hh.stores_iff⟩
  | clear => exact ⟨inv_clear t, (holds_fresh t.buckets).stores_iff⟩
  | insert k p =>
    simp only [Store.step, store] at hthrow ⊢
    by_cases hk : k = c.sentinel
    · subst hk
      exact hh.insert (fun _ => Or.inr rfl) (insert_sentinel hh.inv (hsafe p rfl) p) hthrow
    by_cases hres : Resident t.buckets k
    · obtain ⟨b, i, hkey, hins⟩ := insert_resident hh.inv.toSound hk hres p
      rw [hins]
      refine ⟨hh.inv.overwrite hkey, fun key hne q => ?_⟩
      rw [hh.inv.toSound.stores_overwrite hk hkey p key q, lastWrite]
      by_cases hkk : k = key
      · subst hkk
        simp [eq_comm]
      · rw [if_neg (Ne.symm hkk), if_neg hkk, hh.stores_iff key hne q]
    · exact hh.insert (fun _ => Or.inl fun hs => hres hs.resident) (insert_absent hh.inv hk hres p) hthrow

/-- The run lemma. -/
theorem holds_run (memory : Buckets c Payload) (ops : List (Op Key Payload))
    (hthrow : ∀ e ∈ ((store c).run (fresh c memory) ops).1, ¬ e.Throws)
    (hsafe : ∀ ops₁ payload, ops₁ ++ [.insert c.sentinel payload] <+: ops →
      SentinelSafe ((store c).run (fresh c memory) ops₁).2) :
    Holds ((store c).run (fresh c memory) ops).1 ((store c).run (fresh c memory) ops).2 := by
  induction ops using List.reverseRecOn with
  | nil => exact holds_fresh memory
  | append_singleton ops op ih =>
    rw [Store.run_concat] at hthrow ⊢
    have hh := ih (fun e he => hthrow e (List.mem_cons_of_mem _ he))
      fun ops₁ payload hpre => hsafe ops₁ payload (hpre.trans (List.prefix_append _ _))
    refine hh.step op (hthrow _ List.mem_cons_self) fun payload hop => hsafe ops payload ?_
    rw [hop]

/-- **Runs with safe inserts of `Sentinel`.** In every state of a run from a fresh table in which no insert throws
and every insert of `Sentinel` is safe, a lookup of any other key answers with the last writer. -/
theorem cuckoo_sentinel_safe (c : Config Key Hash1 Hash2) (memory : Buckets c Payload) (ops : List (Op Key Payload))
    (hthrow : ∀ e ∈ ((store c).run (fresh c memory) ops).1, ¬ e.Throws)
    (hsafe : ∀ ops₁ payload, ops₁ ++ [.insert c.sentinel payload] <+: ops →
      SentinelSafe ((store c).run (fresh c memory) ops₁).2) :
    ∀ ops₁, ops₁ <+: ops → ∀ key, key ≠ c.sentinel →
      lookup c ((store c).run (fresh c memory) ops₁).2 key =
        .value (lastWrite key ((store c).run (fresh c memory) ops₁).1) := by
  intro ops₁ hpre key hkey
  have hh := holds_run memory ops₁ (fun e he => hthrow e (Store.mem_run_of_prefix hpre he))
    fun ops₂ payload hpre₂ => hsafe ops₂ payload (hpre₂.trans hpre)
  exact hh.lookup_eq hkey

/-- One bucket of two slots, the keys `0` and `1` and the sentinel `2`. -/
def twoSlots (kickingfn : KickingFn) (rand_ : ℕ → BitVec 32) : Config (Fin 3) (Fin 3) (Fin 3) where
  directorySize := 1
  bucketSize := 2
  bucketSize_pos := Nat.two_pos
  hashfn1 := id
  hashfn2 key _ := key
  reductionfn1 _ := 0
  reductionfn2 _ := 0
  kickingfn := kickingfn
  rand_ := rand_
  sentinel := 2

/-- `Sentinel` kicks key `0` out of the first slot, and key `0` goes over key `1` in the second. -/
theorem cuckoo_sentinel_loses_key :
    let c := twoSlots .BalancedKicking fun _ => 0
    let h := ((store c).run (fresh c fun _ _ => { key := 1, payload := 9 })
      [.insert 0 5, .insert 1 6, .insert 2 7]).1
    let t := ((store c).run (fresh c fun _ _ => { key := 1, payload := 9 })
      [.insert 0 5, .insert 1 6, .insert 2 7]).2
    (∀ e ∈ h, ¬ e.Throws) ∧ lastWrite 1 h = some 6 ∧ lookup c t 1 = .value none := by
  decide

/-- `Sentinel` is inserted while there is room. -/
theorem cuckoo_sentinel_safe_two_slots :
    let c := twoSlots .BalancedKicking fun _ => 0
    lookup c ((store c).run (fresh c fun _ _ => { key := 1, payload := 9 })
      [.insert 0 5, .insert 2 7, .insert 1 6]).2 1 = .value (some 6) := by
  intro c
  refine (cuckoo_sentinel_safe c (fun _ _ => { key := 1, payload := 9 }) [.insert 0 5, .insert 2 7, .insert 1 6]
    (by decide) (fun ops₁ payload hpre => ?_) _ (List.prefix_refl _) 1 (by decide)).trans (by decide)
  rcases ops₁ with _ | ⟨op₁, _ | ⟨op₂, _ | ⟨op₃, _⟩⟩⟩ <;> simp [List.cons_prefix_cons] at hpre
  · exact absurd hpre.1 (by decide)
  · obtain ⟨rfl, -⟩ := hpre
    exact Or.inl ⟨(1 : Fin 2), Or.inl (not_not_intro rfl)⟩
  · exact absurd hpre.2.2.1 (by decide)

end HashingArchive.Hashtable.Cuckoo
