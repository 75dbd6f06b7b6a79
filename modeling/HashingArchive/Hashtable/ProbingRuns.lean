import HashingArchive.Hashtable.Probing

/-!
# `Probing` is an insert-only map

Along any run from a fresh table, throwing inserts included, a `Probing` table keeps `Inv` and stores
exactly what its history says was accepted first (`Holds`). What `insert` and `lookup` answer
follows from the three cases of an insert.
-/

namespace HashingArchive.Hashtable.Probing

open HashingArchive.Library

variable {Key Hash Payload : Type} [DecidableEq Key] {c : Config Key Hash}

/-- The insert was accepted: it returned `true`. -/
def returnedTrue : Outcome Bool → Bool
  | .value b => b
  | _ => false

/-- The table is sound and stores what the history accepted. -/
structure Holds (h : History Key Payload Bool) (t : Table c Payload) : Prop where
  inv : Inv t
  stores_iff : ∀ key, key ≠ c.sentinel → ∀ payload,
    Stores t key payload ↔ firstWrite returnedTrue key h = some payload

theorem Holds.resident_iff {h : History Key Payload Bool} {t : Table c Payload} (hh : Holds h t) {key : Key}
    (hkey : key ≠ c.sentinel) : Resident t key ↔ firstWrite returnedTrue key h ≠ none := by
  constructor
  · intro hres hnone
    obtain ⟨p, hp⟩ := hres.stores
    rw [hh.stores_iff key hkey, hnone] at hp
    exact absurd hp (by simp)
  · intro hne
    obtain ⟨p, hp⟩ := Option.ne_none_iff_exists'.mp hne
    exact ((hh.stores_iff key hkey p).mpr hp).resident

theorem Holds.lookup_eq {h : History Key Payload Bool} {t : Table c Payload} (hh : Holds h t) {key : Key}
    (hkey : key ≠ c.sentinel) : lookup c t key = .value (firstWrite returnedTrue key h) :=
  (lookup_answers hh.inv hkey).eq_value (hh.stores_iff key hkey)

theorem holds_clear (t : Table c Payload) : Holds [] (clear c t) where
  inv := inv_clear t
  stores_iff key hkey payload := by
    simp only [firstWrite, reduceCtorEq, iff_false]
    exact fun hs => not_resident_clear t hkey hs.resident

/-- The step lemma: an operation on a key other than `Sentinel` keeps `Holds`. -/
theorem Holds.step {h : History Key Payload Bool} {t : Table c Payload} (hh : Holds h t)
    (op : Op Key Payload) (hop : op.Avoids (· = c.sentinel)) :
    Holds (((store c).step t op).1 :: h) ((store c).step t op).2 := by
  cases op with
  | lookup k => exact ⟨hh.inv, hh.stores_iff⟩
  | clear => exact ⟨inv_clear t, (holds_clear t).stores_iff⟩
  | insert k p =>
    have hk : k ≠ c.sentinel := hop
    simp only [Store.step, store]
    rcases insert_cases hh.inv hk p with ⟨-, hins⟩ | ⟨hres, s, i, hplaced, hins⟩ | ⟨-, -, hins⟩ <;> rw [hins]
    · refine ⟨hh.inv, fun key hkey q => ?_⟩
      rw [firstWrite_rejected rfl, hh.stores_iff key hkey q]
    · refine ⟨hplaced.inv hh.inv hk hres p, fun key hkey q => ?_⟩
      have hnone : firstWrite returnedTrue k h = none := by
        rw [hh.resident_iff hk] at hres
        exact not_not.mp hres
      rw [firstWrite_accepted_iff rfl hnone, hplaced.stores_iff hk p hkey q, hh.stores_iff key hkey q]
    · refine ⟨hh.inv, fun key hkey q => ?_⟩
      rw [firstWrite_rejected rfl, hh.stores_iff key hkey q]

/-- The run lemma. -/
theorem holds_run (memory : Table c Payload) (ops : List (Op Key Payload))
    (hops : ∀ op ∈ ops, op.Avoids (· = c.sentinel)) :
    Holds ((store c).run (clear c memory) ops).1 ((store c).run (clear c memory) ops).2 :=
  Store.run_induction (·.Avoids (· = c.sentinel)) Holds (holds_clear memory)
    (fun _ _ op hop hh => hh.step op hop) ops hops

/-- **`Probing` refines an insert-only first-writer-wins map**, in every state a run from a fresh table
reaches, throwing inserts included. -/
theorem probing_first_writer_wins (c : Config Key Hash) (hN : c.directorySize ≤ 2 ^ 63)
    (memory : Table c Payload) (ops : List (Op Key Payload))
    (hops : ∀ op ∈ ops, op.Avoids (· = c.sentinel)) :
    let h := ((store c).run (clear c memory) ops).1
    let t := ((store c).run (clear c memory) ops).2
    (∀ key payload, key ≠ c.sentinel →
      ((insert c t key payload).1 = .value true ↔
        ¬ Resident t key ∧ Stores (insert c t key payload).2 key payload) ∧
      ((insert c t key payload).1 = .value true → ∀ k q, k ≠ c.sentinel →
        (Stores (insert c t key payload).2 k q ↔ Stores t k q ∨ (k = key ∧ q = payload))) ∧
      ((insert c t key payload).1 = .value false ↔ Resident t key) ∧
      (Resident t key → (insert c t key payload).2 = t) ∧
      (∀ what, (insert c t key payload).1 = .thrown what → (insert c t key payload).2 = t) ∧
      (insert c t key payload).1 ≠ .diverged ∧
      (c.probingfn = .linear → ¬ Resident t key →
        ((∃ what, (insert c t key payload).1 = .thrown what) ↔ ∀ b i, Occupied t b i))) ∧
    (∀ key, key ≠ c.sentinel → lookup c t key = .value (firstWrite returnedTrue key h)) ∧
    ∀ key, key ≠ c.sentinel → ∀ b i b' i', (t b i).key = key → (t b' i').key = key → b' = b ∧ i' = i := by
  intro h t
  have hh : Holds h t := holds_run memory ops hops
  refine ⟨fun key payload hkey => ?_, fun key hkey => hh.lookup_eq hkey, fun key hkey b i b' i' h₁ h₂ => ?_⟩
  · rcases insert_cases hh.inv hkey payload with ⟨hres, hins⟩ | ⟨hres, s, i, hplaced, hins⟩ |
      ⟨hres, hexh, hins⟩ <;> rw [hins]
    · refine ⟨by simp [hres], by simp, by simp [hres], fun _ => rfl, fun _ _ => rfl, by simp, ?_⟩
      exact fun _ habs => absurd hres habs
    · refine ⟨?_, fun _ k q hk => hplaced.stores_iff hkey payload hk q, by simp [hres],
        fun habs => absurd habs hres, by simp, by simp, ?_⟩
      · simp only [true_iff]
        exact ⟨hres, (hplaced.stores_iff hkey payload hkey payload).mpr (Or.inr ⟨rfl, rfl⟩)⟩
      · exact fun _ _ => iff_of_false (by simp) fun hfull => hplaced.empty (hfull _ i)
    · refine ⟨?_, by simp, by simp [hres], fun habs => absurd habs hres, fun _ _ => rfl, by simp, ?_⟩
      · apply iff_of_false (by simp)
        rintro ⟨-, hs⟩
        exact hres hs.resident
      · exact fun hlinear _ => iff_of_true ⟨_, rfl⟩ (Exhausted.full hlinear hN hexh)
  · refine hh.inv.unique b i b' i' ?_ (h₂.trans h₁.symm)
    rw [Occupied, h₁]
    exact hkey

/-- Two buckets of one slot, keys `0`, `1`, `2` and the sentinel `3`, every key at home in bucket `0`. -/
def twoBuckets (probingfn : ProbingFn) : Config (Fin 4) (Fin 4) where
  directorySize := 2
  directorySize_lt := two_lt_two_pow
  bucketSize := 1
  hashfn := id
  reductionfn _ := 0
  probingfn := probingfn
  sentinel := 3

/-- Three inserts into two buckets: the second refused, the last one thrown. -/
theorem probing_first_writer_wins_two_buckets :
    lookup (twoBuckets .linear) ((store (twoBuckets .linear)).run
      (clear (twoBuckets .linear) fun _ _ => { key := 0, payload := 9 })
      [.insert 0 5, .insert 0 6, .insert 1 7, .insert 2 8]).2 0 = .value (some (5 : ℕ)) :=
  ((probing_first_writer_wins (twoBuckets .linear) (by decide) (fun _ _ => { key := 0, payload := 9 })
    [.insert 0 5, .insert 0 6, .insert 1 7, .insert 2 8] (by decide)).2.1 0 (by decide)).trans (by decide)

end HashingArchive.Hashtable.Probing
