import HashingArchive.Hashtable.ChainedRuns

/-!
# `Chained` answers with the first writer

A key may be in a chain although it is in the directory slot as well, but the directory slot is the older of
the two and the first place a lookup looks at. `Finds` is what a lookup finds: the directory slot, or else the
chain, in which a key has one slot (`ChainOnce`). Along any run it is the payload of the first insert since the
last clear (`Holds`).
-/

namespace HashingArchive.Hashtable.Chained

open HashingArchive.Library

variable {Key Hash Payload : Type} [DecidableEq Key] {c : Config Key Hash Payload}

/-! ### Lookups in a chain -/

/-- What a scan of one bucket finds: the key, an empty slot before it, or neither. -/
theorem lookupBucket_cases (key : Key) (bucket : Bucket c) :
    (∃ i, (bucket i).key = key ∧ lookupBucket c key bucket = some (some (bucket i).payload)) ∨
    (∃ i, (bucket i).key = c.sentinel ∧ (∀ i' ≤ i, (bucket i').key ≠ key) ∧ lookupBucket c key bucket = some none) ∨
    ((∀ i, (bucket i).key ≠ key) ∧ lookupBucket c key bucket = none) := by
  cases hscan : lookupBucket c key bucket with
  | some r =>
    obtain ⟨i, hi, hbefore⟩ := findSome?_finRange hscan
    split_ifs at hi with hsame hempty
    · exact Or.inl ⟨i, hsame, hi.symm⟩
    · refine Or.inr (Or.inl ⟨i, hempty, fun i' hle => ?_, hi.symm⟩)
      rcases lt_or_eq_of_le hle with hlt | rfl
      · intro hsame'
        have hnone := hbefore i' hlt
        rw [if_pos hsame'] at hnone
        exact absurd hnone (by simp)
      · exact hsame
  | none =>
    refine Or.inr (Or.inr ⟨fun i hsame => ?_, rfl⟩)
    have hnone := List.findSome?_eq_none_iff.mp hscan i (List.mem_finRange i)
    rw [if_pos hsame] at hnone
    exact absurd hnone (by simp)

/-- **A lookup in a filled chain** finds a slot with the key if there is one. -/
theorem lookupChain_cases {key : Key} (hkey : key ≠ c.sentinel) (chain : List (Bucket c)) (hfilled : Filled chain) :
    (∃ j i payload, chainEntry chain j i = some { key := key, payload := payload } ∧
      lookupChain c key chain = some payload) ∨
    (¬ InChain key chain ∧ lookupChain c key chain = none) := by
  induction chain with
  | nil => exact Or.inr ⟨fun ⟨_, hmem, _⟩ => List.not_mem_nil hmem, rfl⟩
  | cons bucket next ih =>
    rcases lookupBucket_cases key bucket with ⟨i, hi, hscan⟩ | ⟨i, hempty, hbefore, hscan⟩ | ⟨hother, hscan⟩
    · refine Or.inl ⟨0, i, (bucket i).payload, ?_, by rw [lookupChain, hscan]⟩
      rw [chainEntry_zero, if_neg (by rwa [hi]), ← hi]
    · -- the bucket is the last one, and what follows its empty slot is empty too
      obtain rfl := hfilled.next_eq_nil hempty
      exact Or.inr ⟨not_inChain_of_empty hfilled hempty hkey fun i' hlt => hbefore i' hlt.le,
        by rw [lookupChain, hscan]⟩
    · rcases ih hfilled.tail with ⟨j, i, payload, hentry, hnext⟩ | ⟨hnot, hnext⟩
      · exact Or.inl ⟨j + 1, i, payload, hentry, by rw [lookupChain, hscan]; exact hnext⟩
      · refine Or.inr ⟨fun hin => ?_, by rw [lookupChain, hscan]; exact hnext⟩
        obtain ⟨bucket', hmem, i', hi'⟩ := hin
        rcases List.mem_cons.mp hmem with rfl | hmem
        · exact hother i' hi'
        · exact hnot ⟨bucket', hmem, i', hi'⟩

/-! ### What a lookup finds -/

/-- No key is in two slots of one chain. -/
def ChainOnce (t : Table c) : Prop :=
  ∀ b j i s j' i' s', entry t b (some (j, i)) = some s → entry t b (some (j', i')) = some s' → s.key = s'.key →
    s = s'

/-- The key with this payload is in its directory slot, or else in its chain. -/
def Finds (t : Table c) (key : Key) (payload : Payload) : Prop :=
  entry t (c.home key) none = some { key := key, payload := payload } ∨
    (∀ q, entry t (c.home key) none ≠ some { key := key, payload := q }) ∧
      ∃ j i, entry t (c.home key) (some (j, i)) = some { key := key, payload := payload }

theorem entry_none_iff (t : Table c) {key : Key} (hkey : key ≠ c.sentinel) (b : Fin c.directorySize)
    (payload : Payload) : entry t b none = some { key := key, payload := payload } ↔
      (t b).key = key ∧ (t b).payload = payload := by
  unfold entry
  split_ifs with hempty
  · rw [hempty]
    exact iff_of_false (by simp) fun h => hkey h.1.symm
  · rw [Option.some.injEq, Slot.mk.injEq]

theorem lookup_cases {t : Table c} (hinv : Inv t) {key : Key} (hkey : key ≠ c.sentinel) :
    (∃ payload, Finds t key payload ∧ lookup c t key = .value (some payload)) ∨
    ((∀ payload, ¬ Finds t key payload) ∧ lookup c t key = .value none) := by
  unfold lookup
  rw [if_neg hkey]
  dsimp only
  by_cases hdir : (t (c.home key)).key = key
  · rw [if_pos hdir]
    exact Or.inl ⟨_, Or.inl ((entry_none_iff t hkey _ _).mpr ⟨hdir, rfl⟩), rfl⟩
  · rw [if_neg hdir]
    have hne : ∀ q, entry t (c.home key) none ≠ some { key := key, payload := q } :=
      fun q h => hdir ((entry_none_iff t hkey _ q).mp h).1
    rcases lookupChain_cases hkey _ (hinv.filled (c.home key)) with ⟨j, i, payload, hentry, hlook⟩ | ⟨hnot, hlook⟩
    · exact Or.inl ⟨payload, Or.inr ⟨hne, j, i, hentry⟩, by rw [hlook]⟩
    · refine Or.inr ⟨fun payload hfinds => ?_, by rw [hlook]⟩
      rcases hfinds with hslot | ⟨-, j, i, hentry⟩
      · exact hne payload hslot
      · exact hnot ((inChain_iff_entry hkey _).mpr ⟨j, i, _, hentry, rfl⟩)

/-! ### What an insert changes -/

theorem Finds.of_inChain {t : Table c} {key : Key} (hkey : key ≠ c.sentinel)
    (hin : InChain key (t (c.home key)).buckets) : ∃ payload, Finds t key payload := by
  by_cases hdir : (t (c.home key)).key = key
  · exact ⟨_, Or.inl ((entry_none_iff t hkey _ _).mpr ⟨hdir, rfl⟩)⟩
  · obtain ⟨j, i, ⟨k, payload⟩, hs, hk⟩ := (inChain_iff_entry hkey _).mp hin
    obtain rfl : k = key := hk
    exact ⟨payload, Or.inr ⟨fun q h => hdir ((entry_none_iff t hkey _ q).mp h).1, j, i, hs⟩⟩

/-- An entry that is new in the directory slot is the only one of its bucket. -/
theorem entry_eq_none_of_directory {t : Table c} (hinv : Inv t) {b : Fin c.directorySize}
    (hnone : entry t b none = none) (place : Place c) : entry t b place = none := by
  have hdir : (t b).key = c.sentinel := by
    by_contra hdir
    unfold entry at hnone
    rw [if_neg hdir] at hnone
    exact absurd hnone (by simp)
  cases place with
  | none => exact hnone
  | some place =>
    show chainEntry (t b).buckets place.1 place.2 = none
    rw [hinv.opened b hdir, chainEntry_nil]

/-- The key that went into the chain is found unless the directory slot already held it. -/
theorem AddsOne.finds_self_iff {t t' : Table c} {key : Key} (hkey : key ≠ c.sentinel) {payload : Payload}
    {place : ℕ × Fin c.bucketSize}
    (hentry : ∀ b' place', entry t' b' place' =
      if b' = c.home key ∧ place' = some place then some { key := key, payload := payload } else entry t b' place')
    (hnot : ¬ InChain key (t (c.home key)).buckets) (q : Payload) :
    Finds t' key q ↔ Finds t key q ∨ (q = payload ∧ ∀ q', ¬ Finds t key q') := by
  have habsent : ∀ j i p, entry t (c.home key) (some (j, i)) ≠ some { key := key, payload := p } :=
    fun j i p h => hnot ((inChain_iff_entry hkey _).mpr ⟨j, i, _, h, rfl⟩)
  have hdir : entry t' (c.home key) none = entry t (c.home key) none := by
    rw [hentry, if_neg fun h => absurd h.2 (by simp)]
  unfold Finds
  rw [hdir]
  constructor
  · intro hfinds
    rcases hfinds with hslot | ⟨hne, j, i, hnew⟩
    · exact Or.inl (Or.inl hslot)
    · rw [hentry] at hnew
      split_ifs at hnew with hplace
      · refine Or.inr ⟨(congrArg Slot.payload (Option.some.inj hnew)).symm, fun q' hfinds => ?_⟩
        rcases hfinds with hslot | ⟨-, j', i', hold⟩
        · exact hne q' hslot
        · exact habsent j' i' q' hold
      · exact absurd hnew (habsent j i q)
  · intro hfinds
    rcases hfinds with (hslot | ⟨-, j, i, hold⟩) | ⟨rfl, hnone'⟩
    · exact Or.inl hslot
    · exact absurd hold (habsent j i q)
    · exact Or.inr ⟨fun q' hslot => hnone' q' (Or.inl hslot), place.1, place.2,
        (hentry _ _).trans (if_pos ⟨rfl, rfl⟩)⟩

/-- A key that is not in the chain goes to a free slot of its bucket: a lookup of the key finds it, unless the
key is in the directory slot. -/
theorem AddsOne.finds_iff {t t' : Table c} (hinv : Inv t) {key : Key} (hkey : key ≠ c.sentinel) {payload : Payload}
    (hadds : AddsOne t t' (c.home key) { key := key, payload := payload })
    (hnot : ¬ InChain key (t (c.home key)).buckets) (k : Key) (q : Payload) :
    Finds t' k q ↔ Finds t k q ∨ (k = key ∧ q = payload ∧ ∀ q', ¬ Finds t key q') := by
  obtain ⟨place, hnone, hentry⟩ := hadds
  unfold Finds
  by_cases hhome : c.home k = c.home key
  · simp only [hhome]
    cases place with
    | none =>
      -- the directory slot was empty, and so was the chain behind it
      simp only [hentry, entry_eq_none_of_directory hinv hnone]
      simp [eq_comm]
    | some place =>
      by_cases hk : k = key
      · subst hk
        simpa only [true_and, Finds] using AddsOne.finds_self_iff hkey hentry hnot q
      · have hdir : entry t' (c.home key) none = entry t (c.home key) none := by
          rw [hentry, if_neg fun h => absurd h.2 (by simp)]
        rw [hdir]
        have hchain : ∀ j i, entry t' (c.home key) (some (j, i)) = some { key := k, payload := q } ↔
            entry t (c.home key) (some (j, i)) = some { key := k, payload := q } := by
          intro j i
          rw [hentry]
          split_ifs with hplace
          · rw [hplace.2, hnone]
            simp [Ne.symm hk]
          · exact Iff.rfl
        simp only [hchain, hk, false_and, or_false]
  · have hkk : k ≠ key := fun h => hhome (by rw [h])
    simp only [hentry, hhome, false_and, if_false, hkk, or_false]

/-- The new entry is the only one of its chain with that key. -/
theorem AddsOne.chainOnce {t t' : Table c} {key : Key} (hkey : key ≠ c.sentinel) {payload : Payload}
    (hadds : AddsOne t t' (c.home key) { key := key, payload := payload })
    (hnot : ¬ InChain key (t (c.home key)).buckets) (honce : ChainOnce t) : ChainOnce t' := by
  obtain ⟨place, -, hentry⟩ := hadds
  have habsent : ∀ j i s, entry t (c.home key) (some (j, i)) = some s → s.key ≠ key :=
    fun j i s h hs => hnot ((inChain_iff_entry hkey _).mpr ⟨j, i, s, h, hs⟩)
  intro b j i s j' i' s' h h' heq
  rw [hentry] at h h'
  split_ifs at h h' with hnew hnew' hnew'
  · exact (Option.some.inj h).symm.trans (Option.some.inj h')
  · obtain rfl := Option.some.inj h
    exact absurd heq.symm (habsent j' i' s' (hnew.1 ▸ h'))
  · obtain rfl := Option.some.inj h'
    exact absurd heq (habsent j i s (hnew'.1 ▸ h))
  · exact honce b j i s j' i' s' h h' heq

/-! ### Runs -/

/-- The table is sound, and a lookup finds what its history says was inserted first. -/
structure Holds (h : History Key Payload Bool) (t : Table c) : Prop where
  inv : Inv t
  once : ChainOnce t
  finds_iff : ∀ key, key ≠ c.sentinel → ∀ payload,
    Finds t key payload ↔ firstWrite (fun _ => true) key h = some payload

theorem not_finds_clear (t : Table c) (key : Key) (payload : Payload) : ¬ Finds (clear c t) key payload := by
  intro hfinds
  rcases hfinds with h | ⟨-, j, i, h⟩
  · exact absurd h (by rw [entry_clear]; simp)
  · exact absurd h (by rw [entry_clear]; simp)

theorem chainOnce_clear (t : Table c) : ChainOnce (clear c t) :=
  fun b j i s j' i' s' h => absurd h (by rw [entry_clear]; simp)

theorem holds_clear (t : Table c) : Holds [] (clear c t) where
  inv := inv_clear t
  once := chainOnce_clear t
  finds_iff key _ payload := iff_of_false (not_finds_clear t key payload) (by simp [firstWrite])

/-- The step lemma. -/
theorem Holds.step {h : History Key Payload Bool} {t : Table c} (hh : Holds h t) (op : Op Key Payload)
    (hop : op.Avoids (· = c.sentinel)) :
    Holds (((store c).step t op).1 :: h) ((store c).step t op).2 := by
  cases op with
  | lookup k => exact ⟨hh.inv, hh.once, hh.finds_iff⟩
  | clear => exact ⟨inv_clear t, chainOnce_clear t, (holds_clear t).finds_iff⟩
  | insert k p =>
    have hk : k ≠ c.sentinel := hop
    have hnone : (∀ q, ¬ Finds t k q) ↔ firstWrite (fun _ => true) k h = none := by
      rw [Option.eq_none_iff_forall_ne_some]
      exact forall_congr' fun q => not_congr (hh.finds_iff k hk q)
    have hinv := hh.inv.insert hk p
    simp only [Store.step, store]
    rcases insert_cases hh.inv hk p with ⟨hin, hins⟩ | ⟨hnot, slot, -, -, -, hins, hadds⟩ <;>
      rw [hins] at hinv ⊢
    · -- the key is in the chain, so it has been inserted before
      refine ⟨hinv, hh.once, fun key hkey q => ?_⟩
      obtain ⟨q', hq'⟩ := Finds.of_inChain hk hin
      rw [firstWrite_insert_iff rfl, ← hnone, hh.finds_iff key hkey]
      exact (or_iff_left fun h => h.2.2 q' hq').symm
    · refine ⟨hinv, hadds.chainOnce hk hnot hh.once, fun key hkey q => ?_⟩
      rw [hadds.finds_iff hh.inv hk hnot, firstWrite_insert_iff rfl, hnone, hh.finds_iff key hkey]

/-- The run lemma. -/
theorem holds_run (memory : Table c) (ops : List (Op Key Payload))
    (hops : ∀ op ∈ ops, op.Avoids (· = c.sentinel)) :
    Holds ((store c).run (clear c memory) ops).1 ((store c).run (clear c memory) ops).2 :=
  Store.run_induction (·.Avoids (· = c.sentinel)) Holds (holds_clear memory)
    (fun _ _ op hop hh => hh.step op hop) ops hops

/-- **A lookup in `Chained` answers with the first writer**, and chains stay filled. -/
theorem chained_first_writer (c : Config Key Hash Payload) (memory : Table c) (ops : List (Op Key Payload))
    (hops : ∀ op ∈ ops, op.Avoids (· = c.sentinel)) :
    let h := ((store c).run (clear c memory) ops).1
    let t := ((store c).run (clear c memory) ops).2
    (∀ key, key ≠ c.sentinel → lookup c t key = .value (firstWrite (fun _ => true) key h)) ∧
    (∀ b, Filled (t b).buckets) ∧
    ∀ b, (t b).buckets ≠ [] → (t b).key ≠ c.sentinel := by
  intro h t
  have hh : Holds h t := holds_run memory ops hops
  refine ⟨fun key hkey => ?_, hh.inv.filled, fun b hne hempty => hne (hh.inv.opened b hempty)⟩
  rcases lookup_cases hh.inv hkey with ⟨payload, hfinds, hlook⟩ | ⟨hnot, hlook⟩
  · rw [hlook, (hh.finds_iff key hkey payload).mp hfinds]
  · rw [hlook]
    congr 1
    symm
    rw [Option.eq_none_iff_forall_ne_some]
    exact fun q hq => hnot q ((hh.finds_iff key hkey q).mpr hq)

/-- Key `0` is inserted twice and key `1` lies between, in the same bucket. -/
theorem chained_first_writer_one_bucket :
    lookup oneBucket ((store oneBucket).run freshBucket [.insert 0 5, .insert 1 7, .insert 0 6]).2 0 =
      .value (some 5) :=
  ((chained_first_writer oneBucket (fun _ => { key := 1, payload := 9, buckets := [] })
    [.insert 0 5, .insert 1 7, .insert 0 6] (by decide)).1 0 (by decide)).trans (by decide)

end HashingArchive.Hashtable.Chained
