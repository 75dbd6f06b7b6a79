import HashingArchive.Join.ImvProbe

/-!
# Scalar probes of a vectorised table

With `USE_MURMUR3_HASH` the scalar functions hash the key with 32-bit arithmetic and scale the hash to the
table with `alt_mod`; the vectorised ones hash key and payload in 64-bit lanes and mask the result. The
two meet in every bucket only if there is one. Where they part, the scalar probe looks for a tuple in a
bucket the vectorised build never put it in.
-/

namespace HashingArchive.Join

open HashingArchive.Loop HashingArchive.Lanes

/-! ### The two indices -/

section
variable {ht : Hashtable}

theorem imvIndex_toNat (hv : ht.Valid) (lane : BitVec 64) :
    (imvIndex true ht lane).toNat = (imvHash lane).toNat % ht.numBuckets.toNat := by
  obtain ⟨k, -, hk⟩ := hv.pow
  have hmask := hv.toNat_mask
  rw [hk] at hmask
  simp [imvIndex, hv.skip_eq, BitVec.toNat_and, hmask, hk, Nat.and_two_pow_sub_one_eq_mod]

theorem scalarIndex_toNat (key : BitVec 32) :
    (scalarIndex true ht key).toNat = (murmurHash32 key).toNat * ht.numBuckets.toNat / 2 ^ 32 := by
  have hlt := (altMod (murmurHash32 key) ht.numBuckets).isLt
  rw [scalarIndex, if_pos rfl, BitVec.toNat_setWidth, Nat.mod_eq_of_lt (hlt.trans (by norm_num)), altMod_toNat]

/-- A key that `murmur_hash_32` sends to 1. -/
def strayKey : BitVec 32 := 0x0d61f40c

/-- With more than one bucket the two indices of that key differ. -/
theorem scalarIndex_ne_imvIndex (hv : ht.Valid) (hne : ht.numBuckets ≠ 1) :
    scalarIndex true ht strayKey ≠ imvIndex true ht (Tuple.mk strayKey 0) := by
  intro heq
  have hnat := congrArg BitVec.toNat heq
  have hmurmur : (murmurHash32 strayKey).toNat = 1 := by decide
  have hodd : (imvHash (Tuple.mk strayKey 0)).toNat % 2 = 1 := by decide
  obtain ⟨k, hk31, hk⟩ := hv.pow
  rw [scalarIndex_toNat, imvIndex_toNat hv, hmurmur, hk, one_mul,
    Nat.div_eq_of_lt (Nat.pow_lt_pow_right (by norm_num) (by omega))] at hnat
  have hpos : k ≠ 0 := by
    rintro rfl
    exact hne (BitVec.eq_of_toNat_eq hk)
  have htwo : 2 ∣ 2 ^ k := dvd_pow_self 2 hpos
  have heven := Nat.mod_mod_of_dvd (imvHash (Tuple.mk strayKey 0)).toNat htwo
  omega

theorem scalarIndex_eq_imvIndex_of_one (hv : ht.Valid) (hone : ht.numBuckets = 1) (key : BitVec 32) (lane : BitVec 64) :
    scalarIndex true ht key = imvIndex true ht lane := by
  have hs := scalarIndex_lt hv true key
  have hi := imvIndex_lt hv true lane
  rw [hone] at hs hi
  apply BitVec.eq_of_toNat_eq
  simp at hs hi
  rw [hs, hi]

end

/-! ### The scalar probe on a vectorised table -/

section
variable {n : ℕ} {idx : Tuple → Fin n} {scalarIdx : BitVec 32 → Fin n} {m : Memory n} {relR : List Tuple} {t : Tuple}

/-- What the scalar probe counts for one tuple. -/
theorem scalar_probe_returns (hbuilt : ∀ i, ∃ l ts, Holds m i l ts ∧ ts.Perm (relR.filter fun t => idx t = i))
    (scalarIdx : BitVec 32 → Fin n) (t : Tuple) :
    ∃ l ts, Holds m (scalarIdx t.key) l ts ∧ ts.Perm (relR.filter fun r => idx r = scalarIdx t.key) ∧
      HashProbeRelSPartition (fun key => some (scalarIdx key)) m [t]
        (keyCount (tuplesOf m (.head (scalarIdx t.key) :: l)) t.key) := by
  choose chain ts hholds hperm using hbuilt
  have hreturns : HashProbeRelSPartition (fun key => some (scalarIdx key)) m [t] _ :=
    probe_returns (fun i => (hholds i).linked) [t]
  rw [List.map_singleton, List.sum_singleton] at hreturns
  exact ⟨_, _, hholds _, hperm _, hreturns⟩

/-- Where the indices agree, the scalar probe finds the tuples of R. -/
theorem scalar_probe_finds (hbuilt : ∀ i, ∃ l ts, Holds m i l ts ∧ ts.Perm (relR.filter fun t => idx t = i))
    (hsame : scalarIdx t.key = idx t) (ht : t ∈ relR) :
    ∃ found, 0 < found ∧ HashProbeRelSPartition (fun key => some (scalarIdx key)) m [t] found := by
  obtain ⟨l, ts, hholds, hperm, hreturns⟩ := scalar_probe_returns hbuilt scalarIdx t
  refine ⟨_, ?_, hreturns⟩
  have hmem : t ∈ ts := hperm.mem_iff.mpr (List.mem_filter.mpr ⟨ht, decide_eq_true hsame.symm⟩)
  rcases hholds.holds with ⟨-, -, -, rfl⟩ | ⟨-, hts⟩
  · exact absurd hmem (by simp)
  · exact List.countP_pos_iff.mpr ⟨t, hts.mem_iff.mp hmem, decide_eq_true rfl⟩

/-- Where they do not, it misses the tuple. -/
theorem scalar_probe_misses (hbuilt : ∀ i, ∃ l ts, Holds m i l ts ∧ ts.Perm ([t].filter fun t => idx t = i))
    (hother : scalarIdx t.key ≠ idx t) (hkey : t.key ≠ 0) :
    HashProbeRelSPartition (fun key => some (scalarIdx key)) m [t] 0 := by
  obtain ⟨l, ts, hholds, hperm, hreturns⟩ := scalar_probe_returns hbuilt scalarIdx t
  rw [List.filter_cons_of_neg (by simpa using hother.symm), List.filter_nil, List.perm_nil] at hperm
  subst hperm
  rcases hholds.holds with ⟨-, rfl, htuple, -⟩ | ⟨-, hts⟩
  · have hzero : t.key ≠ Tuple.key 0 := hkey
    rw [tuplesOf_cons, htuple, tuplesOf_nil, keyCount, List.countP_cons_of_neg (by simpa using hzero)] at hreturns
    exact hreturns
  · exact absurd hts.length_eq (by simp)

end

/-- **When scalar and vectorised join address the same bucket**: with `USE_MURMUR3_HASH`, on an allocated
table, if and only if it has one bucket. On any other table there is a tuple whose indices differ, and one
that the vectorised probe finds and the scalar probe does not. -/
theorem same_bucket_iff (nbuckets : BitVec 32) (ht : Hashtable) (halloc : allocateHashtable nbuckets = some ht)
    (hne : ht.numBuckets ≠ 0) (garbage : ℕ → ℕ → Bucket ht.numBuckets.toNat) :
    let hv := allocateHashtable_valid halloc hne
    let sameIndex := ∀ key payload, scalarIndex true ht key = imvIndex true ht (Tuple.mk key payload)
    let alsoFound := ∀ relR m', HashBuildRelRPartitionImv (imvBucket true hv) (freshMemory garbage) relR m' →
      ∀ stack t found, HashProbeRelSPartitionImv (imvBucket true hv) m' stack [t] found → 0 < found →
        ∃ found', 0 < found' ∧ HashProbeRelSPartition (scalarBucket true ht) m' [t] found'
    (sameIndex ∧ alsoFound ↔ ht.numBuckets = 1) ∧ (ht.numBuckets ≠ 1 → ¬ sameIndex ∧ ¬ alsoFound) := by
  intro hv sameIndex alsoFound
  have hscalar := funext (scalarBucket_of_valid true hv)
  have hmany : ht.numBuckets ≠ 1 → ¬ sameIndex ∧ ¬ alsoFound := by
    intro hmore
    have hstray := scalarIndex_ne_imvIndex hv hmore
    refine ⟨fun h => hstray (h strayKey 0), fun h => ?_⟩
    obtain ⟨m', hbuild, hbuilt⟩ := imv_build_returns (imvBucket true hv) garbage [Tuple.mk strayKey 0]
    have hfound := imv_probe_returns hbuilt
      (fun _ => { key := fun _ => 0, htOff := fun _ => none, mHaveTuple := noLanes 8, stage := 1 })
      [Tuple.mk strayKey 0]
    obtain ⟨found', hpos, hprobe⟩ := h _ m' hbuild _ _ _ hfound (by decide)
    rw [hscalar] at hprobe
    refine absurd (Option.some.inj (Returns.unique hprobe (scalar_probe_misses hbuilt ?_ (by decide)))) hpos.ne'
    exact fun heq => hstray (BitVec.eq_of_toNat_eq (Fin.mk.inj heq))
  refine ⟨⟨fun h => ?_, fun hone => ⟨fun key payload => scalarIndex_eq_imvIndex_of_one hv hone key _, ?_⟩⟩, hmany⟩
  · by_contra hmore
    exact (hmany hmore).1 h.1
  · intro relR m' hbuild stack t found hprobe hpos
    obtain ⟨m'', hbuild', hbuilt⟩ := imv_build_returns (imvBucket true hv) garbage relR
    obtain rfl := Option.some.inj (Returns.unique hbuild hbuild')
    have hfound := Option.some.inj (Returns.unique hprobe (imv_probe_returns hbuilt stack [t]))
    rw [hfound, laneCardinality_eq_sum, List.map_singleton, List.sum_singleton] at hpos
    rw [hscalar]
    refine scalar_probe_finds hbuilt (Fin.ext ?_) (List.count_pos_iff.mp hpos)
    rw [imvBucket]
    exact congrArg BitVec.toNat (scalarIndex_eq_imvIndex_of_one hv hone t.key t)

/-- A table of one bucket. -/
def oneHead : Hashtable := { numBuckets := 1, hashMask := 0, skipBits := 0 }

theorem allocateHashtable_one : allocateHashtable 1 = some oneHead := rfl

theorem same_bucket_iff_one_head : scalarIndex true oneHead strayKey = imvIndex true oneHead (Tuple.mk strayKey 7) :=
  ((same_bucket_iff 1 oneHead allocateHashtable_one (by decide)
    fun _ _ => { count := 0, next := none, tuple := 9 }).1.mpr rfl).1 strayKey 7

/-- With two buckets the scalar index of the key is 0 and the vectorised index of its tuple 1. Of a table that
holds this tuple alone the vectorised probe finds it and the scalar probe does not. -/
theorem same_bucket_fails_two_heads :
    scalarIndex true twoHeads strayKey = 0 ∧ imvIndex true twoHeads (Tuple.mk strayKey 0) = 1 ∧
      ∃ m', HashBuildRelRPartitionImv (imvBucket true (allocateHashtable_valid allocateHashtable_two (by decide)))
          (freshMemory fun _ _ => { count := 0, next := none, tuple := 9 }) [Tuple.mk strayKey 0] m' ∧
        HashProbeRelSPartitionImv (imvBucket true (allocateHashtable_valid allocateHashtable_two (by decide))) m'
          (fun _ => { key := fun _ => 0, htOff := fun _ => none, mHaveTuple := noLanes 8, stage := 1 })
          [Tuple.mk strayKey 0] 1 ∧
        HashProbeRelSPartition (scalarBucket true twoHeads) m' [Tuple.mk strayKey 0] 0 := by
  refine ⟨by decide, by decide, ?_⟩
  obtain ⟨m', hbuild, hbuilt⟩ := imv_build_returns
    (imvBucket true (allocateHashtable_valid allocateHashtable_two (by decide)))
    (fun _ _ => { count := 0, next := none, tuple := 9 }) [Tuple.mk strayKey 0]
  rw [funext (scalarBucket_of_valid true (allocateHashtable_valid allocateHashtable_two (by decide)))]
  exact ⟨m', hbuild, imv_probe_returns hbuilt _ _, scalar_probe_misses hbuilt (by decide) (by decide)⟩

end HashingArchive.Join
