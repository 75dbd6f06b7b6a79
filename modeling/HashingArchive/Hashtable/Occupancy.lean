import HashingArchive.Hashtable.Loaded
import HashingArchive.Hashtable.Statistics

/-!
# Two layouts of one occupancy

A table filled with linear probing is a packed assignment of keys to buckets (`Loaded.packed`), and in a robin
hood table no key has gone past another one that is closer to its own home (`Robinhood.homeSorted`). What a
`Probing` and a `RobinhoodProbing` table over the same keys have in common, and where the second one is better,
are facts about packed assignments.
-/

namespace HashingArchive.Hashtable

open HashingArchive.Library

namespace Probing

section
variable {Key Hash Payload : Type} {c : Config Key Hash} {t : Table c Payload} {keys : List Key}

/-- Every key of the list is in the bucket `pos` names. -/
def Positions (t : Table c Payload) (keys : List Key) (pos : Key → Fin c.directorySize) : Prop :=
  ∀ key ∈ keys, ∃ i, (t (pos key) i).key = key

theorem Loaded.exists_positions (h : Loaded t keys) : ∃ pos, Positions t keys pos := by
  have hpos : ∀ key, ∃ b, key ∈ keys → ∃ i, (t b i).key = key := by
    intro key
    by_cases hmem : key ∈ keys
    · obtain ⟨b, hb⟩ := ((h.mem_iff key).mp hmem).2
      exact ⟨b, fun _ => hb⟩
    · exact ⟨c.home key, fun hmem' => absurd hmem' hmem⟩
  choose pos hpos using hpos
  exact ⟨pos, hpos⟩

theorem Loaded.pos_eq (h : Loaded t keys) {pos : Key → Fin c.directorySize} (hpos : Positions t keys pos)
    {b : Fin c.directorySize} {i : Fin c.bucketSize} (hocc : Occupied t b i) : pos (t b i).key = b := by
  obtain ⟨i', hi'⟩ := hpos _ (h.mem hocc)
  exact (h.inv.unique b i _ i' hocc hi').1

variable [DecidableEq Key]

/-- A bucket has as many occupied slots as keys. -/
theorem Loaded.load_eq (h : Loaded t keys) {pos : Key → Fin c.directorySize} (hpos : Positions t keys pos)
    (b : Fin c.directorySize) : Circle.load keys.toFinset pos b = occupancy t b := by
  symm
  refine Finset.card_bij (fun i _ => (t b i).key) (fun i hi => ?_) (fun i hi i' _ heq => ?_) fun key hkey => ?_
  · have hocc : Occupied t b i := (Finset.mem_filter.mp hi).2
    exact Finset.mem_filter.mpr ⟨List.mem_toFinset.mpr (h.mem hocc), h.pos_eq hpos hocc⟩
  · exact ((h.inv.unique b i b i' (Finset.mem_filter.mp hi).2 heq.symm).2).symm
  · rw [Finset.mem_filter, List.mem_toFinset] at hkey
    obtain ⟨hmem, rfl⟩ := hkey
    obtain ⟨i, hi⟩ := hpos key hmem
    refine ⟨i, Finset.mem_filter.mpr ⟨Finset.mem_univ i, ?_⟩, hi⟩
    rw [Occupied, hi]
    exact ((h.mem_iff key).mp hmem).1

theorem occupancy_le (t : Table c Payload) (b : Fin c.directorySize) : occupancy t b ≤ c.bucketSize :=
  (Finset.card_filter_le _ _).trans_eq (Finset.card_fin _)

theorem Full.occupancy_eq {b : Fin c.directorySize} (h : Full t b) : occupancy t b = c.bucketSize := by
  rw [occupancy, Finset.filter_true_of_mem fun i _ => h i, Finset.card_fin]

variable (hlinear : c.probingfn = .linear) (hN : c.directorySize ≤ 2 ^ 63)
include hlinear hN

theorem Loaded.packed (h : Loaded t keys) {pos : Key → Fin c.directorySize} (hpos : Positions t keys pos) :
    Circle.Packed c.bucketSize keys.toFinset c.home pos where
  room b := (h.load_eq hpos b).trans_le (occupancy_le t b)
  passed key hkey b hpast := by
    rw [List.mem_toFinset] at hkey
    obtain ⟨i, hi⟩ := hpos key hkey
    have hocc : Occupied t (pos key) i := by rw [Occupied, hi]; exact ((h.mem_iff key).mp hkey).1
    rw [h.load_eq hpos, Full.occupancy_eq (h.inv.full_of_dist_lt hlinear hN hocc (by rwa [hi]))]
  closed := by
    obtain ⟨z, hz⟩ := h.closed
    refine ⟨z, fun key hkey => ?_⟩
    rw [List.mem_toFinset] at hkey
    obtain ⟨i, hi⟩ := hpos key hkey
    have hocc : Occupied t (pos key) i := by rw [Occupied, hi]; exact ((h.mem_iff key).mp hkey).1
    have hnot := hz (pos key) i hocc
    rwa [hi] at hnot

/-- The statistics of the keys of the table count the steps from home to bucket. -/
theorem Loaded.statistics_eq (h : Loaded t keys) {pos : Key → Fin c.directorySize} (hpos : Positions t keys pos)
    {dataset : List Key} (hdataset : ∀ key ∈ dataset, key ∈ keys) :
    lookupStatistics c t dataset =
      (dataset.map fun key => Circle.dist (c.home key) (pos key)).foldl Statistics.found Statistics.zero := by
  apply lookupStatistics_eq
  intro key hkey
  obtain ⟨i, hi⟩ := hpos key (hdataset key hkey)
  have hocc : Occupied t (pos key) i := by rw [Occupied, hi]; exact ((h.mem_iff key).mp (hdataset key hkey)).1
  obtain ⟨s, hreach, hbucket, hwalk⟩ := probeLoop_statistics h.inv hocc
  rw [hi] at hreach hbucket hwalk
  rw [dist_of_reaches hlinear hN hreach hbucket]
  exact hwalk

theorem Loaded.totalPsl_eq (h : Loaded t keys) {pos : Key → Fin c.directorySize} (hpos : Positions t keys pos)
    (hnodup : keys.Nodup) {dataset : List Key} (hperm : dataset.Perm keys) :
    (lookupStatistics c t dataset).totalPsl =
      (∑ key ∈ keys.toFinset, Circle.dist (c.home key) (pos key)) % 2 ^ 64 := by
  rw [h.statistics_eq hlinear hN hpos fun key hkey => hperm.subset hkey,
    totalPsl_foldl _ _ (by norm_num [Statistics.zero]), List.sum_toFinset _ hnodup, Statistics.zero, Nat.zero_add,
    (hperm.map _).sum_eq]

theorem Loaded.maxPsl_le_iff (h : Loaded t keys) {pos : Key → Fin c.directorySize} (hpos : Positions t keys pos)
    {dataset : List Key} (hperm : dataset.Perm keys) (m : ℕ) :
    (lookupStatistics c t dataset).maxPsl ≤ m ↔ ∀ key ∈ keys, Circle.dist (c.home key) (pos key) ≤ m := by
  rw [h.statistics_eq hlinear hN hpos fun key hkey => hperm.subset hkey, maxPsl_foldl_le_iff, List.forall_mem_map]
  constructor
  · exact fun hle key hkey => hle.2 key (hperm.symm.subset hkey)
  · exact fun hle => ⟨Nat.zero_le m, fun key hkey => hle key (hperm.subset hkey)⟩

end

end Probing

namespace Robinhood

section
variable {Key Hash Payload : Type} {c : Config Key Hash} {t : Table c Payload}

/-- The number of occupied slots of a bucket. -/
def occupancy [DecidableEq Key] (t : Table c Payload) (b : Fin c.directorySize) : ℕ :=
  (Finset.univ.filter fun i => Occupied t b i).card

theorem occupancy_forget [DecidableEq Key] (t : Table c Payload) (b : Fin c.directorySize) :
    Probing.occupancy (forget t) b = occupancy t b := rfl

variable (hlinear : c.probingfn = .linear) (hN : c.directorySize ≤ 2 ^ 63)
include hlinear hN

/-- The `psl` of a slot is its distance from the home of its key. -/
theorem Inv.dist_eq_psl (hinv : Inv t) {b : Fin c.directorySize} {i : Fin c.bucketSize} (hocc : Occupied t b i) :
    Circle.dist (c.home (t b i).key) b = (t b i).psl :=
  Probing.dist_of_reaches hlinear hN (hinv.reaches b i hocc) (hinv.bucket b i hocc)

theorem homeSorted [DecidableEq Key] (hinv : Inv t) {keys : List Key} (h : Probing.Loaded (forget t) keys)
    {pos : Key → Fin c.directorySize} (hpos : Probing.Positions (forget t) keys pos) :
    Circle.HomeSorted keys.toFinset c.home pos := by
  intro k hk e he hpast
  rw [List.mem_toFinset] at hk he
  obtain ⟨i, hi⟩ := hpos k hk
  obtain ⟨i', hi'⟩ := hpos e he
  change (t (pos k) i).key = k at hi
  change (t (pos e) i').key = e at hi'
  have hocc : Occupied t (pos k) i := by rw [Occupied, hi]; exact ((h.mem_iff k).mp hk).1
  have hocc' : Occupied t (pos e) i' := by rw [Occupied, hi']; exact ((h.mem_iff e).mp he).1
  have hdist := hinv.dist_eq_psl hlinear hN hocc
  have hdist' := hinv.dist_eq_psl hlinear hN hocc'
  have hfull := (hinv.full (pos k) i hocc _ (by rw [← hdist, hi]; exact hpast) i').2
  rw [hi, Probing.bucketAt_dist hlinear hN, ← hdist', hi'] at hfull
  exact hfull

end

end Robinhood

/-- **With linear probing the two tables are two layouts of one occupancy.** -/
theorem linear_layouts {Key Hash Payload : Type} [DecidableEq Key] (c : Config Key Hash)
    (hlinear : c.probingfn = .linear) (hpos : 1 ≤ c.directorySize)
    (memory : Probing.Table c Payload) (memory' : Robinhood.Table c Payload)
    (t₀ : Probing.Table c Payload) (t₀' : Robinhood.Table c Payload)
    (hconstruct : Probing.construct c memory = .value t₀) (hconstruct' : Robinhood.construct c memory' = .value t₀')
    (keys keys' : List Key) (hperm : keys'.Perm keys) (hnodup : keys.Nodup)
    (hkeys : ∀ key ∈ keys, key ≠ c.sentinel) (hlen : keys.length ≤ c.directorySize * c.bucketSize)
    (payload payload' : Key → Payload) :
    let t := ((Probing.store c).run t₀ (inserts payload keys)).2
    let t' := ((Robinhood.store c).run t₀' (inserts payload' keys')).2
    (∀ b, Probing.occupancy t b = Robinhood.occupancy t' b) ∧
    ∀ dataset dataset' : List Key, dataset.Perm keys → dataset'.Perm keys →
      (Probing.lookupStatistics c t dataset).totalPsl = (Robinhood.lookupStatistics c t' dataset').totalPsl ∧
      (Robinhood.lookupStatistics c t' dataset').maxPsl ≤ (Probing.lookupStatistics c t dataset).maxPsl := by
  intro t t'
  obtain ⟨hN, rfl⟩ := Probing.construct_eq hconstruct
  obtain ⟨-, rfl⟩ := Robinhood.construct_eq hconstruct'
  have hmem : ∀ key ∈ keys', key ≠ c.sentinel := fun key hkey => hkeys key (hperm.subset hkey)
  have h : Probing.Loaded t keys := Probing.loaded_run hlinear hN hpos memory payload keys hnodup hkeys hlen
  obtain ⟨hinv', h'⟩ := Robinhood.loaded_run hlinear hN hpos memory' payload' keys'
    (hperm.nodup_iff.mpr hnodup) hmem (hperm.length_eq ▸ hlen)
  change Probing.Loaded (Robinhood.forget t') keys' at h'
  obtain ⟨pos, hpositions⟩ := h.exists_positions
  obtain ⟨pos', hpositions'⟩ := h'.exists_positions
  have hset : keys'.toFinset = keys.toFinset := List.toFinset_eq_of_perm _ _ hperm
  have hpacked := h.packed hlinear hN hpositions
  have hpacked' := h'.packed hlinear hN hpositions'
  have hsorted := Robinhood.homeSorted hlinear hN hinv' h' hpositions'
  rw [hset] at hpacked' hsorted
  refine ⟨fun b => ?_, fun dataset dataset' hd hd' => ⟨?_, ?_⟩⟩
  · rw [← h.load_eq hpositions, ← Robinhood.occupancy_forget, ← h'.load_eq hpositions', hset]
    exact hpacked.load_eq hpacked' b
  · rw [← Robinhood.lookupStatistics_forget, h.totalPsl_eq hlinear hN hpositions hnodup hd,
      h'.totalPsl_eq hlinear hN hpositions' (hperm.nodup_iff.mpr hnodup) (hd'.trans hperm.symm), hset,
      hpacked.sum_dist_eq hpacked']
  · rw [← Robinhood.lookupStatistics_forget, h'.maxPsl_le_iff hlinear hN hpositions' (hd'.trans hperm.symm)]
    intro key hkey
    have hkeyset : key ∈ keys.toFinset := hset ▸ List.mem_toFinset.mpr hkey
    obtain ⟨e, he, hle⟩ := hpacked'.exists_dist_le hsorted hpacked hkeyset
    exact hle.trans ((h.maxPsl_le_iff hlinear hN hpositions hd _).mp le_rfl e (List.mem_toFinset.mp he))

/-- Three buckets of one slot and the sentinel `3`, with the keys `0`, `1`, `2` at home in the buckets `0`, `1`,
`0`. -/
def threeBuckets : Config (Fin 4) (Fin 4) where
  directorySize := 3
  directorySize_lt := three_lt_two_pow
  bucketSize := 1
  hashfn := id
  reductionfn h := if h = 1 then 1 else 0
  probingfn := .linear
  sentinel := 3

/-- Inserted in the order `0`, `1`, `2` the last key goes two steps, in robin hood order every key goes at most
one. -/
theorem linear_layouts_three_buckets :
    let t := ((Probing.store threeBuckets).run (Probing.clear threeBuckets fun _ _ => { key := 0, payload := 9 })
      (inserts (fun _ => 5) [0, 1, 2])).2
    let t' := ((Robinhood.store threeBuckets).run
      (Robinhood.clear threeBuckets fun _ _ => { key := 0, psl := 3, payload := 9 }) (inserts (fun _ => 6) [2, 1, 0])).2
    (Probing.lookupStatistics threeBuckets t [0, 1, 2]).totalPsl =
      (Robinhood.lookupStatistics threeBuckets t' [1, 0, 2]).totalPsl :=
  ((linear_layouts threeBuckets rfl (by decide) (fun _ _ => { key := 0, payload := 9 })
    (fun _ _ => { key := 0, psl := 3, payload := 9 }) _ _ rfl rfl [0, 1, 2] [2, 1, 0] (by decide) (by decide)
    (by decide) (by decide) (fun _ => (5 : ℕ)) fun _ => 6).2 [0, 1, 2] [1, 0, 2] (by decide) (by decide)).1

end HashingArchive.Hashtable
