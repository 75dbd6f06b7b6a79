import HashingArchive.Join.ImvBuild
import HashingArchive.Join.Scalar

/-!
# The vectorised probe

Every tuple under way has the matches still to be found on the chain behind it. Together with those found
and those of the tuples not yet read they make up the join (`Probing.found`).
-/

namespace HashingArchive.Join

open HashingArchive.Loop HashingArchive.Lanes

variable {n : ℕ}

/-! ### Matches to come -/

open Classical in
/-- The chain from a pointer on. -/
noncomputable def chainFrom (m : Memory n) (p : Option (Addr n)) : List (Addr n) :=
  if h : ∃ l, Linked m p l then h.choose else []

theorem chainFrom_eq {m : Memory n} {p : Option (Addr n)} {l : List (Addr n)} (h : Linked m p l) :
    chainFrom m p = l := by
  have hex : ∃ l, Linked m p l := ⟨l, h⟩
  rw [chainFrom, dif_pos hex]
  exact hex.choose_spec.unique h

/-- The matches of a tuple on the chain from where it is. -/
noncomputable def matchesFrom (m : Memory n) (x : Item n) : ℕ := (tuplesOf m (chainFrom m x.2)).count x.1

/-- The matches of a tuple that has not looked at its head. -/
noncomputable def matchesOf (idx : Tuple → Fin n) (m : Memory n) (t : Tuple) : ℕ :=
  if (m.bucket (.head (idx t))).count = 0 then 0 else matchesFrom m (atHead idx t)

/-- The buckets a tuple has still to visit. -/
noncomputable def stepsFrom (m : Memory n) (x : Item n) : ℕ := (chainFrom m x.2).length

/-- The matches found and those to come. -/
structure Probing (idx : Tuple → Fin n) (m : Memory n) (total w found : ℕ) (ahead behind : Multiset (Item n))
    (rest : List Tuple) : Prop where
  bound : w = (ahead.map (stepsFrom m)).sum + (behind.map (stepsFrom m)).sum +
    (rest.map fun t => stepsFrom m (atHead idx t) + 1).sum
  heads : ∀ x ∈ ahead, x = atHead idx x.1
  linked : ∀ x ∈ behind, ∃ a l, Linked m x.2 (a :: l)
  found : found + (ahead.map fun x => matchesOf idx m x.1).sum + (behind.map (matchesFrom m)).sum +
    (rest.map (matchesOf idx m)).sum = total

section
variable {idx : Tuple → Fin n} {m : Memory n} {total w found : ℕ} {ahead behind : Multiset (Item n)}
  {rest : List Tuple}

theorem Probing.of_load (h : Probing idx m total w found ahead behind rest) (hne : rest ≠ []) :
    ∃ w' < w, Probing idx m total w' found (ahead + ((rest.take 8).map (atHead idx) : Multiset (Item n))) behind
      (rest.drop 8) := by
  have hlen : 0 < (rest.take 8).length := by
    have hpos := List.length_pos_iff.mpr hne
    rw [List.length_take]
    omega
  have hsplit : ∀ f : Tuple → ℕ, (rest.map f).sum = ((rest.take 8).map f).sum + ((rest.drop 8).map f).sum := by
    intro f
    rw [← List.sum_append, ← List.map_append, List.take_append_drop]
  refine ⟨_, ?_, rfl, fun x hx => ?_, h.linked, ?_⟩
  · have hone : ((rest.take 8).map fun t => stepsFrom m (atHead idx t) + 1).sum =
        ((rest.take 8).map fun t => stepsFrom m (atHead idx t)).sum + (rest.take 8).length := by
      rw [List.sum_map_add, List.map_const', List.sum_replicate, smul_eq_mul, mul_one]
    rw [h.bound, hsplit, hone, Multiset.map_add, Multiset.sum_add, Multiset.map_coe, Multiset.sum_coe, List.map_map]
    simp only [Function.comp_def]
    omega
  · rcases Multiset.mem_add.mp hx with hahead | hread
    · exact h.heads x hahead
    · obtain ⟨t, -, rfl⟩ := List.mem_map.mp (Multiset.mem_coe.mp hread)
      rfl
  · rw [← h.found, hsplit, Multiset.map_add, Multiset.sum_add, Multiset.map_coe, Multiset.sum_coe, List.map_map]
    change found + (_ + ((rest.take 8).map (matchesOf idx m)).sum) + _ + _ = _
    omega

/-- A sum over the tuples of a state, lane by lane. -/
theorem SIMDState.sum_items (st : SIMDState n) (f : Item n → ℕ) : ((st.items : Multiset (Item n)).map f).sum =
    ((indices st.mHaveTuple).map fun i => f (st.key i, st.htOff i)).sum :=
  sum_lanes _ _ f

/-- Stage 2: the tuples with empty heads have no match. -/
theorem Probing.of_heads {st : SIMDState n} {q : Mask 8}
    (h : Probing idx m total w found (st.items + ahead) behind rest)
    (hlink : ∀ i, ∃ l, Linked m (some (.head i)) (.head i :: l))
    (hq : ∀ i, st.mHaveTuple i = true → (q i = true ↔ (m.bucket (.head (idx (st.key i)))).count ≠ 0)) :
    ∃ w' ≤ w, Probing idx m total w' found ahead
      (({ st with mHaveTuple := kand q st.mHaveTuple, stage := 0 } : SIMDState n).items + behind) rest := by
  have hitem : ∀ i, st.mHaveTuple i = true → (st.key i, st.htOff i) = atHead idx (st.key i) := fun i hi =>
    h.heads _ (Multiset.mem_add.mpr (Or.inl (SIMDState.mem_items.mpr ⟨i, hi, rfl⟩)))
  have hsum : ∀ f : Item n → ℕ,
      ((({ st with mHaveTuple := kand q st.mHaveTuple, stage := 0 } : SIMDState n).items :
          Multiset (Item n)).map f).sum =
        ((indices st.mHaveTuple).map fun i => if q i = true then f (st.key i, st.htOff i) else 0).sum :=
    fun f => sum_lanes_kand q st.mHaveTuple (fun i => (st.key i, st.htOff i)) f
  refine ⟨_, ?_, rfl, fun x hx => h.heads x (Multiset.mem_add.mpr (Or.inr hx)), fun x hx => ?_, ?_⟩
  · have hle : ((indices st.mHaveTuple).map fun i => if q i = true then stepsFrom m (st.key i, st.htOff i) else 0).sum ≤
        ((indices st.mHaveTuple).map fun i => stepsFrom m (st.key i, st.htOff i)).sum := by
      apply List.sum_le_sum
      intro i _
      split_ifs
      · exact le_rfl
      · exact Nat.zero_le _
    rw [h.bound, Multiset.map_add, Multiset.map_add, Multiset.sum_add, Multiset.sum_add, hsum, st.sum_items]
    omega
  · rcases Multiset.mem_add.mp hx with hleft | hbehind
    · obtain ⟨i, hi, heq⟩ := SIMDState.mem_items.mp hleft
      change (q i && st.mHaveTuple i) = true at hi
      rw [Bool.and_eq_true] at hi
      have hx : x = atHead idx (st.key i) := heq.symm.trans (hitem i hi.2)
      obtain ⟨l, hl⟩ := hlink (idx (st.key i))
      rw [hx]
      exact ⟨_, l, hl⟩
    · exact h.linked x hbehind
  · -- a lane whose head is empty has nothing to come
    have hlanes : ((indices st.mHaveTuple).map fun i =>
        if q i = true then matchesFrom m (st.key i, st.htOff i) else 0) =
          (indices st.mHaveTuple).map fun i => matchesOf idx m (st.key i) := by
      apply List.map_congr_left
      intro i hi
      rw [matchesOf, hitem i (mem_indices.mp hi), if_congr (hq i (mem_indices.mp hi)) rfl rfl, ite_not]
    have hkeys : ((st.items : Multiset (Item n)).map fun x => matchesOf idx m x.1).sum =
        ((indices st.mHaveTuple).map fun i => matchesOf idx m (st.key i)).sum := st.sum_items _
    rw [← h.found, Multiset.map_add, Multiset.map_add, Multiset.sum_add, Multiset.sum_add, hsum, hlanes, hkeys]
    omega

/-- One bucket of a chain: a step less to come, and a match less if the bucket has the tuple. -/
theorem chainFrom_bucket {m : Memory n} {key : Tuple} {a : Addr n} {l : List (Addr n)} {p p' : Option (Addr n)}
    {isMatch : Bool} (hlink : Linked m p (a :: l)) (hmatch : isMatch = true ↔ (m.bucket a).tuple = key)
    (hnext : p' = (m.bucket a).next) :
    stepsFrom m (key, p) = 1 + (if p'.isSome = true then stepsFrom m (key, p') else 0) ∧
      matchesFrom m (key, p) = (if isMatch = true then 1 else 0) +
        (if p'.isSome = true then matchesFrom m (key, p') else 0) := by
  have hlink' : Linked m p' l := hnext ▸ hlink.2
  rw [stepsFrom, matchesFrom, chainFrom_eq hlink, List.length_cons, tuplesOf_cons, List.count_cons,
    if_congr hmatch rfl rfl]
  simp only [stepsFrom, matchesFrom, chainFrom_eq hlink', beq_iff_eq]
  cases p' with
  | some a' => exact ⟨add_comm _ _, add_comm _ _⟩
  | none =>
    rw [hlink'.eq_nil]
    exact ⟨rfl, add_comm _ _⟩

/-- A chain that goes on after its first bucket has a next one. -/
theorem Linked.next_of_isSome {m : Memory n} {a : Addr n} {l : List (Addr n)} {p p' : Option (Addr n)}
    (hlink : Linked m p (a :: l)) (hnext : p' = (m.bucket a).next) (hsome : p'.isSome = true) :
    ∃ a' l', Linked m p' (a' :: l') := by
  have hlink' : Linked m p' l := hnext ▸ hlink.2
  cases l with
  | nil =>
    rw [show p' = none from hlink'] at hsome
    exact absurd hsome (by simp)
  | cons a' l => exact ⟨a', l, hlink'⟩

/-- Stage 0: a bucket is compared and the tuples go on to the next one. -/
theorem Probing.of_buckets {st : SIMDState n} (isMatch : Mask 8) (htOff : Fin 8 → Option (Addr n))
    (h : Probing idx m total w found ahead (st.items + behind) rest) (hne : st.mHaveTuple ≠ noLanes 8)
    (hnext : ∀ i a, st.mHaveTuple i = true → st.htOff i = some a →
      (isMatch i = true ↔ (m.bucket a).tuple = st.key i) ∧ htOff i = (m.bucket a).next) :
    ∃ w' < w, Probing idx m total w' (found + popcnt (kand isMatch st.mHaveTuple)) ahead
      (({ st with htOff := htOff, mHaveTuple := kand (fun i => (htOff i).isSome) st.mHaveTuple } : SIMDState n).items +
        behind) rest := by
  have hlinked : ∀ i, st.mHaveTuple i = true → ∃ a l, Linked m (st.htOff i) (a :: l) := fun i hi =>
    h.linked _ (Multiset.mem_add.mpr (Or.inl (SIMDState.mem_items.mpr ⟨i, hi, rfl⟩)))
  have hsum : ∀ f : Item n → ℕ,
      ((({ st with htOff := htOff, mHaveTuple := kand (fun i => (htOff i).isSome) st.mHaveTuple } :
        SIMDState n).items : Multiset (Item n)).map f).sum =
        ((indices st.mHaveTuple).map fun i => if (htOff i).isSome = true then f (st.key i, htOff i) else 0).sum :=
    fun f => sum_lanes_kand (fun i => (htOff i).isSome) st.mHaveTuple (fun i => (st.key i, htOff i)) f
  -- one bucket less for each lane
  have hlane : ∀ i, st.mHaveTuple i = true →
      stepsFrom m (st.key i, st.htOff i) =
        1 + (if (htOff i).isSome = true then stepsFrom m (st.key i, htOff i) else 0) ∧
      matchesFrom m (st.key i, st.htOff i) = (if isMatch i = true then 1 else 0) +
        (if (htOff i).isSome = true then matchesFrom m (st.key i, htOff i) else 0) := by
    intro i hi
    obtain ⟨a, l, hl⟩ := hlinked i hi
    obtain ⟨hmatch, hoff⟩ := hnext i a hi hl.1
    exact chainFrom_bucket hl hmatch hoff
  have hsteps : ((indices st.mHaveTuple).map fun i => stepsFrom m (st.key i, st.htOff i)).sum =
      popcnt st.mHaveTuple +
        ((indices st.mHaveTuple).map fun i =>
          if (htOff i).isSome = true then stepsFrom m (st.key i, htOff i) else 0).sum := by
    rw [List.map_congr_left fun i hi => (hlane i (mem_indices.mp hi)).1, List.sum_map_add, List.map_const',
      List.sum_replicate, smul_eq_mul, mul_one]
    rfl
  have hmatches : ((indices st.mHaveTuple).map fun i => matchesFrom m (st.key i, st.htOff i)).sum =
      popcnt (kand isMatch st.mHaveTuple) +
        ((indices st.mHaveTuple).map fun i =>
          if (htOff i).isSome = true then matchesFrom m (st.key i, htOff i) else 0).sum := by
    rw [List.map_congr_left fun i hi => (hlane i (mem_indices.mp hi)).2, List.sum_map_add, popcnt_kand]
  refine ⟨_, ?_, rfl, h.heads, fun x hx => ?_, ?_⟩
  · have hpos : popcnt st.mHaveTuple ≠ 0 := fun hzero => hne (popcnt_eq_zero_iff.mp hzero)
    rw [h.bound, Multiset.map_add, Multiset.map_add, Multiset.sum_add, Multiset.sum_add, hsum, st.sum_items, hsteps]
    omega
  · rcases Multiset.mem_add.mp hx with hleft | hbehind
    · obtain ⟨i, hi, rfl⟩ := SIMDState.mem_items.mp hleft
      change ((htOff i).isSome && st.mHaveTuple i) = true at hi
      rw [Bool.and_eq_true] at hi
      obtain ⟨a, l, hl⟩ := hlinked i hi.2
      exact hl.next_of_isSome (hnext i a hi.2 hl.1).2 hi.1
    · exact h.linked x (Multiset.mem_add.mpr (Or.inr hbehind))
  · rw [← h.found, Multiset.map_add, Multiset.map_add, Multiset.sum_add, Multiset.sum_add, hsum, st.sum_items, hmatches]
    omega

/-- Every stage of the probe keeps the balance and works something off. -/
theorem probe_sound (idx : Tuple → Fin n) (m : Memory n) (relS : List Tuple) (total : ℕ)
    (hlink : ∀ i, ∃ l, Linked m (some (.head i)) (.head i :: l)) :
    Sound idx relS (probeStage idx m relS) (Probing idx m total) where
  read s k h := by rw [probeStage, h]
  skip s k h := by rw [probeStage, h]
  load w found ahead behind rest hne h := h.of_load hne
  heads s k w ahead behind rest hk hstage hmask hready h := by
    have hhead : ∀ i, (s.state k).mHaveTuple i = true →
        (s.state k).htOff i = some (.head (idx ((s.state k).key i))) := fun i hi =>
      congrArg Prod.snd (h.heads _ (Multiset.mem_add.mpr (Or.inl (SIMDState.mem_items.mpr ⟨i, hi, rfl⟩))))
    have hfault : ¬ (s.state k).faults := SIMDState.not_faults hhead
    obtain ⟨w', hw, h'⟩ := h.of_heads hlink (q := fun i =>
        m.gather (s.state k).mHaveTuple (s.state k).htOff (fun b => (b.count : ℤ)) (-1) i != 0) fun i hi => by
      rw [m.gather_some _ _ hi (hhead i hi), bne_iff_ne, Ne, Nat.cast_eq_zero]
    refine ⟨_, _, _, ?_, (hready _ _).probeSettle ?_, w', hw, h'⟩
    · rw [probeStage, hstage]
      exact if_neg hfault
    · exact congrArg SIMDState.stage (Machine.set_state_self s k _)
  buckets s k w ahead behind rest hstage hmask hready h := by
    have hlinked : ∀ i, (s.state k).mHaveTuple i = true → ∃ a, (s.state k).htOff i = some a := fun i hi => by
      obtain ⟨a, l, hl⟩ :=
        h.linked _ (Multiset.mem_add.mpr (Or.inl (SIMDState.mem_items.mpr ⟨i, hi, rfl⟩)))
      exact ⟨a, hl.1⟩
    have hfault : ¬ (s.state k).faults := by
      intro ⟨i, hi, hnone⟩
      obtain ⟨a, ha⟩ := hlinked i hi
      rw [ha] at hnone
      exact absurd hnone (by simp)
    obtain ⟨w', hw, h'⟩ := h.of_buckets
      (fun i => (s.state k).key i == m.gather (s.state k).mHaveTuple (s.state k).htOff Bucket.tuple (-1) i)
      (m.gather (s.state k).mHaveTuple (s.state k).htOff Bucket.next none) hmask fun i a hi ha => by
        rw [m.gather_some _ _ hi ha, m.gather_some _ _ hi ha, beq_iff_eq]
        exact ⟨eq_comm, rfl⟩
    have hpass : probeStage idx m relS s k = probeBuckets m s k := by rw [probeStage, hstage]
    refine ⟨_, _, _, hpass.trans (if_neg hfault), (hready _ _ ?_).probeSettle ?_, w', hw, h'⟩
    · exact hstage
    · exact (congrArg SIMDState.stage (Machine.set_state_self s k _)).trans hstage

end

/-! ### The join -/

/-- The number of pairs of a tuple of R and a tuple of S with equal lanes. -/
def laneCardinality (relR relS : List Tuple) : ℕ := (relR ×ˢ relS).countP fun p => p.1 = p.2

theorem laneCardinality_eq_sum (relR relS : List Tuple) :
    laneCardinality relR relS = (relS.map fun t => relR.count t).sum := by
  have hcount : (fun t => relR.count t) = fun t => relR.countP fun r => t = r := by
    funext t
    rw [List.count_eq_countP]
    apply List.countP_congr
    intro r _
    rw [beq_iff_eq, decide_eq_true_iff, eq_comm]
  rw [hcount]
  exact countP_product id relR relS

/-- Without payloads equal lanes are equal keys. -/
theorem laneCardinality_eq_joinCardinality {relR relS : List Tuple} (hR : ∀ t ∈ relR, t = Tuple.mk t.key 0)
    (hS : ∀ t ∈ relS, t = Tuple.mk t.key 0) : laneCardinality relR relS = joinCardinality relR relS := by
  apply List.countP_congr
  intro p hp
  obtain ⟨hr, hs⟩ := List.mem_product.mp hp
  rw [decide_eq_true_iff, decide_eq_true_iff]
  constructor
  · exact fun h => congrArg Tuple.key h
  · intro h
    rw [hR p.1 hr, hS p.2 hs, h]

/-- The build ends, and every bucket holds the tuples of R that belong there. -/
theorem imv_build_returns (idx : Tuple → Fin n) (garbage : ℕ → ℕ → Bucket n) (relR : List Tuple) :
    ∃ m', HashBuildRelRPartitionImv idx (freshMemory garbage) relR m' ∧
      ∀ i, ∃ l ts, Holds m' i l ts ∧ ts.Perm (relR.filter fun t => idx t = i) := by
  have hstart : Building idx relR (2 * relR.length) (freshMemory garbage) 0 0 relR :=
    ⟨rfl, by simp, by simp, fun i => ⟨[], [], holds_fresh garbage i, by simp⟩⟩
  obtain ⟨m', w, hreturns, hend⟩ := (build_sound idx relR).returns (s :=
    { mem := freshMemory garbage
      state := fun _ => { key := fun _ => 0, htOff := fun _ => none, mHaveTuple := noLanes 8, stage := 1 }
      k := 0
      done := 0
      cur := 0 }) rfl rfl (fun _ => ⟨rfl, rfl⟩) hstart
  refine ⟨m', hreturns, fun i => ?_⟩
  obtain ⟨l, ts, hholds, hsum⟩ := hend.stored i
  exact ⟨l, ts, hholds, Multiset.coe_eq_coe.mp (by simpa using hsum)⟩

/-- The matches of a tuple on a built table. -/
theorem matchesOf_built {idx : Tuple → Fin n} {m : Memory n} {relR : List Tuple} {t : Tuple} {l : List (Addr n)}
    {ts : List Tuple} (hholds : Holds m (idx t) l ts) (hperm : ts.Perm (relR.filter fun r => idx r = idx t)) :
    matchesOf idx m t = relR.count t := by
  have hchain : chainFrom m (some (.head (idx t))) = .head (idx t) :: l := chainFrom_eq ⟨rfl, hholds.linked⟩
  have hrel : relR.count t = ts.count t := by
    rw [hperm.count_eq, List.count_filter (by simp)]
  rw [hrel, matchesOf]
  rcases hholds.holds with ⟨hcount, -, -, rfl⟩ | ⟨hcount, hts⟩
  · rw [if_pos hcount]
    rfl
  · rw [if_neg (by rw [hcount]; exact one_ne_zero), hts.count_eq, ← hchain]
    rfl

theorem imv_probe_returns {idx : Tuple → Fin n} {m : Memory n} {relR : List Tuple}
    (hbuilt : ∀ i, ∃ l ts, Holds m i l ts ∧ ts.Perm (relR.filter fun t => idx t = i)) (stack : Fin 6 → SIMDState n)
    (relS : List Tuple) : HashProbeRelSPartitionImv idx m stack relS (laneCardinality relR relS) := by
  have hlink : ∀ i, ∃ l, Linked m (some (.head i)) (.head i :: l) := by
    intro i
    obtain ⟨l, ts, hholds, -⟩ := hbuilt i
    exact ⟨l, rfl, hholds.linked⟩
  have hmatches : relS.map (matchesOf idx m) = relS.map fun t => relR.count t := by
    apply List.map_congr_left
    intro t _
    obtain ⟨l, ts, hholds, hperm⟩ := hbuilt (idx t)
    exact matchesOf_built hholds hperm
  have hstart : Probing idx m (laneCardinality relR relS) _ 0 0 0 relS :=
    ⟨rfl, by simp, by simp, by simp [laneCardinality_eq_sum, hmatches]⟩
  obtain ⟨found, w, hreturns, hend⟩ := (probe_sound idx m relS _ hlink).returns (s :=
    { mem := 0
      state := fun j => { stack j with mHaveTuple := noLanes 8, stage := 1 }
      k := 0
      done := 0
      cur := 0 }) rfl rfl (fun _ => ⟨rfl, rfl⟩) hstart
  have hfound : found = laneCardinality relR relS := by simpa using hend.found
  rw [hfound] at hreturns
  exact hreturns

/-- **The vectorised join.** The build ends on a fresh table with every tuple of R stored once, in the chain
of its own bucket, and nothing else; on that table the probe of any S ends with the number of pairs with
equal lanes, which is that of the join if there are no payloads. -/
theorem imv_join (idx : Tuple → Fin n) (garbage : ℕ → ℕ → Bucket n) (relR : List Tuple) :
    ∃ m', HashBuildRelRPartitionImv idx (freshMemory garbage) relR m' ∧
      (∀ i, ∃ l ts, Holds m' i l ts ∧ ts.Perm (relR.filter fun t => idx t = i)) ∧
      ∀ (stack : Fin 6 → SIMDState n) (relS : List Tuple),
        HashProbeRelSPartitionImv idx m' stack relS ((relR ×ˢ relS).countP fun p => p.1 = p.2) ∧
        ((∀ t ∈ relR ++ relS, t = Tuple.mk t.key 0) →
          HashProbeRelSPartitionImv idx m' stack relS (joinCardinality relR relS)) := by
  obtain ⟨m', hreturns, hbuilt⟩ := imv_build_returns idx garbage relR
  refine ⟨m', hreturns, hbuilt, fun stack relS => ⟨imv_probe_returns hbuilt stack relS, fun hpayload => ?_⟩⟩
  rw [← laneCardinality_eq_joinCardinality (fun t ht => hpayload t (List.mem_append_left _ ht)) fun t ht =>
    hpayload t (List.mem_append_right _ ht)]
  exact imv_probe_returns hbuilt stack relS

/-- Three tuples that conflict in the one bucket there is. -/
theorem imv_join_one_bucket :
    ∃ m', HashBuildRelRPartitionImv (fun _ => (0 : Fin 1))
        (freshMemory fun _ _ => { count := 0, next := none, tuple := 9 })
        [Tuple.mk 1 0, Tuple.mk 1 0, Tuple.mk 2 0] m' ∧
      ∀ stack, HashProbeRelSPartitionImv (fun _ => (0 : Fin 1)) m' stack [Tuple.mk 1 0] 2 := by
  obtain ⟨m', hbuild, -, hprobe⟩ := imv_join (fun _ => (0 : Fin 1))
    (fun _ _ => { count := 0, next := none, tuple := 9 }) [Tuple.mk 1 0, Tuple.mk 1 0, Tuple.mk 2 0]
  refine ⟨m', hbuild, fun stack => (hprobe stack [Tuple.mk 1 0]).2 ?_⟩
  simp only [List.cons_append, List.nil_append, List.forall_mem_cons, Tuple.key_mk, true_and]
  exact fun t ht => absurd ht (by simp)

end HashingArchive.Join
