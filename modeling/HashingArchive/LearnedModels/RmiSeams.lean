import HashingArchive.LearnedModels.RmiHash

/-!
# Where the second level models meet

The training buckets of a sample of distinct keys join up unless a bucket with two sample points or more comes right
after an empty one (`front_eq_knot_iff`). If they do, the second level models are the spline through the last points
of the buckets, each continued to the end of the keys its bucket gets. Beyond the last sample point of a bucket that
is an extrapolation, and it may end above the point where the next model begins. Both models pass through the last
sample point before that place (`spline_before_seam`, `spline_after_seam`), so that what each of them gains from there
is a matter of the keys and ranks of the sample: the hash keeps the order of all keys between the smallest and the
largest, whatever its range, exactly if the first does not gain more than the second (`rmi_joins_iff`).
-/

namespace HashingArchive.LearnedModels.Rmi

open HashingArchive.Library

/-- No bucket with two sample points or more comes right after an empty one. -/
def Linked (M : ℕ) (sample : List ℕ) : Prop :=
  ∀ b, b + 1 < M → level (bucketOfPoint M sample) sample.length b = [] →
    (level (bucketOfPoint M sample) sample.length (b + 1)).length ≤ 1

/-- The rank of the last sample key at or before `x`. -/
def rankAt (sample : List ℕ) (x : ℕ) : ℕ := below (key sample) sample.length (x + 1) - 1

/-- The rank of the last sample key in the buckets up to `b`. -/
def rankUpTo (M : ℕ) (sample : List ℕ) (b : ℕ) : ℕ := below (bucketOfPoint M sample) sample.length (b + 1) - 1

/-- The rank of the last sample key before bucket `b`, and of the first sample key for the first bucket. -/
def rankBefore (M : ℕ) (sample : List ℕ) (b : ℕ) : ℕ := if b = 0 then 0 else rankUpTo M sample (b - 1)

/-- The ranks for each key between these two sample keys. -/
def ranksPerKey (M : ℕ) (sample : List ℕ) (b : ℕ) : ℚ :=
  ((rankUpTo M sample b : ℚ) - rankBefore M sample b) /
    ((key sample (rankUpTo M sample b) : ℚ) - key sample (rankBefore M sample b))

/-- Where the root model changes from the bucket of `x` to another one for `x + 1`, and `k` is the last sample key at
or before `x`: going on from `k` with the first bucket's ranks for each key one gains no more up to `x` than with the
second one's up to `x + 1`, or with the latter one gets to the top. -/
def Rises (M : ℕ) (sample : List ℕ) : Prop :=
  ∀ x, key sample 0 ≤ x → x < key sample (sample.length - 1) → bucketOf M sample x ≠ bucketOf M sample (x + 1) →
    let k := key sample (rankAt sample x)
    let before := ranksPerKey M sample (bucketOf M sample x) * ((x : ℚ) - k)
    let after := ranksPerKey M sample (bucketOf M sample (x + 1)) * ((x : ℚ) + 1 - k)
    before ≤ after ∨ (sample.length : ℚ) ≤ rankAt sample x + after

/-- The spline through the last sample points of the buckets. -/
def spline (M : ℕ) (sample : List ℕ) (x : ℕ) : ℚ :=
  line (point (key sample) sample.length (rankBefore M sample (bucketOf M sample x)))
    (point (key sample) sample.length (rankUpTo M sample (bucketOf M sample x))) x

theorem rankBefore_le (M : ℕ) (sample : List ℕ) (b : ℕ) : rankBefore M sample b ≤ rankUpTo M sample b := by
  unfold rankBefore
  split_ifs
  · exact Nat.zero_le _
  · exact Nat.sub_le_sub_right (below_mono (bucketOfPoint M sample) sample.length (by omega)) 1

section
variable {M : ℕ} {sample : List ℕ} (hsorted : sample.Pairwise (· < ·)) (hne : sample ≠ [])
include hsorted

theorem sorted_le : sample.Pairwise (· ≤ ·) := hsorted.imp fun h => h.le

theorem key_strictMono {i j : ℕ} (hij : i < j) (hj : j < sample.length) : key sample i < key sample j := by
  rw [key_of_lt (by omega), key_of_lt hj]
  exact List.pairwise_iff_getElem.mp hsorted i j _ hj hij

include hne

/-- When a bucket begins with the last point of the bucket before it. -/
theorem front_eq_knot_iff (b : ℕ) :
    front (key sample) (bucketOfPoint M sample) sample.length (b + 1) =
        knot (key sample) (bucketOfPoint M sample) sample.length b ↔
      (level (bucketOfPoint M sample) sample.length b = [] →
        (level (bucketOfPoint M sample) sample.length (b + 1)).length ≤ 1) := by
  have hr := bucketOfPoint_mono (M := M) (sorted_le hsorted) hne
  have hpos := below_succ_pos (below_one_pos (M := M) (sorted_le hsorted) hne) b
  have hn := below_le (bucketOfPoint M sample) sample.length (b + 1 + 1)
  rw [level_eq_nil_iff hr, length_level hr, front, if_neg (Nat.succ_ne_zero b), Nat.add_sub_cancel]
  split_ifs with hlone
  · refine ⟨fun h => ?_, fun h => absurd (h hlone.1) (by omega)⟩
    have hlt := key_strictMono hsorted (Nat.sub_lt hpos one_pos) (by omega)
    exact absurd (congrArg Datapoint.x h) hlt.ne'
  · exact ⟨fun _ heq => by omega, fun _ => rfl⟩

/-- The training buckets join up. -/
theorem front_eq_knot (h : Linked M sample) {b : ℕ} (hb : b + 1 < M) :
    front (key sample) (bucketOfPoint M sample) sample.length (b + 1) =
      knot (key sample) (bucketOfPoint M sample) sample.length b :=
  (front_eq_knot_iff hsorted hne b).mpr (h b hb)

theorem rankUpTo_lt (b : ℕ) : rankUpTo M sample b < sample.length := by
  have hpos := below_succ_pos (below_one_pos (M := M) (sorted_le hsorted) hne) b
  have hn := below_le (bucketOfPoint M sample) sample.length (b + 1)
  unfold rankUpTo
  omega

/-- Then the models are the spline. -/
theorem predict_eq_spline (hM : 0 < M) (h : Linked M sample) (x : ℕ) : predict M sample x = spline M sample x := by
  have hlt : bucketOf M sample x < M := bucketOf_lt hM x
  have hone := below_one_pos (M := M) (sorted_le hsorted) hne
  unfold predict spline rankBefore
  split_ifs with hb
  · rw [hb, front, if_pos rfl]
    split_ifs with hfew
    · -- a single sample point, of height zero
      have hrank : rankUpTo M sample 0 = 0 := by
        rw [rankUpTo, Nat.zero_add]
        omega
      have hknot : knot (key sample) (bucketOfPoint M sample) sample.length 0 = point (key sample) sample.length 0 :=
        congrArg (point (key sample) sample.length) hrank
      rw [hknot, hrank]
      simp [line, computeSlope, point]
    · rfl
  · obtain ⟨b, hb'⟩ : ∃ b, bucketOf M sample x = b + 1 := ⟨bucketOf M sample x - 1, by omega⟩
    rw [hb', Nat.add_sub_cancel, front_eq_knot hsorted hne h (by omega)]
    rfl

/-! ### The spline -/

theorem pieces_le (b : ℕ) : (point (key sample) sample.length (rankBefore M sample b)).Le
    (point (key sample) sample.length (rankUpTo M sample b)) :=
  point_le (fun _ _ hij hj => key_mono (sorted_le hsorted) hij hj) (rankBefore_le M sample b)
    (rankUpTo_lt hsorted hne b)

/-- A key is not before the point its piece of the spline begins with. -/
theorem key_rankBefore_le {x : ℕ} (hx : key sample 0 ≤ x) :
    key sample (rankBefore M sample (bucketOf M sample x)) ≤ x := by
  have hr := bucketOfPoint_mono (M := M) (sorted_le hsorted) hne
  unfold rankBefore
  split_ifs with hb
  · exact hx
  · have hpos := below_succ_pos (below_one_pos (M := M) (sorted_le hsorted) hne) (bucketOf M sample x - 1)
    have hlast := rankUpTo_lt (M := M) hsorted hne (bucketOf M sample x - 1)
    have hlevel := (lt_below_iff hr hlast (bucketOf M sample x - 1 + 1)).mp (by unfold rankUpTo; omega)
    by_contra hlt
    have hmono := bucketOf_mono (M := M) (sorted_le hsorted) hne (not_le.mp hlt).le
    change bucketOf M sample x ≤ bucketOfPoint M sample _ at hmono
    omega

theorem spline_nonneg {x : ℕ} (hx : key sample 0 ≤ x) : 0 ≤ spline M sample x := by
  have hle := pieces_le (M := M) hsorted hne (bucketOf M sample x)
  have hfrom : (0 : ℚ) ≤ (rankBefore M sample (bucketOf M sample x) : ℚ) / sample.length :=
    div_nonneg (Nat.cast_nonneg _) (Nat.cast_nonneg _)
  exact hfrom.trans (le_line hle.1 hle.2 (key_rankBefore_le hsorted hne hx))

/-! ### Where two pieces meet -/

/-- The piece of bucket `b` from the point it begins with. -/
theorem piece_from (b x : ℕ) :
    line (point (key sample) sample.length (rankBefore M sample b))
        (point (key sample) sample.length (rankUpTo M sample b)) x =
      (rankBefore M sample b + ranksPerKey M sample b * ((x : ℚ) - key sample (rankBefore M sample b))) /
        sample.length := by
  unfold line computeSlope point ranksPerKey
  dsimp only
  rcases (rankBefore_le M sample b).lt_or_eq with hlt | heq
  · have hkey := key_strictMono hsorted hlt (rankUpTo_lt hsorted hne b)
    rw [if_neg hkey.ne, ← sub_div, div_right_comm, div_mul_eq_mul_div _ (sample.length : ℚ), ← add_div]
  · rw [heq, if_pos rfl]
    simp

/-- The same from the point it ends with. -/
theorem piece_to (b x : ℕ) :
    line (point (key sample) sample.length (rankBefore M sample b))
        (point (key sample) sample.length (rankUpTo M sample b)) x =
      (rankUpTo M sample b + ranksPerKey M sample b * ((x : ℚ) - key sample (rankUpTo M sample b))) /
        sample.length := by
  rw [piece_from hsorted hne]
  congr 1
  rcases (rankBefore_le M sample b).lt_or_eq with hlt | heq
  · have hkey : (key sample (rankUpTo M sample b) : ℚ) - key sample (rankBefore M sample b) ≠ 0 :=
      sub_ne_zero.mpr (Nat.cast_injective.ne (key_strictMono hsorted hlt (rankUpTo_lt hsorted hne b)).ne')
    have hgain : ranksPerKey M sample b *
        ((key sample (rankUpTo M sample b) : ℚ) - key sample (rankBefore M sample b)) =
          (rankUpTo M sample b : ℚ) - rankBefore M sample b := div_mul_cancel₀ _ hkey
    linear_combination hgain
  · rw [heq]

/-- No sample key lies between two neighbouring keys: up to any bucket between theirs the last sample key is the last
one before them. -/
theorem rankUpTo_eq_rankAt {x b : ℕ} (hx : bucketOf M sample x ≤ b) (hb : b < bucketOf M sample (x + 1)) :
    rankUpTo M sample b = rankAt sample x := by
  refine congrArg (· - 1) (below_congr fun j _ => ?_)
  rw [Nat.lt_succ_iff, Nat.lt_succ_iff]
  constructor
  · intro hj
    by_contra hlt
    have hmono := bucketOf_mono (M := M) (sorted_le hsorted) hne (Nat.succ_le_of_lt (not_le.mp hlt))
    change bucketOf M sample (x + 1) ≤ bucketOfPoint M sample j at hmono
    omega
  · intro hj
    exact (bucketOf_mono (sorted_le hsorted) hne hj).trans hx

section
variable {x : ℕ} (hchange : bucketOf M sample x ≠ bucketOf M sample (x + 1))
include hchange

theorem bucketOf_lt_succ : bucketOf M sample x < bucketOf M sample (x + 1) :=
  lt_of_le_of_ne (bucketOf_mono (sorted_le hsorted) hne (Nat.le_succ x)) hchange

theorem spline_before_seam : spline M sample x =
    (rankAt sample x +
      ranksPerKey M sample (bucketOf M sample x) * ((x : ℚ) - key sample (rankAt sample x))) / sample.length := by
  have hlt := bucketOf_lt_succ hsorted hne hchange
  rw [spline, piece_to hsorted hne, rankUpTo_eq_rankAt hsorted hne le_rfl hlt]

theorem spline_after_seam : spline M sample (x + 1) =
    (rankAt sample x +
      ranksPerKey M sample (bucketOf M sample (x + 1)) * ((x : ℚ) + 1 - key sample (rankAt sample x))) /
        sample.length := by
  have hlt := bucketOf_lt_succ hsorted hne hchange
  have hbefore : rankBefore M sample (bucketOf M sample (x + 1)) = rankAt sample x := by
    rw [rankBefore, if_neg (by omega)]
    exact rankUpTo_eq_rankAt hsorted hne (by omega) (by omega)
  rw [spline, piece_from hsorted hne, hbefore, Nat.cast_add, Nat.cast_one]

end

/-- The places of neighbouring keys are in order for every size of the range exactly if the spline rises. -/
theorem forall_scale_spline_le_iff :
    (∀ full_size x y, key sample 0 ≤ x → x ≤ y → y ≤ key sample (sample.length - 1) →
      scale full_size (spline M sample x) ≤ scale full_size (spline M sample y)) ↔ Rises M sample := by
  have hn : (0 : ℚ) < sample.length := Nat.cast_pos.mpr (List.length_pos_iff.mpr hne)
  have hseam : ∀ {x}, key sample 0 ≤ x → bucketOf M sample x ≠ bucketOf M sample (x + 1) →
      ((∀ full_size, scale full_size (spline M sample x) ≤ scale full_size (spline M sample (x + 1))) ↔ _) :=
    fun hx hchange => by
      rw [forall_scale_le_iff (spline_nonneg hsorted hne (by omega)), spline_before_seam hsorted hne hchange,
        spline_after_seam hsorted hne hchange, div_le_div_iff_of_pos_right hn, add_le_add_iff_left, le_div_iff₀ hn,
        one_mul]
  constructor
  · intro h x hfirst hlast hchange
    exact (hseam hfirst hchange).mp fun full_size => h full_size x (x + 1) hfirst (by omega) (by omega)
  · intro h full_size x y hfirst hxy
    -- from `x` to `y` one key at a time
    induction y, hxy using Nat.le_induction with
    | base => exact fun _ => le_rfl
    | succ y hxy ih =>
      intro hlast
      apply (ih (by omega)).trans
      by_cases hsame : bucketOf M sample y = bucketOf M sample (y + 1)
      · have hle := pieces_le (M := M) hsorted hne (bucketOf M sample (y + 1))
        apply scale_mono
        unfold spline
        rw [hsame]
        exact line_mono hle.1 hle.2 (Nat.le_succ y)
      · exact (hseam (by omega) hsame).mpr (h y (by omega) (by omega) hsame) full_size

end

/-! ### The number of sample points -/

/-- A loop that succeeds has made a step for every element. -/
theorem exists_step_of_foldlM {α σ ε : Type} {f : σ → α → Except ε σ} {l : List α} {s s' : σ}
    (h : l.foldlM f s = .ok s') {a : α} (ha : a ∈ l) : ∃ t t', f t a = .ok t' := by
  induction l generalizing s with
  | nil => cases ha
  | cons b l ih =>
    rw [List.foldlM_cons] at h
    cases hb : f s b with
    | error e =>
      rw [hb] at h
      cases h
    | ok t =>
      rw [hb] at h
      rcases List.mem_cons.mp ha with rfl | hmem
      · exact ⟨s, t, hb⟩
      · exact ih h hmem

/-- With more sample points the counter of the fill loop overflows. -/
theorem length_lt_of_training {M : ℕ} {sample : List ℕ} (hne : sample ≠ [])
    {t : LinearImpl × Buckets × (ℕ → LinearImpl)} (h : training M sample = .ok t) : sample.length < 2 ^ 31 := by
  have hpos : 0 < sample.length := List.length_pos_iff.mpr hne
  have hfirst : sample.head? = some (sample.head hne) := List.head?_eq_some_head hne
  have hlast : sample.getLast? = some (sample.getLast hne) := List.getLast?_eq_some_getLast hne
  have hroot : LinearImpl.train [{ x := sample.head hne, y := 0 }, { x := sample.getLast hne, y := 1 }] =
      .ok (lineModel { x := sample.head hne, y := 0 } { x := sample.getLast hne, y := 1 }) := train_eq rfl rfl
  simp only [training, hfirst, hlast, hroot, bind, Except.bind] at h
  split at h
  · cases h
  · rename_i buckets hfill
    have hmem : (sample[sample.length - 1], sample.length - 1) ∈ sample.zipIdx := by
      rw [List.mem_zipIdx_iff_getElem?]
      exact List.getElem?_eq_getElem (by omega)
    obtain ⟨t, t', hstep⟩ := exists_step_of_foldlM hfill hmem
    rw [fillStep] at hstep
    dsimp only at hstep
    split_ifs at hstep with hrange hcount <;> omega

/-! ### Joining up -/

/-- Every training bucket but the first starts with the last training point of the bucket before it. -/
def JoinsUp (M : ℕ) (sample : List ℕ) : Prop :=
  ∃ root_model training_buckets models, training M sample = .ok (root_model, training_buckets, models) ∧
    ∀ b, b + 1 < M → ∃ p, (training_buckets b).getLast? = some p ∧ (training_buckets (b + 1)).head? = some p

/-- The hash keeps the order of all keys between the smallest and the largest of the sample. -/
def KeepsOrder (M : ℕ) (sample : List ℕ) : Prop :=
  ∀ full_size, ∃ rmi, RMIHash.construct M sample full_size = .ok rmi ∧
    ∀ x y, key sample 0 ≤ x → x ≤ y → y ≤ key sample (sample.length - 1) →
      ∃ hx hy, rmi.apply x = .ok hx ∧ rmi.apply y = .ok hy ∧ hx ≤ hy

section
variable {M : ℕ} {sample : List ℕ} (hsorted : sample.Pairwise (· < ·)) (hne : sample ≠ [])
include hsorted hne

theorem joinsUp_iff (hM : 0 < M) : JoinsUp M sample ↔ sample.length < 2 ^ 31 ∧ Linked M sample := by
  have hr := bucketOfPoint_mono (M := M) (sorted_le hsorted) hne
  have hone := below_one_pos (M := M) (sorted_le hsorted) hne
  constructor
  · intro ⟨root_model, training_buckets, models, htraining, hjoin⟩
    have hlength := length_lt_of_training hne htraining
    obtain ⟨s, hs, htrained⟩ := training_eq (sorted_le hsorted) hne hM hlength
    obtain ⟨-, rfl⟩ := Prod.mk.inj (Except.ok.inj (hs.symm.trans htraining))
    refine ⟨hlength, fun b hb => ?_⟩
    obtain ⟨p, hlast, hhead⟩ := hjoin b hb
    rw [show training_buckets b = _ from htrained.bucket b (by omega), getLast?_trainedBucket hr hone] at hlast
    rw [show training_buckets (b + 1) = _ from htrained.bucket (b + 1) hb, head?_trainedBucket hr] at hhead
    exact (front_eq_knot_iff hsorted hne b).mp (Option.some.inj (hhead.trans hlast.symm))
  · intro ⟨hlength, hlinked⟩
    obtain ⟨s, hs, htrained⟩ := training_eq (sorted_le hsorted) hne hM hlength
    refine ⟨root sample, s.1, s.2, hs, fun b hb =>
      ⟨knot (key sample) (bucketOfPoint M sample) sample.length b, ?_, ?_⟩⟩
    · rw [htrained.bucket b (by omega), getLast?_trainedBucket hr hone]
    · rw [htrained.bucket (b + 1) hb, head?_trainedBucket hr, front_eq_knot hsorted hne hlinked hb]

theorem keepsOrder_iff (hM : 0 < M) (hlength : sample.length < 2 ^ 31) (hlinked : Linked M sample) :
    KeepsOrder M sample ↔ Rises M sample := by
  rw [← forall_scale_spline_le_iff hsorted hne]
  apply forall_congr'
  intro full_size
  obtain ⟨rmi, hrmi, happly⟩ := construct_eq (sorted_le hsorted) hne hM hlength full_size
  have hspline : ∀ x, rmi.apply x = .ok (scale full_size (spline M sample x)) := fun x => by
    rw [happly, predict_eq_spline hsorted hne hM hlinked]
  constructor
  · intro ⟨rmi', hrmi', hmono⟩ x y hfirst hxy hlast
    obtain rfl := Except.ok.inj (hrmi.symm.trans hrmi')
    obtain ⟨hx, hy, hhx, hhy, hle⟩ := hmono x y hfirst hxy hlast
    rw [hspline] at hhx hhy
    rwa [Except.ok.inj hhx, Except.ok.inj hhy]
  · intro hmono
    exact ⟨rmi, hrmi, fun x y hfirst hxy hlast => ⟨_, _, hspline x, hspline y, hmono x y hfirst hxy hlast⟩⟩

end

/-- **The second level models join up and the hash keeps the order of all keys** exactly if the counter does not
overflow, no bucket with two sample points or more comes right after an empty one, and the ranks do not fall where
the root model changes buckets. -/
theorem rmi_joins_iff (M : ℕ) (hM : 1 ≤ M) (sample : List ℕ) (htwo : 2 ≤ sample.length)
    (hsorted : sample.Pairwise (· < ·)) :
    (JoinsUp M sample ∧ KeepsOrder M sample) ↔ sample.length < 2 ^ 31 ∧ Linked M sample ∧ Rises M sample := by
  have hne : sample ≠ [] := List.ne_nil_of_length_pos (by omega)
  rw [joinsUp_iff hsorted hne hM, and_assoc]
  refine and_congr_right fun hlength => and_congr_right fun hlinked => ?_
  exact keepsOrder_iff hsorted hne hM hlength hlinked

/-- Four neighbouring keys and two second level models. -/
theorem rmi_joins_dense : JoinsUp 2 [0, 1, 2, 3] ∧ KeepsOrder 2 [0, 1, 2, 3] := by
  have hbucket : ∀ x, bucketOf 2 [0, 1, 2, 3] x = min 1 (2 * x / 3) :=
    bucketOf_of_zero (by norm_num) (by norm_num) rfl rfl
  have hpoint : bucketOfPoint 2 [0, 1, 2, 3] = fun j => min 1 (2 * key [0, 1, 2, 3] j / 3) :=
    funext fun j => hbucket _
  refine (rmi_joins_iff 2 (by norm_num) [0, 1, 2, 3] (by simp) (by simp)).mpr ⟨by simp, ?_, ?_⟩
  · intro b hb
    obtain rfl : b = 0 := by omega
    rw [hpoint]
    decide
  · have hbelow : below (bucketOfPoint 2 [0, 1, 2, 3]) 4 1 = 2 ∧ below (bucketOfPoint 2 [0, 1, 2, 3]) 4 2 = 4 := by
      rw [hpoint]
      decide
    intro x _ hlast hchange
    have hx : x < 3 := hlast
    rw [hbucket, hbucket] at hchange
    obtain rfl : x = 1 := by omega
    have hrank : rankAt [0, 1, 2, 3] 1 = 1 := by decide
    left
    simp [hbucket, ranksPerKey, rankUpTo, rankBefore, hbelow, hrank, key]
    norm_num

/-- The keys 0, 1, 2, 9 and 10 and three second level models: the last bucket has two sample points after an empty one,
and the model of the first bucket is continued from key 2 to key 3, above the model of the second one. -/
theorem rmi_hash_drops :
    (∃ root_model training_buckets models,
      training 3 [0, 1, 2, 9, 10] = .ok (root_model, training_buckets, models) ∧
      (training_buckets 1).getLast? = some { x := 2, y := 2 / 5 } ∧
      (training_buckets 2).head? = some { x := 9, y := 3 / 5 }) ∧
    (∃ rmi, RMIHash.construct 3 [0, 1, 2, 9, 10] 9 = .ok rmi ∧ rmi.apply 3 = .ok 6 ∧ rmi.apply 4 = .ok 4) ∧
    ¬ JoinsUp 3 [0, 1, 2, 9, 10] ∧ ¬ KeepsOrder 3 [0, 1, 2, 9, 10] := by
  have hbucket : ∀ x, bucketOf 3 [0, 1, 2, 9, 10] x = min 2 (3 * x / 10) :=
    bucketOf_of_zero (by norm_num) (by norm_num) rfl rfl
  have hpoint : bucketOfPoint 3 [0, 1, 2, 9, 10] = fun j => min 2 (3 * key [0, 1, 2, 9, 10] j / 10) :=
    funext fun j => hbucket _
  have hbelow : below (bucketOfPoint 3 [0, 1, 2, 9, 10]) 5 0 = 0 ∧ below (bucketOfPoint 3 [0, 1, 2, 9, 10]) 5 1 = 3 ∧
      below (bucketOfPoint 3 [0, 1, 2, 9, 10]) 5 2 = 3 ∧ below (bucketOfPoint 3 [0, 1, 2, 9, 10]) 5 3 = 5 := by
    rw [hpoint]
    decide
  have hsorted : [0, 1, 2, 9, 10].Pairwise (· ≤ ·) := by simp
  have hr := bucketOfPoint_mono (M := 3) hsorted (by simp)
  have hone := below_one_pos (M := 3) hsorted (by simp)
  obtain ⟨s, hs, htrained⟩ := training_eq (M := 3) hsorted (by simp) (by norm_num) (by simp)
  obtain ⟨rmi, hrmi, happly⟩ := construct_eq (M := 3) hsorted (by simp) (by norm_num) (by simp) 9
  have hlast : (s.1 1).getLast? = some { x := 2, y := 2 / 5 } := by
    rw [htrained.bucket 1 (by norm_num), getLast?_trainedBucket hr hone]
    simp [knot, hbelow, point, key]
  have hhead : (s.1 2).head? = some { x := 9, y := 3 / 5 } := by
    rw [htrained.bucket 2 (by norm_num), head?_trainedBucket hr]
    simp [front, hbelow, point, key]
  have hthree : rmi.apply 3 = .ok 6 := by
    have hpredict : predict 3 [0, 1, 2, 9, 10] 3 = 3 / 5 := by
      simp [predict, hbucket, front, knot, hbelow, point, line, computeSlope, key]
      norm_num
    rw [happly, hpredict, scale, show ((9 : ℕ) + 1 : ℚ) * (3 / 5) = (6 : ℕ) by norm_num, Nat.floor_natCast]
    rfl
  have hfour : rmi.apply 4 = .ok 4 := by
    have hpredict : predict 3 [0, 1, 2, 9, 10] 4 = 2 / 5 := by
      simp [predict, hbucket, front, knot, hbelow, point, line, computeSlope, key]
    rw [happly, hpredict, scale, show ((9 : ℕ) + 1 : ℚ) * (2 / 5) = (4 : ℕ) by norm_num, Nat.floor_natCast]
    rfl
  refine ⟨⟨root [0, 1, 2, 9, 10], s.1, s.2, hs, hlast, hhead⟩, ⟨rmi, hrmi, hthree, hfour⟩, ?_, ?_⟩
  · intro hjoins
    obtain ⟨root_model, training_buckets, models, htraining, hjoin⟩ := hjoins
    obtain ⟨-, rfl⟩ := Prod.mk.inj (Except.ok.inj (hs.symm.trans htraining))
    obtain ⟨p, hp, hp'⟩ := hjoin 1 (by norm_num)
    have heq := (hlast.symm.trans hp).trans (hp'.symm.trans hhead)
    simp at heq
  · intro horder
    obtain ⟨rmi', hrmi', hmono⟩ := horder 9
    obtain rfl := Except.ok.inj (hrmi.symm.trans hrmi')
    obtain ⟨hx, hy, hhx, hhy, hle⟩ := hmono 3 4 (by decide) (by norm_num) (by decide)
    rw [hthree] at hhx
    rw [hfour] at hhy
    obtain rfl := Except.ok.inj hhx
    obtain rfl := Except.ok.inj hhy
    exact absurd hle (by norm_num)

end HashingArchive.LearnedModels.Rmi
