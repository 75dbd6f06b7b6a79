import HashingArchive.LearnedModels.Rmi
import HashingArchive.Library.Levels

/-!
# The training buckets of `RMIHash`

What the fill loop and the training loop do to the buckets, for any sample points whose second level models are
monotone in their order. `trainedBucket` is the bucket a model is trained on; its first point is `front` and its last
point is `knot`, both given by the counts of the sample points below a bucket. A bucket does not begin before the one
before it ends (`knot_le_front`), so the lines keep the order of the sample points (`line_le_line`).
-/

namespace HashingArchive.LearnedModels.Rmi

open HashingArchive.Library

/-! ### The fill loop -/

section
variable (k r : ℕ → ℕ) (n : ℕ)

/-- The `j`-th of `n` sample points. -/
def point (j : ℕ) : Datapoint where
  x := k j
  y := (j : ℚ) / n

/-- The point a bucket begins with although it belongs to the bucket before, after `m` sample points. -/
def link (m b : ℕ) : List Datapoint :=
  if b = 0 ∨ level r m b = [] then [] else ((level r m (b - 1)).getLast?.map (point k n)).toList

/-- The bucket `b` after `m` sample points. -/
def bucketAt (m b : ℕ) : List Datapoint := link k r n m b ++ (level r m b).map (point k n)

variable {k r n}

theorem bucketAt_of_nil {m b : ℕ} (h : level r m b = []) : bucketAt k r n m b = [] := by
  rw [bucketAt, link, if_pos (.inr h), h]
  rfl

theorem bucketAt_isEmpty (m b : ℕ) : (bucketAt k r n m b).isEmpty ↔ level r m b = [] := by
  constructor
  · intro h
    rw [List.isEmpty_iff, bucketAt, List.append_eq_nil_iff, List.map_eq_nil_iff] at h
    exact h.2
  · intro h
    rw [bucketAt_of_nil h]
    rfl

theorem getLast?_bucketAt (m b : ℕ) : (bucketAt k r n m b).getLast? = (level r m b).getLast?.map (point k n) := by
  by_cases h : level r m b = []
  · rw [bucketAt_of_nil h, h]
    rfl
  · rw [bucketAt, List.getLast?_append, List.getLast?_map]
    obtain ⟨j, hj⟩ := Option.ne_none_iff_exists'.mp (mt List.getLast?_eq_none_iff.mp h)
    rw [hj]
    rfl

/-- A sample point only changes its own bucket: no bucket after it has begun. -/
theorem bucketAt_succ_of_ne (hr : ∀ i j, i ≤ j → j < n → r i ≤ r j) {m b : ℕ} (hm : m < n) (hb : r m ≠ b) :
    bucketAt k r n (m + 1) b = bucketAt k r n m b := by
  unfold bucketAt link
  rw [level_succ_of_ne r m hb]
  by_cases hnil : b = 0 ∨ level r m b = []
  · rw [if_pos hnil, if_pos hnil]
  · rw [if_neg hnil, if_neg hnil, level_succ_of_ne r m]
    intro hprev
    obtain ⟨j, hj⟩ := List.exists_mem_of_ne_nil _ (not_or.mp hnil).2
    obtain ⟨hjm, hjb⟩ := (mem_level r m b).mp hj
    have hle := hr j m hjm.le hm
    have hpos := (not_or.mp hnil).1
    omega

theorem bucketAt_succ_self {m : ℕ} :
    bucketAt k r n (m + 1) (r m) =
      (if (bucketAt k r n m (r m)).isEmpty ∧ 0 < r m then (bucketAt k r n m (r m - 1)).getLast?.toList
        else bucketAt k r n m (r m)) ++ [point k n m] := by
  have hne : level r (m + 1) (r m) ≠ [] := by
    rw [level_succ_self]
    exact List.append_ne_nil_of_right_ne_nil _ (List.cons_ne_nil _ _)
  by_cases hzero : r m = 0
  · rw [if_neg (by omega), bucketAt, bucketAt, link, link, if_pos (.inl hzero), if_pos (.inl hzero), level_succ_self,
      List.map_append]
    rfl
  · have hprev : level r (m + 1) (r m - 1) = level r m (r m - 1) := level_succ_of_ne r m (by omega)
    have hlink : link k r n (m + 1) (r m) = ((level r m (r m - 1)).getLast?.map (point k n)).toList := by
      rw [link, if_neg (not_or.mpr ⟨hzero, hne⟩), hprev]
    rw [bucketAt, hlink, level_succ_self, List.map_append, ← List.append_assoc]
    congr 1
    by_cases hnil : level r m (r m) = []
    · rw [if_pos ⟨(bucketAt_isEmpty m (r m)).mpr hnil, by omega⟩, getLast?_bucketAt, hnil]
      exact List.append_nil _
    · rw [if_neg fun h => hnil ((bucketAt_isEmpty m (r m)).mp h.1), bucketAt, link, if_neg (not_or.mpr ⟨hzero, hnil⟩)]

/-- The fill loop, after the first `m` sample points. -/
theorem foldlM_fillStep {M : ℕ} {root_model : LinearImpl} (hroot : ∀ j, root_model.apply (k j) (M - 1) = r j)
    (hrange : ∀ j, r j < M) (hr : ∀ i j, i ≤ j → j < n → r i ≤ r j) (hn : n < 2 ^ 31) {m : ℕ} (hm : m ≤ n) :
    (List.range m).foldlM (fun buckets j => fillStep M n root_model buckets (k j, j)) (fun _ => []) =
      .ok (bucketAt k r n m) := by
  induction m with
  | zero =>
    show Except.ok (fun _ => []) = _
    exact congrArg Except.ok (funext fun b => (bucketAt_of_nil (level_zero r b)).symm)
  | succ m ih =>
    rw [List.range_succ, List.foldlM_append, ih (by omega)]
    show List.foldlM (fun buckets j => fillStep M n root_model buckets (k j, j)) (bucketAt k r n m) [m] = _
    rw [List.foldlM_cons, fillStep]
    dsimp only
    rw [hroot m, if_neg (not_le.mpr (hrange m)), if_neg (by omega), ← point, ← bucketAt_succ_self]
    refine congrArg Except.ok (funext fun b => ?_)
    by_cases hb : r m = b
    · subst hb
      exact Function.update_self ..
    · rw [Function.update_of_ne (Ne.symm hb), bucketAt_succ_of_ne hr (by omega) hb]

/-! ### The training buckets -/

variable (k r n)

/-- The last sample point in the buckets up to `b`. -/
def knot (b : ℕ) : Datapoint := point k n (below r n (b + 1) - 1)

/-- Where the training bucket `b` begins: at the last point before it, but for the first bucket and for one with two
points or more after an empty one. -/
def front (b : ℕ) : Datapoint :=
  if b = 0 then if below r n 1 < 2 then { x := 0, y := 0 } else point k n 0
  else if below r n (b - 1) = below r n b ∧ below r n b + 2 ≤ below r n (b + 1) then point k n (below r n b)
  else knot k r n (b - 1)

/-- The training bucket `b` when its model is trained. -/
def trainedBucket (b : ℕ) : List Datapoint :=
  fillUp (if b = 0 then { x := 0, y := 0 } else knot k r n (b - 1)) (bucketAt k r n n b)

variable {k r n}

theorem length_fillUp (p : Datapoint) (bucket : List Datapoint) : (fillUp p bucket).length = max 2 bucket.length := by
  rw [fillUp, List.length_append, List.length_replicate]
  omega

theorem fillUp_of_le {p : Datapoint} {bucket : List Datapoint} (h : 2 ≤ bucket.length) : fillUp p bucket = bucket := by
  rw [fillUp, Nat.sub_eq_zero_of_le h]
  rfl

theorem getLast?_fillUp (p : Datapoint) (bucket : List Datapoint) :
    (fillUp p bucket).getLast? = some (bucket.getLast?.getD p) := by
  cases hlast : bucket.getLast? with
  | none =>
    rw [List.getLast?_eq_none_iff.mp hlast]
    rfl
  | some q =>
    rw [fillUp, List.getLast?_append, hlast]
    rfl

theorem head?_fillUp (p : Datapoint) (bucket : List Datapoint) :
    (fillUp p bucket).head? = if bucket.length < 2 then some p else bucket.head? := by
  split_ifs with h
  · rw [fillUp, show 2 - bucket.length = 1 - bucket.length + 1 by omega, List.replicate_succ]
    rfl
  · rw [fillUp_of_le (by omega)]

section
variable (hr : ∀ i j, i ≤ j → j < n → r i ≤ r j)
include hr

theorem level_eq_nil_iff {b : ℕ} : level r n b = [] ↔ below r n b = below r n (b + 1) := by
  have hle := below_le_succ r n b
  rw [level_eq_range' hr, List.range'_eq_nil_iff]
  omega

theorem getLast?_level {b : ℕ} (h : below r n b < below r n (b + 1)) :
    (level r n b).getLast? = some (below r n (b + 1) - 1) := by
  rw [level_eq_range' hr, List.getLast?_range', if_neg (by omega)]
  congr 1
  omega

theorem head?_level {b : ℕ} (h : below r n b < below r n (b + 1)) : (level r n b).head? = some (below r n b) := by
  rw [level_eq_range' hr, List.head?_range', if_neg (by omega)]

theorem length_level (b : ℕ) : (level r n b).length = below r n (b + 1) - below r n b := by
  rw [level_eq_range' hr, List.length_range']

omit hr in
theorem length_trainedBucket (b : ℕ) : 2 ≤ (trainedBucket k r n b).length := by
  rw [trainedBucket, length_fillUp]
  exact le_max_left _ _

theorem getLast?_trainedBucket (hone : 0 < below r n 1) (b : ℕ) :
    (trainedBucket k r n b).getLast? = some (knot k r n b) := by
  have hle := below_le_succ r n b
  rw [trainedBucket, getLast?_fillUp, getLast?_bucketAt]
  rcases hle.lt_or_eq with hlt | heq
  · rw [getLast?_level hr hlt]
    rfl
  · have hb : b ≠ 0 := by
      rintro rfl
      rw [below_zero] at heq
      exact absurd heq hone.ne
    rw [(level_eq_nil_iff hr).mpr heq, if_neg hb, knot, knot, show b - 1 + 1 = b by omega, heq]
    rfl

/-- A bucket with nothing to begin with has its own points only. -/
theorem bucketAt_of_unlinked {b : ℕ} (h : b = 0 ∨ below r n (b - 1) = below r n b) :
    bucketAt k r n n b = (level r n b).map (point k n) := by
  rcases Nat.eq_zero_or_pos b with rfl | hb
  · rw [bucketAt, link, if_pos (.inl rfl)]
    rfl
  · have hnil : level r n (b - 1) = [] := (level_eq_nil_iff hr).mpr (by
      rw [h.resolve_left hb.ne', show b - 1 + 1 = b by omega])
    rw [bucketAt, link, hnil]
    split_ifs <;> rfl

/-- A bucket after one that has points begins with the last of these. -/
theorem bucketAt_of_linked {b : ℕ} (hb : 0 < b) (hprev : below r n (b - 1) < below r n b)
    (hlt : below r n b < below r n (b + 1)) :
    bucketAt k r n n b = knot k r n (b - 1) :: (level r n b).map (point k n) := by
  have hsucc : b - 1 + 1 = b := by omega
  have hlast := getLast?_level hr (show below r n (b - 1) < below r n (b - 1 + 1) by rwa [hsucc])
  have hne : level r n b ≠ [] := fun h => hlt.ne ((level_eq_nil_iff hr).mp h)
  rw [bucketAt, link, if_neg (not_or.mpr ⟨hb.ne', hne⟩), hlast]
  rfl

theorem head?_trainedBucket (b : ℕ) : (trainedBucket k r n b).head? = some (front k r n b) := by
  have hle := below_le_succ r n b
  have hlength := length_level hr b
  rw [trainedBucket, head?_fillUp]
  rcases Nat.eq_zero_or_pos b with rfl | hb
  · rw [below_zero, Nat.zero_add, Nat.sub_zero] at hlength
    rw [bucketAt_of_unlinked hr (.inl rfl), List.length_map, hlength, front, if_pos rfl, if_pos rfl]
    split_ifs with hfew
    · rfl
    · rw [List.head?_map, head?_level hr (by rw [below_zero, Nat.zero_add]; omega), below_zero]
      rfl
  · have hprev := below_mono r n (Nat.sub_le b 1)
    rw [front, if_neg hb.ne', if_neg hb.ne']
    rcases hle.lt_or_eq with hlt | heq
    · rcases hprev.lt_or_eq with hplt | hpeq
      · have hmany : ¬ (bucketAt k r n n b).length < 2 := by
          rw [bucketAt_of_linked hr hb hplt hlt, List.length_cons, List.length_map, hlength]
          omega
        rw [if_neg hmany, bucketAt_of_linked hr hb hplt hlt, if_neg fun h => hplt.ne h.1]
        rfl
      · rw [bucketAt_of_unlinked hr (.inr hpeq), List.length_map, hlength, List.head?_map, head?_level hr hlt]
        by_cases hfew : below r n (b + 1) - below r n b < 2
        · rw [if_pos hfew, if_neg fun h => by omega]
        · rw [if_neg hfew, if_pos ⟨hpeq, by omega⟩]
          rfl
    · rw [bucketAt_of_nil ((level_eq_nil_iff hr).mpr heq), if_pos (by norm_num), if_neg fun h => by omega]

/-! ### The order of the points -/

/-- The point `q` is not before `p` in either coordinate. -/
def Datapoint.Le (p q : Datapoint) : Prop := p.x ≤ q.x ∧ p.y ≤ q.y

section
variable (hk : ∀ i j, i ≤ j → j < n → k i ≤ k j) (hone : 0 < below r n 1)

include hk in
omit hr in
theorem point_le {i j : ℕ} (hij : i ≤ j) (hj : j < n) : (point k n i).Le (point k n j) := by
  refine ⟨hk i j hij hj, ?_⟩
  have hn : (0 : ℚ) ≤ n := n.cast_nonneg
  exact div_le_div_of_nonneg_right (by exact_mod_cast hij) hn

omit hr in
theorem below_succ_pos (hone : 0 < below r n 1) (b : ℕ) : 0 < below r n (b + 1) :=
  hone.trans_le (below_mono r n (by omega))

include hk hone
omit hr

theorem front_le_knot (b : ℕ) : (front k r n b).Le (knot k r n b) := by
  have hpos := below_succ_pos hone b
  have hn := below_le r n (b + 1)
  have hle := below_le_succ r n b
  unfold front
  split_ifs with hb hfew hlone
  · exact ⟨Nat.zero_le _, div_nonneg (Nat.cast_nonneg _) n.cast_nonneg⟩
  · exact point_le hk (Nat.zero_le _) (by omega)
  · exact point_le hk (by omega) (by omega)
  · refine point_le hk ?_ (by omega)
    rw [show b - 1 + 1 = b by omega]
    omega

theorem knot_le_front {b c : ℕ} (h : b < c) : (knot k r n b).Le (front k r n c) := by
  have hpos := below_succ_pos hone b
  have hle := below_mono r n (show b + 1 ≤ c from h)
  have hn := below_le r n (c + 1)
  have hc := below_le r n c
  rw [front, if_neg (by omega)]
  split_ifs with hlone
  · exact point_le hk (by omega) (by omega)
  · refine point_le hk ?_ ?_ <;> rw [show c - 1 + 1 = c by omega] <;> omega

include hr

omit hone in
theorem front_le_key {j : ℕ} (hj : j < n) : (front k r n (r j)).x ≤ k j := by
  have hlow : ¬ j < below r n (r j) := by rw [lt_below_iff hr hj]; exact lt_irrefl _
  unfold front
  split_ifs with hb hfew hlone
  · exact Nat.zero_le _
  · exact hk 0 j (Nat.zero_le _) hj
  · exact hk _ j (by omega) hj
  · refine hk _ j ?_ hj
    rw [show r j - 1 + 1 = r j by omega]
    omega

omit hone in
theorem key_le_knot {j : ℕ} (hj : j < n) : k j ≤ (knot k r n (r j)).x := by
  have hhigh : j < below r n (r j + 1) := by rw [lt_below_iff hr hj]; exact Nat.lt_succ_self _
  have hn := below_le r n (r j + 1)
  exact hk j _ (by omega) (by omega)

/-- The lines keep the order of the sample points, within a bucket and across buckets. -/
theorem line_le_line {i j : ℕ} (hij : i ≤ j) (hj : j < n) :
    line (front k r n (r i)) (knot k r n (r i)) (k i) ≤ line (front k r n (r j)) (knot k r n (r j)) (k j) := by
  have hi := front_le_knot hk hone (r i)
  have hj' := front_le_knot hk hone (r j)
  rcases (hr i j hij hj).lt_or_eq with hlt | heq
  · have hborder := knot_le_front hk hone hlt
    calc line (front k r n (r i)) (knot k r n (r i)) (k i)
      _ ≤ (knot k r n (r i)).y := line_le hi.1 hi.2 (key_le_knot hr hk (by omega))
      _ ≤ (front k r n (r j)).y := hborder.2
      _ ≤ line (front k r n (r j)) (knot k r n (r j)) (k j) := le_line hj'.1 hj'.2 (front_le_key hr hk hj)
  · rw [heq]
    exact line_mono hj'.1 hj'.2 (hk i j hij hj)

end

/-! ### The training loop -/

/-- The buckets and the models after the first `m` models are trained. -/
structure Trained (k r : ℕ → ℕ) (n m : ℕ) (s : Buckets × (ℕ → LinearImpl)) : Prop where
  bucket : ∀ b < m, s.1 b = trainedBucket k r n b
  rest : ∀ b, m ≤ b → s.1 b = if b = 0 then trainedBucket k r n 0 else bucketAt k r n n b
  model : ∀ b < m, s.2 b = lineModel (front k r n b) (knot k r n b)

omit hr in
/-- Before any model is trained the first bucket is filled up. -/
theorem trained_zero (models : ℕ → LinearImpl) : Trained k r n 0
    (Function.update (bucketAt k r n n) 0 (fillUp { x := 0, y := 0 } (bucketAt k r n n 0)), models) where
  bucket b hb := absurd hb (Nat.not_lt_zero b)
  rest b _ := by
    show Function.update (bucketAt k r n n) 0 (fillUp { x := 0, y := 0 } (bucketAt k r n n 0)) b = _
    by_cases hb : b = 0
    · subst hb
      exact Function.update_self ..
    · rw [if_neg hb, Function.update_of_ne hb]
  model b hb := absurd hb (Nat.not_lt_zero b)

theorem Trained.propagate_eq (hone : 0 < below r n 1) {m : ℕ} {s : Buckets × (ℕ → LinearImpl)}
    (h : Trained k r n m s) : propagate s.1 m = .ok (trainedBucket k r n m) := by
  have hlength := length_trainedBucket (k := k) (r := r) (n := n) m
  have hrest := h.rest m le_rfl
  rw [propagate]
  rcases Nat.eq_zero_or_pos m with rfl | hm
  · rw [hrest, if_pos rfl, if_neg (by omega)]
  · rw [if_neg hm.ne'] at hrest
    rw [if_neg hm.ne', h.bucket (m - 1) (by omega), getLast?_trainedBucket hr hone, hrest, trainedBucket,
      if_neg hm.ne']
    split_ifs with hfew
    · rfl
    · rw [fillUp_of_le (by omega)]

/-- The step lemma. -/
theorem Trained.step (hone : 0 < below r n 1) {m : ℕ} {s : Buckets × (ℕ → LinearImpl)} (h : Trained k r n m s) :
    ∃ s', trainStep s m = .ok s' ∧ Trained k r n (m + 1) s' := by
  have hlength := length_trainedBucket (k := k) (r := r) (n := n) m
  refine ⟨(Function.update s.1 m (trainedBucket k r n m),
    Function.update s.2 m (lineModel (front k r n m) (knot k r n m))), ?_, ?_, ?_, ?_⟩
  · rw [trainStep, h.propagate_eq hr hone]
    show (if (trainedBucket k r n m).length < 2 then _ else _) = _
    rw [if_neg (by omega), train_eq (head?_trainedBucket hr m) (getLast?_trainedBucket hr hone m)]
    rfl
  · intro b hb
    rcases Nat.lt_succ_iff_lt_or_eq.mp hb with hlt | rfl
    · exact (Function.update_of_ne hlt.ne _ _).trans (h.bucket b hlt)
    · exact Function.update_self ..
  · intro b hb
    exact (Function.update_of_ne (by omega) _ _).trans (h.rest b (by omega))
  · intro b hb
    rcases Nat.lt_succ_iff_lt_or_eq.mp hb with hlt | rfl
    · exact (Function.update_of_ne hlt.ne _ _).trans (h.model b hlt)
    · exact Function.update_self ..

/-- The run lemma. -/
theorem foldlM_trainStep (hone : 0 < below r n 1) {s : Buckets × (ℕ → LinearImpl)} (h : Trained k r n 0 s) (m : ℕ) :
    ∃ s', (List.range m).foldlM trainStep s = .ok s' ∧ Trained k r n m s' := by
  induction m with
  | zero => exact ⟨s, rfl, h⟩
  | succ m ih =>
    obtain ⟨s', hs', htrained⟩ := ih
    obtain ⟨s'', hstep, htrained'⟩ := htrained.step hr hone
    refine ⟨s'', ?_, htrained'⟩
    rw [List.range_succ, List.foldlM_append, hs']
    show List.foldlM trainStep s' [m] = _
    rw [List.foldlM_cons, hstep]
    rfl

end

end

end HashingArchive.LearnedModels.Rmi
