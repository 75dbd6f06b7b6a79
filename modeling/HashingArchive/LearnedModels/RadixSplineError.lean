import HashingArchive.Library.Corridor
import HashingArchive.Library.Doubles
import HashingArchive.LearnedModels.RadixSpline

/-!
# The error of the radix spline

As long as the products of key and position differences fit into the 53 bits of a double, the arithmetic of the builder
is exact and a step of it is one of the error corridor (`Sim.step`). So the estimate of every key is within `max_error`
of its first position, but for the rounding of the estimate itself (`estimate_near`), and but for the duplicates of the
largest key: the last point of the spline is at the last one of them (`radix_spline_error`).
-/

namespace HashingArchive.LearnedModels.Rs

open HashingArchive.Library

def toPoint (c : Coord) : Point ℚ := { x := c.x, y := c.y }

/-! ### Exact arithmetic -/

section
variable {rnd : ℚ → ℚ} (hr : Rounds rnd 53)
include hr

/-- What is above the precision is positive. -/
theorem ComputeOrientation_iff {dx1 dy1 dx2 dy2 : ℤ} (hinner : |dy2 * dx1| ≤ 2 ^ 53)
    (houter : |dy1 * dx2 - dy2 * dx1| ≤ 2 ^ 53) :
    (ComputeOrientation rnd dx1 dy1 dx2 dy2 = .CW ↔ 0 < dy1 * dx2 - dy2 * dx1) ∧
      (ComputeOrientation rnd dx1 dy1 dx2 dy2 = .CCW ↔ dy1 * dx2 - dy2 * dx1 < 0) := by
  have hprod : rnd ((dy2 : ℚ) * dx1 + 0) = ((dy2 * dx1 : ℤ) : ℚ) := by
    rw [← hr.exact _ hinner]
    push_cast
    rw [add_zero]
  have hexpr : fma rnd dy1 dx2 (-fma rnd dy2 dx1 0) = ((dy1 * dx2 - dy2 * dx1 : ℤ) : ℚ) := by
    rw [fma, fma, hprod, ← hr.exact _ houter]
    push_cast
    rw [sub_eq_add_neg]
  generalize dy1 * dx2 - dy2 * dx1 = z at hexpr
  have hpos : precision < (z : ℚ) ↔ 0 < z := by
    constructor
    · intro hlt
      have hz : (0 : ℚ) < z := lt_trans (by norm_num [precision]) hlt
      exact_mod_cast hz
    · intro hz
      have hone : (1 : ℚ) ≤ z := by exact_mod_cast hz
      exact lt_of_lt_of_le (by norm_num [precision]) hone
  have hneg : (z : ℚ) < -precision ↔ z < 0 := by
    constructor
    · intro hlt
      have hz : (z : ℚ) < 0 := lt_trans hlt (by norm_num [precision])
      exact_mod_cast hz
    · intro hz
      have hone : (z : ℚ) ≤ -1 := by exact_mod_cast Int.le_sub_one_of_lt hz
      exact lt_of_le_of_lt hone (by norm_num [precision])
  simp only [ComputeOrientation, hexpr]
  split_ifs with hcw hccw
  · have hz := hpos.mp hcw
    exact ⟨by simp [hz], by simp [hz.le]⟩
  · have hz := hneg.mp hccw
    exact ⟨by simp [hz.le], by simp [hz]⟩
  · have hz := hpos.not.mp hcw
    have hz' := hneg.not.mp hccw
    exact ⟨by simp [hz], by simp [hz']⟩

/-- The orientation of a point is that of the exact arithmetic, for keys up to `D` and positions up to `M` apart. -/
theorem orient_iff {D M : ℕ} (hexact : D * M ≤ 2 ^ 51) {o limit : Coord} {key y oy ly : ℕ} (hoy : o.y = oy)
    (hly : limit.y = ly) (hoM : oy ≤ M) (hlM : ly ≤ M) (hyM : y ≤ M) (hlimit : o.x ≤ limit.x) (hkey : o.x ≤ key)
    (hlD : limit.x - o.x ≤ D) (hkD : key - o.x ≤ D) (hD : 0 < D) (hM : 0 < M) :
    (orient rnd o limit key y = .CW ↔ 0 < cross (toPoint o) (toPoint limit) { x := key, y := y }) ∧
      (orient rnd o limit key y = .CCW ↔ cross (toPoint o) (toPoint limit) { x := key, y := y } < 0) := by
  have hDM : D * M ≤ 2 ^ 52 := by omega
  have hDle : D ≤ 2 ^ 52 := (Nat.le_mul_of_pos_right D hM).trans hDM
  have hMle : M ≤ 2 ^ 52 := (Nat.le_mul_of_pos_left M hD).trans hDM
  obtain ⟨dx1, hdx1⟩ : ∃ dx1 : ℤ, dx1 = limit.x - o.x := ⟨_, rfl⟩
  obtain ⟨dx2, hdx2⟩ : ∃ dx2 : ℤ, dx2 = key - o.x := ⟨_, rfl⟩
  obtain ⟨dy1, hdy1⟩ : ∃ dy1 : ℤ, dy1 = ly - oy := ⟨_, rfl⟩
  obtain ⟨dy2, hdy2⟩ : ∃ dy2 : ℤ, dy2 = y - oy := ⟨_, rfl⟩
  have habs1 : |dx1| ≤ D := by
    rw [abs_le]
    omega
  have habs2 : |dx2| ≤ D := by
    rw [abs_le]
    omega
  have habs3 : |dy1| ≤ M := by
    rw [abs_le]
    omega
  have habs4 : |dy2| ≤ M := by
    rw [abs_le]
    omega
  have hround : ∀ z : ℤ, |z| ≤ 2 ^ 52 → rnd z = z := fun z hz => hr.exact z (hz.trans (by norm_num))
  have hDM' : (M : ℤ) * D ≤ 2 ^ 52 := by
    rw [mul_comm]
    exact_mod_cast hDM
  have hprod1 : |dy1 * dx2| ≤ 2 ^ 52 := by
    rw [abs_mul]
    exact (mul_le_mul habs3 habs2 (abs_nonneg _) (by positivity)).trans hDM'
  have hprod2 : |dy2 * dx1| ≤ 2 ^ 52 := by
    rw [abs_mul]
    exact (mul_le_mul habs4 habs1 (abs_nonneg _) (by positivity)).trans hDM'
  have horient : orient rnd o limit key y = ComputeOrientation rnd dx1 dy1 dx2 dy2 := by
    have hx1 : rnd ((limit.x - o.x : ℕ) : ℚ) = dx1 := by
      rw [← hround dx1 (habs1.trans (by exact_mod_cast hDle)), hdx1, Nat.cast_sub hlimit]
      push_cast
      rfl
    have hx2 : rnd ((key - o.x : ℕ) : ℚ) = dx2 := by
      rw [← hround dx2 (habs2.trans (by exact_mod_cast hDle)), hdx2, Nat.cast_sub hkey]
      push_cast
      rfl
    have hy1 : rnd (limit.y - o.y) = dy1 := by
      rw [← hround dy1 (habs3.trans (by exact_mod_cast hMle)), hdy1, hly, hoy]
      push_cast
      rfl
    have hy2 : rnd (y - o.y) = dy2 := by
      rw [← hround dy2 (habs4.trans (by exact_mod_cast hMle)), hdy2, hoy]
      push_cast
      rfl
    rw [orient, hx1, hx2, hy1, hy2]
  have hcross : cross (toPoint o) (toPoint limit) { x := key, y := y } = ((dy1 * dx2 - dy2 * dx1 : ℤ) : ℚ) := by
    rw [cross, toPoint, toPoint, hdx1, hdx2, hdy1, hdy2, hoy, hly]
    push_cast
    ring
  have hdiff : |dy1 * dx2 - dy2 * dx1| ≤ 2 ^ 53 := by
    rw [abs_le] at hprod1 hprod2 ⊢
    constructor <;> linarith
  rw [horient, hcross, Int.cast_pos, Int.cast_lt_zero]
  exact ComputeOrientation_iff hr (hprod2.trans (by norm_num)) hdiff

end

theorem natCast_sub_eq_max (a b : ℕ) : ((a - b : ℕ) : ℚ) = max 0 ((a : ℚ) - b) := by
  rcases le_total a b with hle | hle
  · have hsub : (a : ℚ) - b ≤ 0 := sub_nonpos.mpr (by exact_mod_cast hle)
    rw [Nat.sub_eq_zero_of_le hle, Nat.cast_zero, max_eq_left hsub]
  · have hsub : 0 ≤ (a : ℚ) - b := sub_nonneg.mpr (by exact_mod_cast hle)
    rw [Nat.cast_sub hle, max_eq_right hsub]

/-! ### The builder and the corridor -/

/-- The points are those of the keys at their first positions. -/
def IsCdf (keys : List ℕ) (points : List (Point ℚ)) : Prop :=
  ∀ q, q ∈ points ↔ ∃ k ∈ keys, q = { x := k, y := keys.idxOf k }

section
variable {keys : List ℕ} {points : List (Point ℚ)} {key : ℕ}

theorem IsCdf.again (h : IsCdf keys points) (hkey : key ∈ keys) : IsCdf (keys ++ [key]) points := by
  intro q
  rw [h q]
  constructor
  · rintro ⟨k, hk, rfl⟩
    exact ⟨k, by simp [hk], by rw [List.idxOf_append_of_mem hk]⟩
  · rintro ⟨k, hk, rfl⟩
    have hmem : k ∈ keys := by
      rcases List.mem_append.mp hk with hk | hk
      · exact hk
      · rwa [List.mem_singleton.mp hk]
    exact ⟨k, hmem, by rw [List.idxOf_append_of_mem hmem]⟩

theorem IsCdf.snoc (h : IsCdf keys points) (hkey : key ∉ keys) :
    IsCdf (keys ++ [key]) (points ++ [{ x := key, y := keys.length }]) := by
  intro q
  rw [List.mem_append, List.mem_singleton, h q]
  have hnew : (keys ++ [key]).idxOf key = keys.length := by
    rw [List.idxOf_append_of_notMem hkey, List.idxOf_cons_self, Nat.add_zero]
  constructor
  · rintro (⟨k, hk, rfl⟩ | rfl)
    · exact ⟨k, by simp [hk], by rw [List.idxOf_append_of_mem hk]⟩
    · exact ⟨key, by simp, by rw [hnew]⟩
  · rintro ⟨k, hk, rfl⟩
    rcases List.mem_append.mp hk with hk | hk
    · exact .inl ⟨k, hk, by rw [List.idxOf_append_of_mem hk]⟩
    · obtain rfl := List.mem_singleton.mp hk
      exact .inr (by rw [hnew])

end

/-- The corridor the builder is in. -/
def corridor (b : Builder) (last : Coord) : Corridor ℚ where
  spline := b.spline_points.map toPoint
  last := toPoint last
  upper := toPoint b.upper_limit
  lower := toPoint b.lower_limit
  prev := toPoint b.prev_point

/-- From the second different key on the builder is in an error corridor of the points so far. -/
structure Sim (E : ℕ) (keys : List ℕ) (points : List (Point ℚ)) (last : Coord) (b : Builder) : Prop where
  tight : Tight (E : ℚ) points (corridor b last)
  cdf : IsCdf keys points
  distinct : 2 ≤ b.curr_num_distinct_keys
  upper : ∃ u : ℕ, b.upper_limit.y = u ∧ u ≤ keys.length + E
  lower : ∃ l : ℕ, b.lower_limit.y = l ∧ l ≤ keys.length + E
  upper_le : b.upper_limit.x ≤ b.prev_key
  lower_le : b.lower_limit.x ≤ b.prev_key

section
variable {rnd : ℚ → ℚ} {params : ℕ × ℕ × ℕ × ℕ × ℕ} {keys : List ℕ} {points : List (Point ℚ)} {last : Coord}
  {b b' : Builder} {N key : ℕ}

/-- The points of the spline are keys at their first positions. -/
theorem Sim.point_of_mem {E : ℕ} (h : Sim E keys points last b) {c : Coord} (hc : c ∈ b.spline_points) :
    c.x ∈ keys ∧ c.y = (keys.idxOf c.x : ℕ) := by
  obtain ⟨k, hk, heq⟩ := (h.cdf _).mp (h.tight.from_points _ (List.mem_map_of_mem hc))
  have hx : ((c.x : ℕ) : ℚ) = k := congrArg Point.x heq
  obtain rfl : c.x = k := by exact_mod_cast hx
  exact ⟨hk, congrArg Point.y heq⟩

/-- What is used of the differences of keys and positions: their products fit into a double. -/
structure Fits (b : Builder) (N : ℕ) : Prop where
  keys : b.min_key < b.max_key
  products : (b.max_key - b.min_key) * (N + b.max_error) ≤ 2 ^ 51

theorem Fits.le (h : Fits b N) : N + b.max_error ≤ 2 ^ 51 := by
  have hkeys := h.keys
  exact (Nat.le_mul_of_pos_left _ (by omega)).trans h.products

section
variable (hr : Rounds rnd 53) (hfits : Fits b N) (hN : keys.length < N)
include hr hfits hN

theorem upperAt_eq : upperAt rnd b (keys.length : ℕ) = ((keys.length + b.max_error : ℕ) : ℚ) := by
  have hle := hfits.le
  rw [upperAt, hr.natCast (show b.max_error ≤ 2 ^ 53 by omega), ← Nat.cast_add]
  exact hr.natCast (by omega)

theorem lowerAt_eq : lowerAt rnd b (keys.length : ℕ) = ((keys.length - b.max_error : ℕ) : ℚ) := by
  have hle := hfits.le
  rw [lowerAt, hr.natCast (show b.max_error ≤ 2 ^ 53 by omega)]
  split_ifs with hlt
  · have hlt' : keys.length < b.max_error := by exact_mod_cast hlt
    rw [Nat.sub_eq_zero_of_le hlt'.le, Nat.cast_zero]
  · have hge : b.max_error ≤ keys.length := by exact_mod_cast not_lt.mp hlt
    rw [← Nat.cast_sub hge]
    exact hr.natCast (by omega)

/-- The orientation of a point of the next key. -/
theorem Sim.orient_iff (h : Sim b.max_error keys points last b) (hb : Building params keys last b)
    (hkey : b.prev_key < key) (hmax : key ≤ b.max_key) {limit : Coord} {y l : ℕ} (hl : limit.y = l)
    (hle : l ≤ keys.length + b.max_error) (hlast : last.x ≤ limit.x) (hprev : limit.x ≤ b.prev_key)
    (hy : y ≤ keys.length + b.max_error) :
    (orient rnd last limit key y = .CW ↔ 0 < cross (toPoint last) (toPoint limit) { x := key, y := y }) ∧
      (orient rnd last limit key y = .CCW ↔ cross (toPoint last) (toPoint limit) { x := key, y := y } < 0) := by
  obtain ⟨hk, hky⟩ := h.point_of_mem (List.mem_of_getLast? hb.points.getLast)
  have hidx := List.idxOf_lt_length_of_mem hk
  have hmin := hb.points.min_le
  have hkeys := hfits.keys
  exact Rs.orient_iff hr hfits.products hky hl (by omega) (by omega) (by omega) hlast (by omega) (by omega) (by omega)
    (by omega) (by omega)

/-- The builder goes on with a line exactly when the exact corridor does. -/
theorem Sim.cuts_iff (h : Sim b.max_error keys points last b) (hb : Building params keys last b)
    (hkey : b.prev_key < key) (hmax : key ≤ b.max_key) :
    ¬ Cuts rnd b last key (keys.length : ℕ) ↔
      0 < cross (corridor b last).last (corridor b last).upper { x := key, y := keys.length } ∧
        cross (corridor b last).last (corridor b last).lower { x := key, y := keys.length } < 0 := by
  obtain ⟨u, hu, hule⟩ := h.upper
  obtain ⟨l, hl, hlle⟩ := h.lower
  have hupper : last.x < b.upper_limit.x := Nat.cast_lt.mp h.tight.upper_right
  have hlower : last.x < b.lower_limit.x := Nat.cast_lt.mp h.tight.lower_right
  rw [Cuts, not_or, not_not, not_not,
    (h.orient_iff hr hfits hN hb hkey hmax hu hule hupper.le h.upper_le (Nat.le_add_right _ _)).1,
    (h.orient_iff hr hfits hN hb hkey hmax hl hlle hlower.le h.lower_le (Nat.le_add_right _ _)).2]
  rfl

/-- **The second key** begins the corridor. -/
theorem sim_start (hb : Building params keys last b) (hone : b.curr_num_distinct_keys = 1)
    (hall : ∀ k ∈ keys, k = b.min_key) (hpoints : b.spline_points = [{ x := b.min_key, y := 0 }])
    (hkey : b.prev_key < key) (hadd : AddKey rnd b key = some b') :
    ∃ points, b'.spline_points.getLast? = some { x := b.min_key, y := 0 } ∧
      Sim b'.max_error (keys ++ [key]) points { x := b.min_key, y := 0 } b' := by
  have hle := hfits.le
  have hprev : b.prev_key = b.min_key := hall _ (List.mem_of_getLast? hb.prev_key)
  have hposition : rnd (b.prev_position + 1 : ℕ) = keys.length := by
    rw [hb.position]
    exact hr.natCast (by omega)
  rw [AddKey_second rnd hb.num_ne (by omega) hone, hposition, upperAt_eq hr hfits hN, lowerAt_eq hr hfits hN] at hadd
  obtain rfl := Option.some.inj hadd
  have hlt : (b.min_key : ℚ) < key := by exact_mod_cast hprev ▸ hkey
  have hnotmem : key ∉ keys := fun hmem => absurd (hall key hmem) (by omega)
  have hcdf : IsCdf keys [{ x := b.min_key, y := 0 }] := by
    have hmem := List.mem_of_head? hb.first
    have hzero : keys.idxOf b.min_key = 0 := by
      obtain ⟨rest, hrest⟩ := List.head?_eq_some_iff.mp hb.first
      rw [hrest, List.idxOf_cons_self]
    intro q
    rw [List.mem_singleton]
    constructor
    · rintro rfl
      exact ⟨b.min_key, hmem, by rw [hzero, Nat.cast_zero]⟩
    · rintro ⟨k, hk, rfl⟩
      rw [hall k hk, hzero, Nat.cast_zero]
  refine ⟨_, by simp [hpoints], ?_, hcdf.snoc hnotmem, ?_, ⟨_, rfl, by simp⟩, ⟨_, rfl, by simp; omega⟩, le_rfl,
    le_rfl⟩
  · have htight := tight_start (E := (b.max_error : ℚ)) (p := { x := b.min_key, y := 0 })
      (q := { x := key, y := keys.length }) (by positivity) hlt (by positivity)
    simpa [corridor, toPoint, Corridor.start, hpoints, natCast_sub_eq_max] using htight
  · show 2 ≤ b.curr_num_distinct_keys + 1
    omega

/-- **The step lemma**: a further key is a step of the corridor. -/
theorem Sim.step (h : Sim b.max_error keys points last b) (hb : Building params keys last b)
    (hkey : b.prev_key < key) (hmax : key ≤ b.max_key)
    (hadd : AddKey rnd b key = some b') :
    ∃ last' points', b'.spline_points.getLast? = some last' ∧ Sim b'.max_error (keys ++ [key]) points' last' b' := by
  have hle := hfits.le
  have hdistinct := h.distinct
  have hposition : rnd (b.prev_position + 1 : ℕ) = keys.length := by
    rw [hb.position]
    exact hr.natCast (by omega)
  have hnotmem : key ∉ keys := fun hmem => absurd (hb.le_prev key hmem) (not_le.mpr hkey)
  have hcuts := h.cuts_iff hr hfits hN hb hkey hmax
  have hprevx : b.prev_point.x = b.prev_key := by
    obtain ⟨hone, -⟩ | ⟨-, -, hprev, -⟩ := hb.recent
    · omega
    · exact hprev
  have hright : (corridor b last).prev.x < (key : ℚ) := by
    show (b.prev_point.x : ℚ) < key
    rw [hprevx]
    exact_mod_cast hkey
  have htight := h.tight.step (E := (b.max_error : ℚ)) (p := { x := (key : ℚ), y := (keys.length : ℚ) })
    (by positivity) hright (by positivity)
  by_cases hcut : Cuts rnd b last key (keys.length : ℕ)
  · have hnot := hcuts.not.mp (not_not.mpr hcut)
    rw [AddKey_cut rnd hb.num_ne hkey.ne' (by omega) hb.points.getLast (by rwa [hposition]), hposition,
      upperAt_eq hr hfits hN, lowerAt_eq hr hfits hN] at hadd
    obtain ⟨b₁, hb₁, rfl⟩ := Option.map_eq_some_iff.mp hadd
    have heq := eq_of_AddKeyToSpline hb₁
    rw [heq]
    refine ⟨b.prev_point, _, by simp, ?_, h.cdf.snoc hnotmem, ?_, ⟨_, rfl, by simp⟩, ⟨_, rfl, by simp; omega⟩, le_rfl,
      le_rfl⟩
    · rw [Corridor.step, if_neg hnot] at htight
      simpa [corridor, toPoint, natCast_sub_eq_max] using htight
    · show 2 ≤ b.curr_num_distinct_keys + 1
      omega
  · have hin := hcuts.mp hcut
    obtain ⟨u, hu, hule⟩ := h.upper
    obtain ⟨l, hl, hlle⟩ := h.lower
    have hupper : last.x < b.upper_limit.x := Nat.cast_lt.mp h.tight.upper_right
    have hlower : last.x < b.lower_limit.x := Nat.cast_lt.mp h.tight.lower_right
    have hcw := (h.orient_iff hr hfits hN hb hkey hmax hu hule hupper.le h.upper_le
      (y := keys.length + b.max_error) le_rfl).1
    have hccw := (h.orient_iff hr hfits hN hb hkey hmax hl hlle hlower.le h.lower_le
      (y := keys.length - b.max_error) (by omega)).2
    rw [AddKey_on rnd hb.num_ne hkey.ne' (by omega) hb.points.getLast (by rwa [hposition]), hposition,
      upperAt_eq hr hfits hN, lowerAt_eq hr hfits hN] at hadd
    obtain rfl := Option.some.inj hadd
    refine ⟨last, _, hb.points.getLast, ?_, h.cdf.snoc hnotmem, ?_, ?_, ?_, ?_, ?_⟩
    · rw [Corridor.step, if_pos hin] at htight
      have hup : toPoint (if orient rnd last b.upper_limit key ((keys.length + b.max_error : ℕ) : ℚ) = .CW then
          { x := key, y := ((keys.length + b.max_error : ℕ) : ℚ) } else b.upper_limit) =
          lowerOf (corridor b last).last (corridor b last).upper
            { x := (key : ℚ), y := (keys.length : ℚ) + b.max_error } := by
        rw [Nat.cast_add] at hcw ⊢
        rw [apply_ite toPoint, lowerOf, if_congr hcw rfl rfl]
        rfl
      have hlow : toPoint (if orient rnd last b.lower_limit key ((keys.length - b.max_error : ℕ) : ℚ) = .CCW then
          { x := key, y := ((keys.length - b.max_error : ℕ) : ℚ) } else b.lower_limit) =
          upperOf (corridor b last).last (corridor b last).lower
            { x := (key : ℚ), y := max 0 ((keys.length : ℚ) - b.max_error) } := by
        rw [natCast_sub_eq_max] at hccw ⊢
        rw [apply_ite toPoint, upperOf, if_congr hccw rfl rfl]
        rfl
      rw [← hup, ← hlow] at htight
      exact htight
    · show 2 ≤ b.curr_num_distinct_keys + 1
      omega
    · dsimp only
      split_ifs
      · exact ⟨_, rfl, by simp⟩
      · exact ⟨u, hu, by simp; omega⟩
    · dsimp only
      split_ifs
      · exact ⟨_, rfl, by simp; omega⟩
      · exact ⟨l, hl, by simp; omega⟩
    · dsimp only
      split_ifs
      · exact le_rfl
      · exact h.upper_le.trans hkey.le
    · dsimp only
      split_ifs
      · exact le_rfl
      · exact h.lower_le.trans hkey.le

end

/-! ### The run -/

/-- The builder after some keys: with one point as long as they are all the same, in a corridor from then on. -/
def Drawn (keys : List ℕ) (b : Builder) : Prop :=
  (b.curr_num_distinct_keys = 1 ∧ (∀ k ∈ keys, k = b.min_key) ∧ b.spline_points = [{ x := b.min_key, y := 0 }]) ∨
    ∃ last points, b.spline_points.getLast? = some last ∧ Sim b.max_error keys points last b

theorem drawn_first (hr : Rounds rnd 53) {min_key : ℕ}
    (hb : Building params [min_key] { x := min_key, y := rnd 0 } b) : Drawn [min_key] b := by
  have hmin : min_key = b.min_key := by simpa using hb.first
  have hprev : min_key = b.prev_key := by simpa using hb.prev_key
  obtain ⟨hone, -⟩ | ⟨-, hlt, -, -⟩ := hb.recent
  · refine .inl ⟨hone, fun k hk => (List.mem_singleton.mp hk).trans hmin, ?_⟩
    rw [hb.points_first, hr.zero, hmin]
  · exact absurd hlt (by simp [hprev])

theorem Drawn.step (hr : Rounds rnd 53) (hfits : Fits b N) (hN : keys.length < N) (h : Drawn keys b)
    (hb : Building params keys last b) (hkey : b.prev_key ≤ key) (hmax : key ≤ b.max_key)
    (hadd : AddKey rnd b key = some b') : Drawn (keys ++ [key]) b' := by
  rcases hkey.eq_or_lt with rfl | hlt
  · have hmem := List.mem_of_getLast? hb.prev_key
    rw [AddKey_again rnd hb.num_ne] at hadd
    obtain rfl := Option.some.inj hadd
    rcases h with ⟨hone, hall, hpoints⟩ | ⟨last', points, hlast', hsim⟩
    · refine .inl ⟨hone, fun k hk => ?_, hpoints⟩
      rcases List.mem_append.mp hk with hk | hk
      · exact hall k hk
      · rw [List.mem_singleton.mp hk]
        exact hall _ hmem
    · obtain ⟨u, hu, hule⟩ := hsim.upper
      obtain ⟨l, hl, hlle⟩ := hsim.lower
      exact .inr ⟨last', points, hlast', hsim.tight, hsim.cdf.again hmem, hsim.distinct, ⟨u, hu, by simp; omega⟩,
        ⟨l, hl, by simp; omega⟩, hsim.upper_le, hsim.lower_le⟩
  · rcases h with ⟨hone, hall, hpoints⟩ | ⟨last', points, hlast', hsim⟩
    · obtain ⟨points, hlast, hsim⟩ := sim_start hr hfits hN hb hone hall hpoints hlt hadd
      exact .inr ⟨_, points, hlast, hsim⟩
    · obtain rfl : last' = last := Option.some.inj (hlast'.symm.trans hb.points.getLast)
      exact .inr (hsim.step hr hfits hN hb hlt hmax hadd)

end

/-! ### The estimate -/

theorem idxOf_lt_of_lt {keys : List ℕ} (hsorted : keys.Pairwise (· ≤ ·)) {k k' : ℕ} (hk : k ∈ keys) (hk' : k' ∈ keys)
    (hlt : k < k') : keys.idxOf k < keys.idxOf k' := by
  by_contra hge
  have hlen := List.idxOf_lt_length_of_mem hk
  have hlen' := List.idxOf_lt_length_of_mem hk'
  rcases (not_lt.mp hge).eq_or_lt with heq | hlt'
  · have hget := List.getElem_idxOf hlen
    have hget' := List.getElem_idxOf hlen'
    simp only [heq] at hget'
    omega
  · have hle := List.pairwise_iff_getElem.mp hsorted _ _ hlen' hlen hlt'
    rw [List.getElem_idxOf, List.getElem_idxOf] at hle
    omega

/-- A finished spline through the positions of the keys: its points are at whole positions that do not decrease, and
every key is passed within `E`, up to `extra` more above it. -/
structure Fitted (E extra : ℕ) (keys : List ℕ) (rs : RadixSpline) : Prop where
  spline : Spline rs
  max_error : rs.max_error = E
  num_keys : rs.num_keys = keys.length
  whole : ∀ c ∈ rs.spline_points, ∃ position : ℕ, c.y = position ∧ position < keys.length
  mono : ∀ c ∈ rs.spline_points, ∀ c' ∈ rs.spline_points, c.x < c'.x → c.y ≤ c'.y
  passes : ∀ key ∈ keys, key = rs.min_key ∨ ∃ i down up, rs.spline_points[i]? = some down ∧
    rs.spline_points[i + 1]? = some up ∧
    Passes (E : ℚ) extra (toPoint down) (toPoint up) { x := key, y := keys.idxOf key }

section
variable {rnd : ℚ → ℚ} {w num_radix_bits max_error min_key max_key : ℕ} {keys : List ℕ}

/-- **The builder** fits a spline; what its last line is too high by is the number of further duplicates of the largest
key. -/
theorem exists_fitted (hr : Rounds rnd 53) (hsorted : keys.Pairwise (· ≤ ·)) (hfirst : keys.head? = some min_key)
    (hlast : keys.getLast? = some max_key) (hlt : min_key < max_key) (hmax : max_key < 2 ^ w)
    (hsome : 0 < num_radix_bits ∨ max_key - min_key < 2 ^ (w - 1)) (hbits : num_radix_bits ≤ 31)
    (hsize : keys.length < 2 ^ 32)
    (hfits : (max_key - min_key) * (keys.length + max_error) ≤ 2 ^ 51) :
    ∃ rs, build rnd w num_radix_bits max_error keys = some rs ∧ rs.min_key = min_key ∧ rs.max_key = max_key ∧
      Fitted max_error (keys.length - 1 - keys.idxOf max_key) keys rs := by
  have hfits' : ∀ shift keys' last b,
      Building (min_key, max_key, num_radix_bits, shift, max_error) keys' last b → Fits b keys.length := by
    intro shift keys' last b hb
    have hmin : b.min_key = min_key := congrArg (fun q => q.1) hb.params
    have hmaxkey : b.max_key = max_key := congrArg (fun q => q.2.1) hb.params
    have herror : b.max_error = max_error := congrArg (fun q => q.2.2.2.2) hb.params
    exact ⟨by rwa [hmin, hmaxkey], by rwa [hmin, hmaxkey, herror]⟩
  obtain ⟨rs, shift, b, last, -, -, hbuild, hspline, hparams, hnum, hpoints, hb, hdrawn⟩ := build_spec rnd max_error
    (P := Drawn) hfirst hlast hlt hsorted hmax hsome hbits hsize (fun _ _ hb _ => drawn_first hr hb)
    fun shift keys' last b key b' hb hdrawn hN hkey hmaxkey hadd =>
      hdrawn.step hr (hfits' _ _ _ _ hb) hN hb hkey hmaxkey hadd
  have hrsmin : rs.min_key = min_key := congrArg (fun q => q.1) hparams
  have hrsmax : rs.max_key = max_key := congrArg (fun q => q.2.1) hparams
  have hbmin : b.min_key = min_key := congrArg (fun q => q.1) hb.params
  have herror : b.max_error = max_error := congrArg (fun q => q.2.2.2.2) hb.params
  have hprev : b.prev_key = max_key := Option.some.inj (hb.prev_key.symm.trans hlast)
  have hmem := List.mem_of_getLast? hlast
  have hidx := List.idxOf_lt_length_of_mem hmem
  have hle := (hfits' _ _ _ _ hb).le
  have hposition : rnd (b.prev_position : ℕ) = ((keys.length - 1 : ℕ) : ℚ) := by
    have hpos := hb.position
    rw [show b.prev_position = keys.length - 1 by omega]
    exact hr.natCast (by omega)
  refine ⟨rs, hbuild, hrsmin, hrsmax, ?_⟩
  rcases hdrawn with ⟨-, hall, -⟩ | ⟨last', points, hlast', hsim⟩
  · have hsame := hall _ hmem
    omega
  · obtain rfl : last' = last := Option.some.inj (hlast'.symm.trans hb.points.getLast)
    have hdistinct := hsim.distinct
    obtain ⟨hone, -⟩ | ⟨-, hlastlt, hprevx, -⟩ := hb.recent
    · omega
    · rw [if_neg hlastlt.ne, hprev, hposition] at hpoints
      rw [herror] at hsim
      have hold : ∀ c ∈ b.spline_points, c.x ∈ keys ∧ c.y = (keys.idxOf c.x : ℕ) := fun c hc =>
        hsim.point_of_mem hc
      have hmems : ∀ c ∈ rs.spline_points, c ∈ b.spline_points ∨
          c = { x := max_key, y := ((keys.length - 1 : ℕ) : ℚ) } := by
        intro c hc
        rw [hpoints] at hc
        exact (List.mem_append.mp hc).imp_right List.mem_singleton.mp
      have hprevpoint : (corridor b last').prev = { x := (max_key : ℚ), y := (keys.idxOf max_key : ℚ) } := by
        obtain ⟨k, -, heq⟩ := (hsim.cdf _).mp (List.mem_of_getLast? hsim.tight.prev)
        have hx : ((b.prev_point.x : ℕ) : ℚ) = k := congrArg Point.x heq
        rw [hprevx, hprev] at hx
        obtain rfl : max_key = k := by exact_mod_cast hx
        exact heq
      have hextra : ((keys.length - 1 : ℕ) : ℚ) - keys.idxOf max_key =
          ((keys.length - 1 - keys.idxOf max_key : ℕ) : ℚ) := by
        rw [Nat.cast_sub (show keys.idxOf max_key ≤ keys.length - 1 by omega)]
      obtain ⟨-, -, hpasses⟩ := hsim.tight.finish
        (b := toPoint { x := max_key, y := ((keys.length - 1 : ℕ) : ℚ) }) (by rw [hprevpoint]; rfl) (by
          rw [hprevpoint]
          exact Nat.cast_le.mpr (show keys.idxOf max_key ≤ keys.length - 1 by omega))
      have hmap : (corridor b last').spline ++ [toPoint { x := max_key, y := ((keys.length - 1 : ℕ) : ℚ) }] =
          rs.spline_points.map toPoint := by
        rw [hpoints, List.map_append]
        rfl
      rw [hmap, hprevpoint] at hpasses
      refine ⟨hspline, congrArg (fun q => q.2.2.2.2) hparams, hnum, fun c hc => ?_, fun c hc c' hc' hx => ?_,
        fun key hkey => ?_⟩
      · rcases hmems c hc with hc | rfl
        · obtain ⟨hk, hy⟩ := hold c hc
          exact ⟨_, hy, List.idxOf_lt_length_of_mem hk⟩
        · exact ⟨_, rfl, by omega⟩
      · rcases hmems c hc with hc | rfl
        · obtain ⟨hk, hy⟩ := hold c hc
          have hklt := List.idxOf_lt_length_of_mem hk
          rcases hmems c' hc' with hc' | rfl
          · obtain ⟨hk', hy'⟩ := hold c' hc'
            rw [hy, hy']
            exact_mod_cast (idxOf_lt_of_lt hsorted hk hk' hx).le
          · rw [hy]
            exact Nat.cast_le.mpr (show keys.idxOf c.x ≤ keys.length - 1 by omega)
        · rcases hmems c' hc' with hc' | rfl
          · have hle' := hb.le_prev _ (hold c' hc').1
            rw [hprev] at hle'
            exact absurd hx (not_lt.mpr hle')
          · exact absurd hx (lt_irrefl _)
      · rcases hpasses _ ((hsim.cdf _).mpr ⟨key, hkey, rfl⟩) with hhead | ⟨i, a, a', ha, ha', hpass⟩
        · left
          rw [← hsim.tight.head] at hhead
          obtain ⟨head, hhead', hheadx⟩ := Option.map_eq_some_iff.mp hb.points.head
          have heq : toPoint head = { x := (key : ℚ), y := (keys.idxOf key : ℚ) } := by
            have hspl : (corridor b last').spline.head? = some (toPoint head) := by
              show (b.spline_points.map toPoint).head? = _
              rw [List.head?_map, hhead', Option.map_some]
            exact Option.some.inj (hspl.symm.trans hhead)
          have hx : ((head.x : ℕ) : ℚ) = key := congrArg Point.x heq
          have hx' : head.x = key := by exact_mod_cast hx
          omega
        · right
          rw [List.getElem?_map] at ha ha'
          obtain ⟨down, hdown, rfl⟩ := Option.map_eq_some_iff.mp ha
          obtain ⟨up, hup, rfl⟩ := Option.map_eq_some_iff.mp ha'
          refine ⟨i, down, up, hdown, hup, ?_⟩
          rw [← hextra]
          exact hpass

/-- **The rounding of an estimate** is at most half a position. -/
theorem estimate_near (hr : Rounds rnd 53) {N : ℕ} (hN : N < 2 ^ 32) {down up : Coord} {dy uy key : ℕ}
    (hdown : down.y = dy) (hup : up.y = uy) (hle : dy ≤ uy) (huy : uy ≤ N) (hleft : down.x < key) (hright : key ≤ up.x)
    (hx : up.x - down.x ≤ 2 ^ 53) :
    0 ≤ fma rnd (rnd ((key - down.x : ℕ) : ℚ)) (rnd (rnd (up.y - down.y) / rnd ((up.x - down.x : ℕ) : ℚ))) down.y ∧
      |fma rnd (rnd ((key - down.x : ℕ) : ℚ)) (rnd (rnd (up.y - down.y) / rnd ((up.x - down.x : ℕ) : ℚ))) down.y -
        line (toPoint down) (toPoint up) key| ≤ 1 / 2 ∧
      line (toPoint down) (toPoint up) key ≤ uy := by
  have hy : rnd (up.y - down.y) = ((uy - dy : ℕ) : ℚ) := by
    rw [hdown, hup, ← Nat.cast_sub hle]
    exact hr.natCast (by omega)
  have hline : line (toPoint down) (toPoint up) key =
      dy + ((uy - dy : ℕ) : ℚ) / ((up.x - down.x : ℕ) : ℚ) * ((key - down.x : ℕ) : ℚ) := by
    rw [line, Library.slope, Nat.cast_sub hle, Nat.cast_sub hleft.le, Nat.cast_sub (hleft.le.trans hright)]
    simp [toPoint, hdown, hup]
  rw [fma, hy, hr.natCast hx, hr.natCast (show key - down.x ≤ 2 ^ 53 by omega), hdown, hline]
  obtain ⟨dx, hdx⟩ : ∃ dx : ℚ, dx = ((up.x - down.x : ℕ) : ℚ) := ⟨_, rfl⟩
  obtain ⟨kx, hkx⟩ : ∃ kx : ℚ, kx = ((key - down.x : ℕ) : ℚ) := ⟨_, rfl⟩
  obtain ⟨s, hs⟩ : ∃ s : ℚ, s = ((uy - dy : ℕ) : ℚ) / dx := ⟨_, rfl⟩
  rw [← hdx, ← hkx, ← hs]
  have hdxpos : 0 < dx := by
    rw [hdx]
    exact_mod_cast (show 0 < up.x - down.x by omega)
  have hkxnonneg : 0 ≤ kx := by
    rw [hkx]
    positivity
  have hkxle : kx ≤ dx := by
    rw [hkx, hdx]
    exact_mod_cast (show key - down.x ≤ up.x - down.x by omega)
  have hsnonneg : 0 ≤ s := by
    rw [hs]
    positivity
  have hrise : kx * s ≤ uy - dy := by
    calc kx * s ≤ dx * s := by gcongr
      _ = ((uy - dy : ℕ) : ℚ) := by rw [hs, mul_div_cancel₀ _ hdxpos.ne']
      _ = uy - dy := Nat.cast_sub hle
  have hNq : (N : ℚ) < 2 ^ 32 := by exact_mod_cast hN
  have huyq : (uy : ℚ) ≤ N := by exact_mod_cast huy
  have hdyq : (0 : ℚ) ≤ dy := by positivity
  -- the slope, and the point on the line with it
  have hslope := hr.near s
  rw [abs_of_nonneg hsnonneg] at hslope
  have hslopenonneg := hr.nonneg hsnonneg
  have hnear : |kx * rnd s + dy - (dy + s * kx)| ≤ 1 / 4 := by
    have hfactor : kx * rnd s + dy - (dy + s * kx) = kx * (rnd s - s) := by ring
    rw [hfactor, abs_mul, abs_of_nonneg hkxnonneg]
    calc kx * |rnd s - s| ≤ kx * (s / 2 ^ 53) := by gcongr
      _ = kx * s / 2 ^ 53 := by ring
      _ ≤ N / 2 ^ 53 := by
        gcongr
        linarith
      _ ≤ 1 / 4 := by
        rw [div_le_div_iff₀ (by norm_num) (by norm_num)]
        linarith
  have hvnonneg : 0 ≤ kx * rnd s + dy := by positivity
  have hv : kx * rnd s + dy ≤ N + 1 / 4 := by
    have hupper := (abs_le.mp hnear).2
    linarith
  have hround := hr.near (kx * rnd s + dy)
  rw [abs_of_nonneg hvnonneg] at hround
  have hsmall : (kx * rnd s + dy) / 2 ^ 53 ≤ 1 / 4 := by
    rw [div_le_div_iff₀ (by norm_num) (by norm_num)]
    linarith
  refine ⟨hr.nonneg hvnonneg, ?_, by linarith⟩
  calc |rnd (kx * rnd s + dy) - (dy + s * kx)|
    _ ≤ |rnd (kx * rnd s + dy) - (kx * rnd s + dy)| + |kx * rnd s + dy - (dy + s * kx)| := abs_sub_le _ _ _
    _ ≤ 1 / 4 + 1 / 4 := add_le_add (hround.trans hsmall) hnear
    _ = 1 / 2 := by norm_num

variable {rs : RadixSpline} {E extra key : ℕ}

/-- Between the smallest and the largest key the estimate is near a line of the spline, between two positions. -/
theorem Fitted.exists_estimate (hr : Rounds rnd 53) (h : Fitted E extra keys rs) (hN : keys.length < 2 ^ 32)
    (hD : rs.max_key - rs.min_key ≤ 2 ^ 53) (hmin : rs.min_key < key) (hmax : key < rs.max_key) :
    ∃ i down up estimate, rs.spline_points[i]? = some down ∧ rs.spline_points[i + 1]? = some up ∧ down.x < key ∧
      key ≤ up.x ∧ GetEstimatedPosition rnd rs key = some estimate ∧ 0 ≤ estimate ∧
      |estimate - line (toPoint down) (toPoint up) key| ≤ 1 / 2 ∧
      line (toPoint down) (toPoint up) key ≤ (keys.length - 1 : ℕ) := by
  obtain ⟨i, down, up, hsegment, hdown, hup, hleft, hright⟩ := h.spline.exists_segment hmin hmax.le
  have hmem := List.mem_of_getElem? hdown
  have hmem' := List.mem_of_getElem? hup
  obtain ⟨dy, hdy, -⟩ := h.whole _ hmem
  obtain ⟨uy, huy, hlt⟩ := h.whole _ hmem'
  have hle : dy ≤ uy := by
    have hmono := h.mono _ hmem _ hmem' (hleft.trans_le hright)
    rw [hdy, huy] at hmono
    exact_mod_cast hmono
  have hxle : up.x - down.x ≤ 2 ^ 53 := by
    have hlow := h.spline.min_le hmem
    have hhigh := h.spline.le_max hmem'
    omega
  obtain ⟨hnonneg, hnear, hline⟩ := estimate_near hr hN hdy huy hle hlt.le hleft hright hxle
  refine ⟨i, down, up, _, hdown, hup, hleft, hright, GetEstimatedPosition_eq rnd hmin hmax hsegment hdown hup, hnonneg,
    hnear, hline.trans (Nat.cast_le.mpr (by omega))⟩

theorem segment_unique (hsorted : (rs.spline_points.map Coord.x).Pairwise (· < ·)) {i : ℕ} {down up : Coord}
    (hdown : rs.spline_points[i]? = some down) (hup : rs.spline_points[i + 1]? = some up) (hleft : down.x < key)
    (hright : key ≤ up.x) : i + 1 = position rs.spline_points key := by
  obtain ⟨hi, rfl⟩ := List.getElem?_eq_some_iff.mp hdown
  obtain ⟨hi', rfl⟩ := List.getElem?_eq_some_iff.mp hup
  have hlt := (lt_position_iff key hsorted hi).mp hleft
  have hge := (lt_position_iff key hsorted hi').not.mp (not_lt.mpr hright)
  omega

/-- The estimate of a key that occurs, and that of any other one. -/
theorem Fitted.estimate (hr : Rounds rnd 53) (h : Fitted E extra keys rs) (hN : keys.length < 2 ^ 32)
    (hD : rs.max_key - rs.min_key ≤ 2 ^ 53) (hsorted : keys.Pairwise (· ≤ ·)) (hfirst : keys.head? = some rs.min_key)
    (hlast : keys.getLast? = some rs.max_key) (hextra : keys.idxOf rs.max_key + extra + 1 = keys.length) (key : ℕ) :
    ∃ estimate, GetEstimatedPosition rnd rs key = some estimate ∧ 0 ≤ estimate ∧ estimate + 1 / 2 ≤ keys.length ∧
      (key ∈ keys → (keys.idxOf key : ℚ) < estimate + E + 1 ∧ estimate < keys.idxOf key + E + extra + 1) := by
  have hpos : 0 < keys.length := by omega
  have hposq : (1 : ℚ) ≤ keys.length := by exact_mod_cast hpos
  have hEq : (0 : ℚ) ≤ E := by positivity
  have hextraq : (0 : ℚ) ≤ extra := by positivity
  by_cases hlow : key ≤ rs.min_key
  · refine ⟨0, by rw [GetEstimatedPosition, if_pos hlow], le_rfl, by linarith, fun hkey => ?_⟩
    obtain rfl : key = rs.min_key := le_antisymm hlow (head_le hsorted hfirst hkey)
    have hzero : keys.idxOf rs.min_key = 0 := by
      obtain ⟨rest, hrest⟩ := List.head?_eq_some_iff.mp hfirst
      rw [hrest, List.idxOf_cons_self]
    rw [hzero]
    constructor <;> push_cast <;> linarith
  · by_cases hhigh : rs.max_key ≤ key
    · have hestimate : rnd ((rs.num_keys + 2 ^ 64 - 1) % 2 ^ 64 : ℕ) = ((keys.length - 1 : ℕ) : ℚ) := by
        rw [h.num_keys, show (keys.length + 2 ^ 64 - 1) % 2 ^ 64 = keys.length - 1 by omega]
        exact hr.natCast (by omega)
      refine ⟨_, by rw [GetEstimatedPosition, if_neg hlow, if_pos hhigh], ?_⟩
      rw [hestimate, Nat.cast_pred hpos]
      refine ⟨?_, by linarith, fun hkey => ?_⟩
      · linarith
      · obtain rfl : key = rs.max_key := le_antisymm (le_getLast hsorted hlast hkey) hhigh
        have hq : (keys.idxOf rs.max_key : ℚ) + extra + 1 = keys.length := by exact_mod_cast hextra
        constructor <;> linarith
    · obtain ⟨i, down, up, estimate, hdown, hup, hleft, hright, hestimate, hnonneg, hnear, hline⟩ :=
        h.exists_estimate hr hN hD (not_le.mp hlow) (not_le.mp hhigh)
      obtain ⟨hnear₁, hnear₂⟩ := abs_le.mp hnear
      rw [Nat.cast_pred hpos] at hline
      refine ⟨estimate, hestimate, hnonneg, by linarith, fun hkey => ?_⟩
      obtain heq | ⟨i', down', up', hdown', hup', hpasses⟩ := h.passes key hkey
      · exact absurd heq.le hlow
      · have hleft' : down'.x < key := Nat.cast_lt.mp hpasses.left
        have hright' : key ≤ up'.x := Nat.cast_le.mp hpasses.right
        have hi := segment_unique h.spline.sorted hdown hup hleft hright
        have hi' := segment_unique h.spline.sorted hdown' hup' hleft' hright'
        obtain rfl : i = i' := by omega
        obtain rfl : down = down' := Option.some.inj (hdown.symm.trans hdown')
        obtain rfl : up = up' := Option.some.inj (hup.symm.trans hup')
        have hpasslow := hpasses.low
        have hpasshigh := hpasses.high
        dsimp only at hpasslow hpasshigh
        constructor <;> linarith

/-- **The error of the radix spline**: the estimate of every key is less than `max_error` and one position below its
first position, and less than that and the further duplicates of the largest key above it. -/
theorem radix_spline_error (hr : Rounds rnd 53) (hsorted : keys.Pairwise (· ≤ ·)) (hfirst : keys.head? = some min_key)
    (hlast : keys.getLast? = some max_key) (hlt : min_key < max_key) (hmax : max_key < 2 ^ w)
    (hsome : 0 < num_radix_bits ∨ max_key - min_key < 2 ^ (w - 1)) (hbits : num_radix_bits ≤ 31)
    (hsize : keys.length < 2 ^ 32)
    (hfits : (max_key - min_key) * (keys.length + max_error) ≤ 2 ^ 51) :
    ∃ rs, build rnd w num_radix_bits max_error keys = some rs ∧
      ∀ key ∈ keys, ∃ estimate, GetEstimatedPosition rnd rs key = some estimate ∧
        (keys.idxOf key : ℚ) < estimate + max_error + 1 ∧
        estimate < keys.idxOf key + max_error + (keys.length - keys.idxOf max_key : ℕ) := by
  obtain ⟨rs, hbuild, hmin, hmaxkey, hfitted⟩ :=
    exists_fitted hr hsorted hfirst hlast hlt hmax hsome hbits hsize hfits
  have hidx := List.idxOf_lt_length_of_mem (List.mem_of_getLast? hlast)
  have hD : max_key - min_key ≤ 2 ^ 51 := (Nat.le_mul_of_pos_right _ (by omega)).trans hfits
  refine ⟨rs, hbuild, fun key hkey => ?_⟩
  obtain ⟨estimate, hestimate, -, -, hbounds⟩ := hfitted.estimate hr (by omega) (by omega) hsorted
    (by rwa [hmin]) (by rwa [hmaxkey]) (by rw [hmaxkey]; omega) key
  obtain ⟨hlow, hhigh⟩ := hbounds hkey
  refine ⟨estimate, hestimate, hlow, ?_⟩
  rw [show keys.length - keys.idxOf max_key = keys.length - 1 - keys.idxOf max_key + 1 by omega, Nat.cast_succ]
  linarith

def squares : List ℕ := [0, 1, 4, 9, 16, 25, 36, 49, 64, 64]

theorem radix_spline_error_squares :
    ∃ rs, build binary64 64 3 1 squares = some rs ∧
      ∀ key ∈ squares, ∃ estimate, GetEstimatedPosition binary64 rs key = some estimate ∧
        (squares.idxOf key : ℚ) < estimate + (1 : ℕ) + 1 ∧
        estimate < squares.idxOf key + (1 : ℕ) + (squares.length - squares.idxOf 64 : ℕ) :=
  radix_spline_error rounds_binary64 (by decide) rfl rfl (by norm_num) (by norm_num) (by norm_num) (by norm_num)
    (by decide) (by decide)

/-- The range of a search: that of a key that occurs has its first position. -/
theorem Fitted.searchBound (hr : Rounds rnd 53) (h : Fitted E 0 keys rs) (hsize : keys.length < 2 ^ 32)
    (hE : E ≤ 2 ^ 53) (hD : rs.max_key - rs.min_key ≤ 2 ^ 53) (hsorted : keys.Pairwise (· ≤ ·))
    (hfirst : keys.head? = some rs.min_key) (hlast : keys.getLast? = some rs.max_key)
    (hextra : keys.idxOf rs.max_key + 1 = keys.length) (key : ℕ) :
    ∃ bound, GetSearchBound rnd rs key = some bound ∧ bound.begin_ ≤ bound.end_ ∧ bound.end_ ≤ keys.length ∧
      (key ∈ keys → bound.begin_ ≤ keys.idxOf key ∧ keys.idxOf key < bound.end_) := by
  obtain ⟨estimate, hestimate, hnonneg, hlt, hbounds⟩ :=
    h.estimate hr (by omega) hD hsorted hfirst hlast (by omega) key
  have hfloor := Nat.floor_le hnonneg
  have hfloor' := Nat.lt_floor_add_one estimate
  have hfloorlt : ⌊estimate⌋₊ < keys.length := by
    rw [Nat.floor_lt hnonneg]
    linarith
  have herror := h.max_error
  have hmod : (⌊estimate⌋₊ + rs.max_error + 2) % 2 ^ 64 = ⌊estimate⌋₊ + rs.max_error + 2 := by omega
  refine ⟨_, by rw [GetSearchBound, hestimate, Option.map_some], ?_, ?_, fun hkey => ?_⟩
  · dsimp only
    rw [hmod, h.num_keys]
    split_ifs <;> omega
  · dsimp only
    rw [hmod, h.num_keys]
    split_ifs <;> omega
  · obtain ⟨hlow, hhigh⟩ := hbounds hkey
    have hidx := List.idxOf_lt_length_of_mem hkey
    have hlow' : keys.idxOf key < ⌊estimate⌋₊ + E + 2 := by
      have hq : (keys.idxOf key : ℚ) < (⌊estimate⌋₊ + E + 2 : ℕ) := by
        push_cast
        linarith
      exact_mod_cast hq
    have hhigh' : ⌊estimate⌋₊ < keys.idxOf key + E + 1 := by
      have hq : (⌊estimate⌋₊ : ℚ) < (keys.idxOf key + E + 1 : ℕ) := by
        push_cast at hhigh ⊢
        linarith
      exact_mod_cast hq
    dsimp only
    rw [hmod, h.num_keys]
    constructor <;> split_ifs <;> omega

-- With duplicates of the largest key the range of key 1 does not have its position.
example : (build id 64 3 1 [0, 1, 2, 3, 3, 3, 3, 3, 3, 3]).bind (fun rs => GetSearchBound id rs 1) =
    some { begin_ := 2, end_ := 6 } := by
  decide +kernel

end

end HashingArchive.LearnedModels.Rs
