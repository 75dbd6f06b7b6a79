import Mathlib

/-!
# Greedy splines in an error corridor

The points of a function come from left to right, and a line from the last point of the spline is drawn out as long as
it can pass every point at a distance of `E`: the slopes that can are those between two limits, which every point
narrows. A point outside of the limits ends the line at the point before it. `Tight` is the invariant; in the end every
point is within `E` of the spline (`Tight.finish`). The lower limit may be cut off at zero.
-/

namespace HashingArchive.Library

variable {α : Type*}

structure Point (α : Type*) where
  x : α
  y : α

variable [Field α] [LinearOrder α] [IsStrictOrderedRing α]

/-- Positive where the way from `o` to `b` is below that to `a`. -/
def cross (o a b : Point α) : α := (a.y - o.y) * (b.x - o.x) - (b.y - o.y) * (a.x - o.x)

def slope (o a : Point α) : α := (a.y - o.y) / (a.x - o.x)

/-- The line through `o` and `a`. -/
def line (o a : Point α) (x : α) : α := o.y + slope o a * (x - o.x)

/-- The limit that is lower down of two. -/
def lowerOf (o a b : Point α) : Point α := if 0 < cross o a b then b else a

/-- The limit that is higher up of two. -/
def upperOf (o a b : Point α) : Point α := if cross o a b < 0 then b else a

/-- The spline so far, the limits of the slope from its last point on, and the last point seen. -/
structure Corridor (α : Type*) where
  spline : List (Point α)
  last : Point α
  upper : Point α
  lower : Point α
  prev : Point α

/-- The next point goes on with the line, or ends it at the point before. -/
def Corridor.step (E : α) (c : Corridor α) (p : Point α) : Corridor α :=
  let up : Point α := { x := p.x, y := p.y + E }
  let low : Point α := { x := p.x, y := max 0 (p.y - E) }
  if 0 < cross c.last c.upper p ∧ cross c.last c.lower p < 0 then
    { c with upper := lowerOf c.last c.upper up, lower := upperOf c.last c.lower low, prev := p }
  else { spline := c.spline ++ [c.prev], last := c.prev, upper := up, lower := low, prev := p }

/-- The spline begins with the first point, and its first line goes towards the second one. -/
def Corridor.start (E : α) (p q : Point α) : Corridor α where
  spline := [p]
  last := p
  upper := { x := q.x, y := q.y + E }
  lower := { x := q.x, y := max 0 (q.y - E) }
  prev := q

/-! ### Slopes -/

section
variable {o a b : Point α}

theorem cross_pos_iff (ha : o.x < a.x) (hb : o.x < b.x) : 0 < cross o a b ↔ slope o b < slope o a := by
  rw [cross, slope, slope, div_lt_div_iff₀ (sub_pos.mpr hb) (sub_pos.mpr ha), sub_pos]

theorem cross_neg_iff (ha : o.x < a.x) (hb : o.x < b.x) : cross o a b < 0 ↔ slope o a < slope o b := by
  rw [cross, slope, slope, div_lt_div_iff₀ (sub_pos.mpr ha) (sub_pos.mpr hb), sub_neg]

/-- The lower of two limits, and what is below both. -/
theorem lowerOf_spec (ha : o.x < a.x) (hb : o.x < b.x) :
    o.x < (lowerOf o a b).x ∧ slope o (lowerOf o a b) = min (slope o a) (slope o b) := by
  unfold lowerOf
  split_ifs with hcut
  · exact ⟨hb, (min_eq_right ((cross_pos_iff ha hb).mp hcut).le).symm⟩
  · exact ⟨ha, (min_eq_left (not_lt.mp fun hlt => hcut ((cross_pos_iff ha hb).mpr hlt))).symm⟩

theorem upperOf_spec (ha : o.x < a.x) (hb : o.x < b.x) :
    o.x < (upperOf o a b).x ∧ slope o (upperOf o a b) = max (slope o a) (slope o b) := by
  unfold upperOf
  split_ifs with hcut
  · exact ⟨hb, (max_eq_right ((cross_neg_iff ha hb).mp hcut).le).symm⟩
  · exact ⟨ha, (max_eq_left (not_lt.mp fun hlt => hcut ((cross_neg_iff ha hb).mpr hlt))).symm⟩

/-- A line with a smaller slope is below. -/
theorem line_le_iff (hb : o.x < b.x) : line o a b.x ≤ b.y ↔ slope o a ≤ slope o b := by
  have hpos := sub_pos.mpr hb
  rw [line, ← le_sub_iff_add_le', slope.eq_def o b, le_div_iff₀ hpos]

theorem le_line_iff (hb : o.x < b.x) : b.y ≤ line o a b.x ↔ slope o b ≤ slope o a := by
  have hpos := sub_pos.mpr hb
  rw [line, ← sub_le_iff_le_add', slope.eq_def o b, div_le_iff₀ hpos]

theorem slope_mono {x y y' : α} (hx : o.x < x) (hy : y ≤ y') :
    slope o { x := x, y := y } ≤ slope o { x := x, y := y' } := by
  have hpos := sub_pos.mpr hx
  unfold slope
  gcongr

end

/-! ### The invariant -/

/-- The line from `a` to `b` passes `q` at a distance of `E`, up to `extra` more above it. -/
structure Passes (E extra : α) (a b q : Point α) : Prop where
  left : a.x < q.x
  right : q.x ≤ b.x
  low : q.y - E ≤ line a b q.x
  high : line a b q.x ≤ q.y + E + extra

/-- The line from `last` to `prev`, and every other one within the limits, passes the points `seg` after `last`. -/
structure Within (E : α) (c : Corridor α) (q : Point α) : Prop where
  left : c.last.x < q.x
  right : q.x ≤ c.prev.x
  upper : slope c.last c.upper ≤ slope c.last { x := q.x, y := q.y + E }
  lower : slope c.last { x := q.x, y := q.y - E } ≤ slope c.last c.lower

/-- The points seen so far are the first one, points a line of the spline passes, and points the last line passes. -/
structure Tight (E : α) (points : List (Point α)) (c : Corridor α) : Prop where
  spline : ∃ init, c.spline = init ++ [c.last]
  sorted : (c.spline.map Point.x).Pairwise (· < ·)
  from_points : ∀ p ∈ c.spline, p ∈ points
  head : c.spline.head? = points.head?
  prev : points.getLast? = some c.prev
  forward : c.last.x < c.prev.x
  upper_right : c.last.x < c.upper.x
  lower_right : c.last.x < c.lower.x
  prev_upper : slope c.last c.prev ≤ slope c.last c.upper
  prev_lower : slope c.last c.lower ≤ slope c.last c.prev
  seen : ∀ q ∈ points, c.spline.head? = some q ∨
    (∃ (i : ℕ) (a b : Point α), c.spline[i]? = some a ∧ c.spline[i + 1]? = some b ∧ Passes E 0 a b q) ∨ Within E c q

variable {E : α} {points : List (Point α)} {c : Corridor α} {p q : Point α}

/-- Lines within the limits pass the points. -/
theorem Within.passes (h : Within E c q) (hupper : slope c.last c.prev ≤ slope c.last c.upper)
    (hlower : slope c.last c.lower ≤ slope c.last c.prev) : Passes E 0 c.last c.prev q := by
  refine ⟨h.left, h.right, ?_, ?_⟩
  · exact (le_line_iff (b := { x := q.x, y := q.y - E }) h.left).mpr (h.lower.trans hlower)
  · rw [add_zero]
    exact (line_le_iff (b := { x := q.x, y := q.y + E }) h.left).mpr (hupper.trans h.upper)

/-- If the last line ends higher than at `prev`, it is higher by no more than that on its way. -/
theorem Passes.raise {a b b' : Point α} (h : Passes E 0 a b q) (hx : b'.x = b.x) (hy : b.y ≤ b'.y) :
    Passes E (b'.y - b.y) a b' q := by
  have hpos : 0 < b.x - a.x := sub_pos.mpr (h.left.trans_le h.right)
  have hq : 0 ≤ q.x - a.x := (sub_pos.mpr h.left).le
  have hqb : q.x - a.x ≤ b.x - a.x := sub_le_sub_right h.right _
  have hline : line a b' q.x = line a b q.x + (b'.y - b.y) * ((q.x - a.x) / (b.x - a.x)) := by
    unfold line slope
    rw [hx]
    field_simp
    ring
  have hfrac : 0 ≤ (q.x - a.x) / (b.x - a.x) := div_nonneg hq hpos.le
  have hfrac' : (q.x - a.x) / (b.x - a.x) ≤ 1 := (div_le_one hpos).mpr hqb
  have hdy : 0 ≤ b'.y - b.y := sub_nonneg.mpr hy
  have hlow := h.low
  have hhigh := h.high
  refine ⟨h.left, by rw [hx]; exact h.right, ?_, ?_⟩
  · rw [hline]
    have hterm := mul_nonneg hdy hfrac
    linarith
  · rw [hline]
    have hterm := mul_le_of_le_one_right hdy hfrac'
    linarith

theorem tight_start (hE : 0 ≤ E) (hx : p.x < q.x) (hy : 0 ≤ q.y) : Tight E [p, q] (Corridor.start E p q) := by
  have hlow : max 0 (q.y - E) ≤ q.y := max_le hy (sub_le_self _ hE)
  refine ⟨⟨[], rfl⟩, by simp [Corridor.start], by simp [Corridor.start], rfl, rfl, hx, hx, hx, ?_, ?_, ?_⟩
  · exact slope_mono hx (le_add_of_nonneg_right hE)
  · exact slope_mono hx hlow
  · intro r hr
    rcases List.mem_cons.mp hr with rfl | hr
    · exact .inl rfl
    · obtain rfl := List.mem_singleton.mp hr
      exact .inr (.inr ⟨hx, le_refl _, le_refl _, slope_mono hx (le_max_right _ _)⟩)

/-- **The spline is within `E` of all points** when it ends at the last one; where it ends higher, it is no more than
that too high on its last line. -/
theorem Tight.finish (h : Tight E points c) {b : Point α} (hx : b.x = c.prev.x) (hy : c.prev.y ≤ b.y) :
    ((c.spline ++ [b]).map Point.x).Pairwise (· < ·) ∧ (c.spline ++ [b]).head? = points.head? ∧
      ∀ q ∈ points, points.head? = some q ∨ ∃ (i : ℕ) (a b' : Point α), (c.spline ++ [b])[i]? = some a ∧
        (c.spline ++ [b])[i + 1]? = some b' ∧ Passes E (b.y - c.prev.y) a b' q := by
  obtain ⟨init, hspline⟩ := h.spline
  have hheads : (c.spline ++ [b]).head? = c.spline.head? := List.head?_append_of_ne_nil _ (by simp [hspline])
  refine ⟨?_, hheads.trans h.head, ?_⟩
  · have hsorted := h.sorted
    rw [hspline, List.map_append, List.pairwise_append] at hsorted
    rw [hspline, List.map_append, List.pairwise_append]
    refine ⟨by rw [← hspline]; exact h.sorted, by simp, ?_⟩
    intro x hx' y hy'
    obtain rfl : y = b.x := by simpa using hy'
    rw [hx]
    rw [List.map_append] at hx'
    rcases List.mem_append.mp hx' with hx' | hx'
    · exact (hsorted.2.2 x hx' c.last.x (by simp)).trans h.forward
    · obtain rfl : x = c.last.x := by simpa using hx'
      exact h.forward
  · have hlength : c.spline.length = init.length + 1 := by simp [hspline]
    have hlastidx : c.spline[init.length]? = some c.last := by simp [hspline]
    have hold : ∀ (i : ℕ) (a : Point α), c.spline[i]? = some a → (c.spline ++ [b])[i]? = some a := by
      intro i a ha
      obtain ⟨hi, -⟩ := List.getElem?_eq_some_iff.mp ha
      rwa [List.getElem?_append_left hi]
    intro q hq
    rcases h.seen q hq with hfirst | ⟨i, a, b', ha, hb, hpasses⟩ | hwithin
    · exact .inl (h.head.symm.trans hfirst)
    · refine .inr ⟨i, a, b', hold i a ha, hold _ b' hb, hpasses.left, hpasses.right, hpasses.low, ?_⟩
      have hhigh := hpasses.high
      linarith
    · refine .inr ⟨init.length, c.last, b, hold _ _ hlastidx, ?_,
        (hwithin.passes h.prev_upper h.prev_lower).raise hx hy⟩
      rw [← hlength, List.getElem?_append_right (le_refl _)]
      simp

/-- **The step lemma.** -/
theorem Tight.step (hE : 0 ≤ E) (h : Tight E points c) (hx : c.prev.x < p.x) (hy : 0 ≤ p.y) :
    Tight E (points ++ [p]) (c.step E p) := by
  obtain ⟨init, hspline⟩ := h.spline
  have hlow : max 0 (p.y - E) ≤ p.y := max_le hy (sub_le_self _ hE)
  have hlast : c.last.x < p.x := h.forward.trans hx
  have hne : points ≠ [] := by
    rintro rfl
    simpa using h.prev
  have hhead : (points ++ [p]).head? = points.head? := List.head?_append_of_ne_nil _ hne
  have hlowright : slope c.last { x := p.x, y := p.y - E } ≤ slope c.last { x := p.x, y := max 0 (p.y - E) } :=
    slope_mono hlast (le_max_right _ _)
  unfold Corridor.step
  dsimp only
  by_cases hin : 0 < cross c.last c.upper p ∧ cross c.last c.lower p < 0
  · -- the line goes on
    rw [if_pos hin]
    obtain ⟨hup, hdown⟩ := hin
    rw [cross_pos_iff h.upper_right hlast] at hup
    rw [cross_neg_iff h.lower_right hlast] at hdown
    obtain ⟨hupx, hupslope⟩ := lowerOf_spec (b := { x := p.x, y := p.y + E }) h.upper_right hlast
    obtain ⟨hlowx, hlowslope⟩ := upperOf_spec (b := { x := p.x, y := max 0 (p.y - E) }) h.lower_right hlast
    refine ⟨⟨init, hspline⟩, h.sorted, fun q hq => List.mem_append_left _ (h.from_points q hq), ?_, by simp, hlast,
      hupx, hlowx, ?_, ?_, ?_⟩
    · rw [hhead]
      exact h.head
    · dsimp only
      rw [hupslope]
      exact le_min hup.le (slope_mono hlast (le_add_of_nonneg_right hE))
    · dsimp only
      rw [hlowslope]
      exact max_le hdown.le (slope_mono hlast hlow)
    · intro q hq
      rcases List.mem_append.mp hq with hq | hq
      · rcases h.seen q hq with hfirst | hpasses | hwithin
        · exact .inl hfirst
        · exact .inr (.inl hpasses)
        · refine .inr (.inr ⟨hwithin.left, hwithin.right.trans hx.le, ?_, ?_⟩)
          · rw [hupslope]
            exact (min_le_left _ _).trans hwithin.upper
          · rw [hlowslope]
            exact hwithin.lower.trans (le_max_left _ _)
      · obtain rfl := List.mem_singleton.mp hq
        refine .inr (.inr ⟨hlast, le_refl _, ?_, ?_⟩)
        · rw [hupslope]
          exact min_le_right _ _
        · rw [hlowslope]
          exact hlowright.trans (le_max_right _ _)
  · -- the line ends at the point before
    rw [if_neg hin]
    obtain ⟨hsorted, hfirst, hseen⟩ := h.finish (b := c.prev) rfl (le_refl _)
    have hmem : c.prev ∈ points := List.mem_of_getLast? h.prev
    refine ⟨⟨c.spline, rfl⟩, hsorted, ?_, hfirst.trans hhead.symm, by simp, hx, hx, hx, ?_, ?_, ?_⟩
    · intro q hq
      rcases List.mem_append.mp hq with hq | hq
      · exact List.mem_append_left _ (h.from_points q hq)
      · obtain rfl := List.mem_singleton.mp hq
        exact List.mem_append_left _ hmem
    · exact slope_mono hx (le_add_of_nonneg_right hE)
    · exact slope_mono hx hlow
    · intro q hq
      rcases List.mem_append.mp hq with hq | hq
      · rcases hseen q hq with heq | hpasses
        · exact .inl (hfirst.trans heq)
        · rw [sub_self] at hpasses
          exact .inr (.inl hpasses)
      · obtain rfl := List.mem_singleton.mp hq
        exact .inr (.inr ⟨hx, le_refl _, le_refl _, slope_mono hx (le_max_right _ _)⟩)

end HashingArchive.Library
