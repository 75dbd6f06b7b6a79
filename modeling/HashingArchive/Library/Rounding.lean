import Mathlib

/-!
# Rounding to the nearest integer

`roundAway` takes halves away from zero, as `round` of the C library does, `roundEven` takes them to the even
neighbour, as the default rounding mode does. For a value clamped between zero and `n` it makes no difference
whether it is rounded before or after a half is added (`clamp_roundAway`); and rounding is cutting off exactly for
fractions below a half (`floor_eq_roundAway_iff`).
-/

namespace HashingArchive.Library

variable {α : Type*} [Field α] [LinearOrder α] [IsStrictOrderedRing α] [FloorRing α]

def roundAway (x : α) : ℤ := if 0 ≤ x then ⌊x + 1 / 2⌋ else ⌈x - 1 / 2⌉

def roundEven (x : α) : ℤ :=
  if Int.fract x < 1 / 2 then ⌊x⌋ else if 1 / 2 < Int.fract x then ⌊x⌋ + 1 else ⌊x⌋ + ⌊x⌋ % 2

@[simp] theorem roundEven_intCast (n : ℤ) : roundEven (n : α) = n := by
  rw [roundEven, Int.fract_intCast, if_pos (by norm_num), Int.floor_intCast]

omit [IsStrictOrderedRing α] in
theorem roundAway_of_nonneg {x : α} (hx : 0 ≤ x) : roundAway x = ⌊x + 1 / 2⌋ := if_pos hx

theorem roundAway_nonpos {x : α} (hx : x < 0) : roundAway x ≤ 0 := by
  rw [roundAway, if_neg (not_le.mpr hx), Int.ceil_le, Int.cast_zero]
  linarith

/-- To round and clamp is to add a half, clamp and cut off. -/
theorem clamp_roundAway (n : ℕ) (x : α) : max 0 (min (n : ℤ) (roundAway x)) = ⌊max (min (x + 1 / 2) n) 0⌋ := by
  rcases le_or_gt 0 x with hx | hx
  · have hmin : 0 ≤ min (x + 1 / 2) (n : α) := le_min (by linarith) n.cast_nonneg
    rw [roundAway_of_nonneg hx, max_eq_left hmin, min_comm (n : ℤ)]
    apply le_antisymm
    · apply max_le (Int.floor_nonneg.mpr hmin)
      rw [Int.le_floor, Int.cast_min]
      exact min_le_min (Int.floor_le _) (Int.cast_natCast n).le
    · apply le_max_of_le_right
      apply le_min (Int.floor_mono (min_le_left _ _))
      exact (Int.floor_mono (min_le_right _ _)).trans (Int.floor_natCast n).le
  · have hlt : max (min (x + 1 / 2) (n : α)) 0 < 1 := max_lt ((min_le_left _ _).trans_lt (by linarith)) one_pos
    have hfloor : ⌊max (min (x + 1 / 2) (n : α)) 0⌋ = 0 :=
      Int.floor_eq_zero_iff.mpr ⟨le_max_right _ _, hlt⟩
    rw [hfloor]
    exact max_eq_left ((min_le_right _ _).trans (roundAway_nonpos hx))

/-- Cutting off is rounding for a fraction below a half. -/
theorem floor_eq_roundAway_iff {x : α} (hx : 0 ≤ x) : ⌊x⌋ = roundAway x ↔ Int.fract x < 1 / 2 := by
  have hsplit := Int.floor_add_fract x
  have hfract := Int.fract_nonneg x
  rw [roundAway_of_nonneg hx, eq_comm, Int.floor_eq_iff]
  constructor
  · rintro ⟨-, hlt⟩
    linarith
  · intro hlt
    exact ⟨by linarith, by linarith⟩

end HashingArchive.Library
