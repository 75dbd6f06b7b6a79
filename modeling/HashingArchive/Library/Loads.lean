import Mathlib

/-!
# Loads

Items are put into slots by a function; the load of a slot is how many it gets. The loads add up to the items
(`sum_load`), and those above one to the items that share their slot (`card_shares`). Mean and variance of a family of
numbers follow: the mean lies between two bounds of the numbers, and the squared deviations vanish for equal numbers
only (`sum_sq_deviation_eq_zero_iff`).
-/

namespace HashingArchive.Library.Loads

open Finset

section
variable {ι κ : Type*} [Fintype ι] [DecidableEq κ] (f : ι → κ)

/-- How many items `f` puts into the slot. -/
def load (i : κ) : ℕ := #{k | f k = i}

/-- Another item is in the item's slot. -/
def Shares (k : ι) : Prop := ∃ k', k' ≠ k ∧ f k' = f k

instance [DecidableEq ι] : DecidablePred (Shares f) := fun k => inferInstanceAs (Decidable (∃ k', k' ≠ k ∧ f k' = f k))

theorem shares_iff (k : ι) : Shares f k ↔ 1 < load f (f k) := by
  rw [load, one_lt_card_iff]
  constructor
  · rintro ⟨k', hne, heq⟩
    exact ⟨k', k, by simpa using heq, by simp, hne⟩
  · rintro ⟨a, b, ha, hb, hab⟩
    rw [mem_filter] at ha hb
    by_cases hak : a = k
    · exact ⟨b, fun hbk => hab (hak.trans hbk.symm), hb.2⟩
    · exact ⟨a, hak, ha.2⟩

variable [Fintype κ]

theorem sum_load : ∑ i, load f i = Fintype.card ι := by
  rw [← card_univ, card_eq_sum_card_fiberwise (f := f) (t := univ) fun _ _ => by simp]
  rfl

/-- The items that share their slot, slot by slot: all of a slot that holds more than one, and none of another. -/
theorem card_shares [DecidableEq ι] : #{k | Shares f k} = ∑ i, if 1 < load f i then load f i else 0 := by
  rw [card_eq_sum_card_fiberwise (f := f) (t := univ) fun _ _ => by simp]
  refine sum_congr rfl fun i _ => ?_
  rw [filter_filter]
  split_ifs with hi
  · refine congrArg card (filter_congr fun k _ => ?_)
    rw [shares_iff]
    constructor
    · exact fun h => h.2
    · rintro rfl
      exact ⟨hi, rfl⟩
  · rw [card_eq_zero, filter_eq_empty_iff]
    rintro k - ⟨hk, rfl⟩
    exact hi ((shares_iff f k).mp hk)

/-- Every slot is empty, holds a single item, or holds several of them. -/
theorem slots_balance :
    (∑ i, if load f i = 0 then 1 else 0) + (∑ i, if 1 < load f i then 1 else 0) + Fintype.card ι =
      Fintype.card κ + ∑ i, if 1 < load f i then load f i else 0 := by
  rw [← sum_load f, ← card_univ (α := κ), card_eq_sum_ones, ← sum_add_distrib, ← sum_add_distrib, ← sum_add_distrib]
  refine sum_congr rfl fun i _ => ?_
  split_ifs <;> omega

end

/-! ### Mean and variance -/

section
variable {κ : Type*} [Fintype κ] (x : κ → ℚ)

def mean : ℚ := (∑ i, x i) / Fintype.card κ

/-- The variance of a population. -/
def variance : ℚ := (∑ i, (x i - mean x) * (x i - mean x)) / Fintype.card κ

variable [Nonempty κ] {x}

theorem le_mean {a : ℚ} (h : ∀ i, a ≤ x i) : a ≤ mean x := by
  have hcard : (0 : ℚ) < Fintype.card κ := by exact_mod_cast Fintype.card_pos
  rw [mean, le_div_iff₀ hcard, mul_comm, ← nsmul_eq_mul, ← card_univ]
  exact card_nsmul_le_sum _ _ _ fun i _ => h i

theorem mean_le {b : ℚ} (h : ∀ i, x i ≤ b) : mean x ≤ b := by
  have hcard : (0 : ℚ) < Fintype.card κ := by exact_mod_cast Fintype.card_pos
  rw [mean, div_le_iff₀ hcard, mul_comm, ← nsmul_eq_mul, ← card_univ]
  exact sum_le_card_nsmul _ _ _ fun i _ => h i

/-- No number deviates from the mean exactly if they are all equal. -/
theorem sum_sq_deviation_eq_zero_iff : ∑ i, (x i - mean x) * (x i - mean x) = 0 ↔ ∀ i j, x i = x j := by
  rw [sum_eq_zero_iff_of_nonneg fun i _ => mul_self_nonneg _]
  constructor
  · intro h i j
    have hmean : ∀ i, x i = mean x := fun i => sub_eq_zero.mp (mul_self_eq_zero.mp (h i (mem_univ i)))
    rw [hmean i, hmean j]
  · intro h i _
    have hmean : mean x = x i := le_antisymm (mean_le fun j => (h j i).le) (le_mean fun j => (h i j).le)
    rw [hmean, sub_self, mul_zero]

end

end HashingArchive.Library.Loads
