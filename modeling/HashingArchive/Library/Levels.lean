import Mathlib

/-!
# Levels of a monotone sequence

The first `n` members of a monotone sequence of levels, sorted into one list for every level. The members below a
level come before it and those above after it, so a level is an interval that two counts describe (`level_eq_range'`).
-/

namespace HashingArchive.Library

/-- The members with level `b`. -/
def level (r : ℕ → ℕ) (n b : ℕ) : List ℕ := (List.range n).filter fun j => r j = b

/-- How many members have a level below `b`. -/
def below (r : ℕ → ℕ) (n b : ℕ) : ℕ := Nat.count (fun j => r j < b) n

section
variable (r : ℕ → ℕ) (n b : ℕ)

theorem level_zero : level r 0 b = [] := rfl

theorem level_succ : level r (n + 1) b = level r n b ++ if r n = b then [n] else [] := by
  rw [level, List.range_succ, List.filter_append]
  by_cases h : r n = b <;> simp [level, h]

theorem level_succ_self : level r (n + 1) (r n) = level r n (r n) ++ [n] := by rw [level_succ, if_pos rfl]

theorem level_succ_of_ne {b : ℕ} (h : r n ≠ b) : level r (n + 1) b = level r n b := by
  rw [level_succ, if_neg h, List.append_nil]

theorem mem_level {j : ℕ} : j ∈ level r n b ↔ j < n ∧ r j = b := by simp [level]

theorem below_le : below r n b ≤ n := Nat.count_le _

theorem below_zero : below r n 0 = 0 := by simp [below, Nat.count_false]

theorem below_mono {b c : ℕ} (h : b ≤ c) : below r n b ≤ below r n c :=
  Nat.count_mono_left fun _ _ hj => lt_of_lt_of_le hj h

/-- The count depends on which members are below the level only. -/
theorem below_congr {r r' : ℕ → ℕ} {n b b' : ℕ} (h : ∀ j < n, r j < b ↔ r' j < b') : below r n b = below r' n b' :=
  le_antisymm (Nat.count_mono_left fun j hj => (h j hj).mp) (Nat.count_mono_left fun j hj => (h j hj).mpr)

theorem below_le_succ : below r n b ≤ below r n (b + 1) := below_mono r n (Nat.le_succ b)

end

section
variable {r : ℕ → ℕ} {n : ℕ} (hr : ∀ i j, i ≤ j → j < n → r i ≤ r j)
include hr

theorem lt_below_iff {j : ℕ} (hj : j < n) (b : ℕ) : j < below r n b ↔ r j < b := by
  induction n with
  | zero => exact absurd hj (Nat.not_lt_zero j)
  | succ n ih =>
    have hr' : ∀ i j, i ≤ j → j < n → r i ≤ r j := fun i j hij hjn => hr i j hij (by omega)
    have hle : below r n b ≤ n := below_le r n b
    unfold below at ih hle ⊢
    rw [Nat.count_succ]
    rcases Nat.lt_succ_iff_lt_or_eq.mp hj with hlt | rfl
    · split_ifs with hn
      · have hrj := (hr j n (by omega) (by omega)).trans_lt hn
        have hjb := (ih hr' hlt).mpr hrj
        exact ⟨fun _ => hrj, fun _ => by omega⟩
      · exact ih hr' hlt
    · split_ifs with hn
      · -- every member before `j` counts
        have hall : Nat.count (fun i => r i < b) j = j := by
          apply Nat.count_iff_forall.mpr
          intro i hi
          exact (hr i j hi.le (by omega)).trans_lt hn
        exact ⟨fun _ => hn, fun _ => by omega⟩
      · exact ⟨fun h => absurd h (by omega), fun h => absurd h hn⟩

theorem level_eq_range' (b : ℕ) : level r n b = List.range' (below r n b) (below r n (b + 1) - below r n b) := by
  have hle := below_le_succ r n b
  have hn := below_le r n (b + 1)
  have hsorted : (level r n b).Pairwise (· < ·) := List.Pairwise.filter _ List.pairwise_lt_range
  have hperm : (level r n b).Perm (List.range' (below r n b) (below r n (b + 1) - below r n b)) := by
    refine (List.perm_ext_iff_of_nodup (hsorted.imp fun h => h.ne) List.nodup_range').mpr fun j => ?_
    rw [mem_level, List.mem_range'_1]
    constructor
    · intro ⟨hj, hjb⟩
      have hlow := lt_below_iff hr hj b
      have hhigh := lt_below_iff hr hj (b + 1)
      omega
    · intro ⟨hfrom, hto⟩
      have hj : j < n := by omega
      have hlow := lt_below_iff hr hj b
      have hhigh := lt_below_iff hr hj (b + 1)
      omega
  exact hperm.eq_of_pairwise (fun a b _ _ hab hba => absurd hab (not_lt.mpr hba.le)) hsorted List.pairwise_lt_range'

end

end HashingArchive.Library
