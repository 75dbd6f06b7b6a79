import Mathlib

/-!
# Sums over threads

A concurrent system keeps a local state for every thread, and a step changes that of one thread. Sums over all
threads then change by what this thread changes (`sum_update`).
-/

namespace HashingArchive.Library

variable {Thread σ : Type*} [Fintype Thread] [DecidableEq Thread]

theorem sum_update (f : σ → ℕ) (threads : Thread → σ) (t : Thread) (a : σ) :
    ∑ u, f (Function.update threads t a u) + f (threads t) = ∑ u, f (threads u) + f a := by
  have hrest : ∑ u ∈ Finset.univ.erase t, f (Function.update threads t a u) =
      ∑ u ∈ Finset.univ.erase t, f (threads u) := by
    apply Finset.sum_congr rfl
    intro u hu
    rw [Function.update_of_ne (Finset.mem_erase.mp hu).1]
  rw [← Finset.sum_erase_add _ _ (Finset.mem_univ t), ← Finset.sum_erase_add (a := t) _ _ (Finset.mem_univ t), hrest,
    Function.update_self]
  omega

omit [DecidableEq Thread] in
/-- No more threads have a positive share than there is to share. -/
theorem card_pos_le_sum (f : Thread → ℕ) : (Finset.univ.filter fun t => 0 < f t).card ≤ ∑ t, f t := by
  rw [Finset.card_filter]
  apply Finset.sum_le_sum
  intro t _
  split_ifs with h
  · exact h
  · exact Nat.zero_le _

end HashingArchive.Library
