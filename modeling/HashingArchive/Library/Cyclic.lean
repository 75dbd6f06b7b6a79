import Mathlib

/-!
# Swaps with an earlier place

Going down from the last place and swapping each one with an earlier one, never with itself, puts all places on one
cycle (`exists_formPerm`), and every such cycle comes about this way (`exists_draws`): the orders that a list is brought
into are the permutations with a single cycle (`earlierSwaps_reach_iff`).
-/

namespace HashingArchive.Library

open Equiv Equiv.Perm

variable {α : Type*} [DecidableEq α]

/-- The swaps from place `i` down to place 1, each with the place drawn for it. -/
def earlierSwaps (place : ℕ → α) (draw : ℕ → ℕ) : ℕ → Perm α
  | 0 => 1
  | i + 1 => swap (place (i + 1)) (place (draw (i + 1))) * earlierSwaps place draw i

/-- Only the draws for these places count. -/
theorem earlierSwaps_congr (place : ℕ → α) {draw draw' : ℕ → ℕ} {i : ℕ} (h : ∀ k, 0 < k → k ≤ i → draw k = draw' k) :
    earlierSwaps place draw i = earlierSwaps place draw' i := by
  induction i with
  | zero => rfl
  | succ i ih =>
    rw [earlierSwaps, earlierSwaps, h (i + 1) (Nat.succ_pos i) le_rfl, ih fun k hpos hk => h k hpos (by omega)]

/-- A cycle can be read from any of its places on. -/
theorem exists_rotation {l : List α} (hl : l.Nodup) {a : α} (ha : a ∈ l) :
    ∃ rest, (a :: rest).Perm l ∧ l.formPerm = (a :: rest).formPerm := by
  obtain ⟨s, t, rfl⟩ := List.append_of_mem ha
  have hrotated : (s ++ a :: t) ~r (a :: t ++ s) := List.isRotated_append
  exact ⟨t ++ s, hrotated.perm.symm, List.formPerm_eq_of_isRotated hl hrotated⟩

section
variable {place : ℕ → α} {i : ℕ} (hplace : ((List.range (i + 1)).map place).Nodup)
include hplace

theorem exists_formPerm {draw : ℕ → ℕ} (hdraw : ∀ k, 0 < k → draw k < k) :
    ∃ l : List α, l.Perm ((List.range (i + 1)).map place) ∧ earlierSwaps place draw i = l.formPerm := by
  induction i with
  | zero => exact ⟨[place 0], List.Perm.refl _, (List.formPerm_singleton _).symm⟩
  | succ i ih =>
    rw [List.range_succ, List.map_append, List.map_singleton] at hplace ⊢
    obtain ⟨l, hl, hswaps⟩ := ih hplace.of_append_left
    have hmem : place (draw (i + 1)) ∈ l :=
      hl.mem_iff.mpr (List.mem_map_of_mem (List.mem_range.mpr (hdraw _ (Nat.succ_pos i))))
    -- The new place is put before the one it is swapped with.
    obtain ⟨rest, hrest, hcycle⟩ := exists_rotation (hl.nodup_iff.mpr hplace.of_append_left) hmem
    refine ⟨place (i + 1) :: place (draw (i + 1)) :: rest, ?_, ?_⟩
    · exact ((hrest.trans hl).cons _).trans (List.perm_append_singleton _ _).symm
    · rw [earlierSwaps, hswaps, hcycle, List.formPerm_cons_cons]

theorem exists_draws {l : List α} (hl : l.Perm ((List.range (i + 1)).map place)) :
    ∃ draw : ℕ → ℕ, (∀ k, 0 < k → draw k < k) ∧ earlierSwaps place draw i = l.formPerm := by
  induction i generalizing l with
  | zero =>
    obtain rfl := List.perm_singleton.mp hl
    exact ⟨fun _ => 0, fun k hk => hk, (List.formPerm_singleton _).symm⟩
  | succ i ih =>
    have hnodup := hl.nodup_iff.mpr hplace
    rw [List.range_succ, List.map_append, List.map_singleton] at hplace hl
    have hlast : place (i + 1) ∈ l := hl.mem_iff.mpr (List.mem_append_right _ (List.mem_singleton_self _))
    obtain ⟨rest, hrest, hcycle⟩ := exists_rotation hnodup hlast
    have hrest' : rest.Perm ((List.range (i + 1)).map place) :=
      List.Perm.cons_inv ((hrest.trans hl).trans (List.perm_append_singleton _ _))
    -- What follows the last place on the cycle is the place it is swapped with.
    obtain ⟨a, rest, rfl⟩ : ∃ a t, rest = a :: t := by
      cases rest with
      | nil => exact absurd hrest'.length_eq (by simp)
      | cons a t => exact ⟨a, t, rfl⟩
    obtain ⟨j, hj, rfl⟩ := List.mem_map.mp (hrest'.mem_iff.mp List.mem_cons_self)
    rw [List.mem_range] at hj
    obtain ⟨draw, hdraw, hswaps⟩ := ih hplace.of_append_left hrest'
    refine ⟨Function.update draw (i + 1) j, fun k hk => ?_, ?_⟩
    · rcases eq_or_ne k (i + 1) with rfl | hne
      · rwa [Function.update_self]
      · rw [Function.update_of_ne hne]
        exact hdraw k hk
    · have hbelow : earlierSwaps place (Function.update draw (i + 1) j) i = earlierSwaps place draw i :=
        earlierSwaps_congr place fun k _ hk => Function.update_of_ne (by omega) _ _
      rw [earlierSwaps, Function.update_self, hbelow, hswaps, hcycle, List.formPerm_cons_cons]

end

/-! ### Permutations with a single cycle -/

theorem sameCycle_formPerm {l : List α} (hl : l.Nodup) (hall : ∀ a, a ∈ l) (a b : α) : SameCycle l.formPerm a b :=
  hl.isCycleOn_formPerm.2 (hall a) (hall b)

theorem exists_formPerm_of_sameCycle [Fintype α] [Nonempty α] {σ : Perm α} (h : ∀ a b, σ.SameCycle a b) :
    ∃ l : List α, l.Nodup ∧ (∀ a, a ∈ l) ∧ σ = l.formPerm := by
  obtain ⟨a⟩ := ‹Nonempty α›
  by_cases hfix : σ a = a
  · have hone (b : α) : b = a := (h a b).eq_of_left hfix ▸ rfl
    refine ⟨[a], List.nodup_singleton a, fun b => ?_, Equiv.ext fun b => ?_⟩
    · rw [hone b]
      exact List.mem_singleton_self a
    · rw [hone b, List.formPerm_singleton, hfix, one_apply]
  · have hcycle : σ.IsCycle := ⟨a, hfix, fun b _ => h a b⟩
    refine ⟨σ.toList a, nodup_toList σ a, fun b => mem_toList_iff.mpr ⟨h a b, mem_support.mpr hfix⟩, ?_⟩
    rw [formPerm_toList, hcycle.cycleOf_eq hfix]

/-! ### Swaps in a list -/

section
variable {n : ℕ} [NeZero n]

theorem ofFn_swap {T : Type*} (v : Fin n → T) {a b : ℕ} (ha : a < n) (hb : b < n) :
    (List.ofFn v).swap a b = List.ofFn (v ∘ swap (Fin.ofNat n a) (Fin.ofNat n b)) := by
  have hplace {k : ℕ} (hk : k < n) : Fin.ofNat n k = ⟨k, hk⟩ := Fin.ext (Nat.mod_eq_of_lt hk)
  rw [hplace ha, hplace hb]
  apply List.ext_getElem (by simp)
  intro k hk hk'
  rw [List.getElem_swap, List.getElem_ofFn, List.getElem_ofFn, Function.comp_apply, swap_apply_def]
  simp only [List.length_ofFn, ha, hb, and_true, List.getElem_ofFn, Fin.mk.injEq]
  split_ifs <;> rfl

theorem map_place (n : ℕ) [NeZero n] : (List.range (n - 1 + 1)).map (Fin.ofNat n) = List.finRange n := by
  rw [Nat.sub_add_cancel (NeZero.pos n)]
  apply List.ext_getElem (by simp)
  intro k hk _
  rw [List.length_map, List.length_range] at hk
  simp [Fin.ext_iff, Nat.mod_eq_of_lt hk]

end

/-- The swaps reach the permutations with a single cycle. -/
theorem earlierSwaps_reach_iff (n : ℕ) [NeZero n] (σ : Perm (Fin n)) :
    (∃ draw : ℕ → ℕ, (∀ k, 0 < k → draw k < k) ∧ earlierSwaps (Fin.ofNat n) draw (n - 1) = σ) ↔
      ∀ a b, σ.SameCycle a b := by
  have hnodup : ((List.range (n - 1 + 1)).map (Fin.ofNat n)).Nodup := by
    rw [map_place]
    exact List.nodup_finRange n
  constructor
  · rintro ⟨draw, hdraw, rfl⟩
    obtain ⟨l, hl, hswaps⟩ := exists_formPerm hnodup hdraw
    rw [map_place] at hl
    rw [hswaps]
    exact sameCycle_formPerm (hl.nodup_iff.mpr (List.nodup_finRange n)) fun a => hl.mem_iff.mpr (List.mem_finRange a)
  · intro hσ
    obtain ⟨l, hl, hall, rfl⟩ := exists_formPerm_of_sameCycle hσ
    have hperm : l.Perm ((List.range (n - 1 + 1)).map (Fin.ofNat n)) := by
      rw [map_place, List.perm_ext_iff_of_nodup hl (List.nodup_finRange n)]
      exact fun a => iff_of_true (hall a) (List.mem_finRange a)
    exact exists_draws hnodup hperm

end HashingArchive.Library
