import Mathlib

/-!
# Blocks at equal distances

Block `i` has the places from `D * i` on, `c i` of them. If the first `T` blocks fill an initial segment and no two
of them overlap, then every block but the last has exactly `D` places (`length_eq_of_tiles`), and the other way
around (`tiles_of_length_eq`).
-/

namespace HashingArchive.Library

/-- The place `p` is in the block. -/
def InBlock (D : ℕ) (c : ℕ → ℕ) (i p : ℕ) : Prop := D * i ≤ p ∧ p < D * i + c i

variable {D T : ℕ} {c : ℕ → ℕ}

theorem block_le {i j : ℕ} (h : i < j) : D * i + D ≤ D * j := by
  have hle := Nat.mul_le_mul_left D (show i + 1 ≤ j from h)
  rwa [Nat.mul_succ] at hle

theorem first_inBlock {i : ℕ} (h : 0 < c i) : InBlock D c i (D * i) := ⟨le_rfl, by omega⟩

theorem length_eq_of_tiles {n : ℕ} (hpos : ∀ i < T, 0 < c i)
    (hdisjoint : ∀ i j p, i < j → j < T → InBlock D c i p → ¬ InBlock D c j p)
    (hcover : ∀ p, (∃ i < T, InBlock D c i p) ↔ p < n) {i : ℕ} (hi : i + 1 < T) : c i = D := by
  have hnext : InBlock D c (i + 1) (D * (i + 1)) := first_inBlock (hpos _ hi)
  have hsucc : D * (i + 1) = D * i + D := Nat.mul_succ D i
  have hle : ∀ k, k + 1 < T → c k ≤ D := fun k hk => by
    by_contra hlt
    have hsucc' : D * (k + 1) = D * k + D := Nat.mul_succ D k
    exact hdisjoint k (k + 1) _ (Nat.lt_succ_self k) hk ⟨by omega, by omega⟩ (first_inBlock (hpos _ hk))
  -- the place after block `i` comes before block `i + 1`, so no block has it
  by_contra hne
  have hlt := hle i hi
  have hplace : D * i + c i < n := by
    have hlast := (hcover _).mp ⟨i + 1, hi, hnext⟩
    omega
  obtain ⟨k, hk, hfrom, hto⟩ := (hcover _).mpr hplace
  rcases Nat.lt_trichotomy k i with hki | rfl | hik
  · have hblock := block_le (D := D) hki
    have hck := hle k (by omega)
    omega
  · omega
  · have hblock := block_le (D := D) hik
    omega

theorem disjoint_of_length_eq (h : ∀ i, i + 1 < T → c i = D) {i j p : ℕ} (hij : i < j) (hj : j < T)
    (hi : InBlock D c i p) : ¬ InBlock D c j p := by
  intro hjp
  have hci := h i (by omega)
  have hblock := block_le (D := D) hij
  have hto := hi.2
  have hfrom := hjp.1
  omega

theorem sum_length_eq (h : ∀ i, i + 1 < T + 1 → c i = D) : ∑ i ∈ Finset.range (T + 1), c i = D * T + c T := by
  rw [Finset.sum_range_succ, Finset.sum_congr rfl fun i hi => h i (by simpa using hi), Finset.sum_const,
    Finset.card_range, smul_eq_mul, Nat.mul_comm]

theorem tiles_of_length_eq (h : ∀ i, i + 1 < T + 1 → c i = D) (p : ℕ) :
    (∃ i < T + 1, InBlock D c i p) ↔ p < D * T + c T := by
  constructor
  · intro ⟨i, hi, hip⟩
    have hto := hip.2
    rcases Nat.lt_succ_iff_lt_or_eq.mp hi with hlt | rfl
    · have hci := h i (by omega)
      have hblock := block_le (D := D) hlt
      omega
    · exact hto
  · intro hp
    by_cases hlast : D * T ≤ p
    · exact ⟨T, Nat.lt_succ_self T, hlast, hp⟩
    · have hD : 0 < D := Nat.pos_of_ne_zero fun h0 => by simp [h0] at hlast
      have hlt : p / D < T := Nat.div_lt_of_lt_mul (by omega)
      refine ⟨p / D, by omega, Nat.mul_div_le p D, ?_⟩
      rw [h _ (by omega)]
      have hmod := Nat.mod_lt p hD
      have hdiv := Nat.div_add_mod p D
      omega

end HashingArchive.Library
