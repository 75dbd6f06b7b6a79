import Mathlib

/-!
# Binary search

`lowerBound` halves a range as `std::lower_bound` does, up to the first place where `below` does not hold any more;
`below` may fail, as an access out of bounds does. It finds the place where a range is partitioned
(`lowerBound_eq`), and what comes first in a list that is partitioned is what is counted (`partitioned_iff`).
-/

namespace HashingArchive.Library

def lowerBound (below : ℕ → Option Bool) (first len : ℕ) : Option ℕ :=
  if 0 < len then
    match below (first + len / 2) with
    | none => none
    | some true => lowerBound below (first + len / 2 + 1) (len - len / 2 - 1)
    | some false => lowerBound below first (len / 2)
  else some first
termination_by len
decreasing_by all_goals omega

/-- What holds before `pos` and not from there on is over at `pos`. -/
theorem lowerBound_eq {below : ℕ → Option Bool} {pos : ℕ} (first len : ℕ) (hfirst : first ≤ pos)
    (hlast : pos ≤ first + len) (hbelow : ∀ i, first ≤ i → i < first + len → below i = some (decide (i < pos))) :
    lowerBound below first len = some pos := by
  fun_induction lowerBound below first len with
  | case1 first len hlen hnone =>
    have hmid := hbelow (first + len / 2) (by omega) (by omega)
    rw [hnone] at hmid
    cases hmid
  | case2 first len hlen htrue ih =>
    have hmid := hbelow (first + len / 2) (by omega) (by omega)
    rw [htrue] at hmid
    have hlt : first + len / 2 < pos := by simpa using hmid
    exact ih (by omega) (by omega) fun i hi hi' => hbelow i (by omega) (by omega)
  | case3 first len hlen hfalse ih =>
    have hmid := hbelow (first + len / 2) (by omega) (by omega)
    rw [hfalse] at hmid
    have hge : pos ≤ first + len / 2 := by simpa using hmid
    exact ih hfirst hge fun i hi hi' => hbelow i hi (by omega)
  | case4 first len hlen =>
    congr 1
    omega

/-- Where `q` only holds up to some place, it holds for as many as there are. -/
theorem partitioned_iff {α : Type*} {q : α → Bool} {l : List α} (h : l.Pairwise fun a b => q b → q a) {i : ℕ}
    (hi : i < l.length) : q l[i] ↔ i < l.countP q := by
  induction l generalizing i with
  | nil => simp at hi
  | cons a l ih =>
    obtain ⟨ha, hl⟩ := List.pairwise_cons.mp h
    by_cases hq : q a
    · rw [List.countP_cons_of_pos hq]
      cases i with
      | zero => simpa using hq
      | succ i => simpa using ih hl (by simpa using hi)
    · have hnone : ∀ b ∈ l, ¬ q b := fun b hb hqb => hq (ha b hb hqb)
      rw [List.countP_cons_of_neg hq, List.countP_eq_zero.mpr hnone]
      constructor
      · intro hqi
        rcases List.mem_cons.mp (List.getElem_mem hi) with heq | hmem
        · rw [heq] at hqi
          exact absurd hqi hq
        · exact absurd hqi (hnone _ hmem)
      · simp

end HashingArchive.Library
