import HashingArchive.Benchmark.Dataset
import HashingArchive.Library.Cyclic

/-!
# The orderings a shuffle reaches

`Dataset::shuffle` is labelled Fisher-Yates, but draws the position to swap with from below the current one instead of
up to it. The order the values came in is then never reached (`shuffleFrom_eq_self`), unless they are all equal: the
orders reached are those with a single cycle (`shuffle_reaches_cycles`).
-/

namespace HashingArchive.Benchmark

/-- `shuffle` with the numbers the engine yields in turn, the first of them for the last position. -/
def shuffled (draws : ℕ → BitVec 64) (dataset : List (BitVec 64)) : List (BitVec 64) :=
  shuffle (fun i => (draws (dataset.length - 1 - i)).toNat) dataset

theorem shuffled_perm (draws : ℕ → BitVec 64) (dataset : List (BitVec 64)) : (shuffled draws dataset).Perm dataset :=
  shuffle_perm _ _

/-! ### What the swaps do -/

theorem getElem?_swap_of_ne {dataset : List (BitVec 64)} {i j k : ℕ} (hi : k ≠ i) (hj : k ≠ j) :
    (dataset.swap i j)[k]? = dataset[k]? := by
  by_cases hk : k < dataset.length
  · rw [List.getElem?_eq_getElem hk, List.getElem?_eq_getElem (by rwa [List.length_swap]),
      List.getElem_swap_of_ne hi hj]
  · have hge : dataset.length ≤ k := Nat.le_of_not_lt hk
    rw [List.getElem?_eq_none hge, List.getElem?_eq_none (by rwa [List.length_swap])]

/-- Swapping equal values changes nothing. -/
theorem swap_eq_self {dataset : List (BitVec 64)} {i j : ℕ} (heq : dataset[i]? = dataset[j]?) :
    dataset.swap i j = dataset := by
  apply List.ext_getElem (by simp)
  intro k hk hk'
  grind

/-- The swaps from position `i` down leave the positions above it alone. -/
theorem shuffleFrom_getElem? (dist : ℕ → ℕ) {i k : ℕ} (hk : i < k) (dataset : List (BitVec 64)) :
    (shuffleFrom dist i dataset)[k]? = dataset[k]? := by
  induction i generalizing dataset with
  | zero => rfl
  | succ i ih =>
    have hj : dist (i + 1) % (i + 1) < i + 1 := Nat.mod_lt _ (Nat.succ_pos i)
    rw [shuffleFrom, ih (by omega), getElem?_swap_of_ne (by omega) (by omega)]

/-- The order stays only if each value was swapped with an equal one: the value at position `i + 1` comes from below it
and is not moved again. -/
theorem shuffleFrom_eq_self (dist : ℕ → ℕ) {i : ℕ} {dataset : List (BitVec 64)} (hi : i < dataset.length)
    (hself : shuffleFrom dist i dataset = dataset) : ∀ k ≤ i, dataset[k]? = dataset[0]? := by
  induction i with
  | zero =>
    intro k hk
    rw [Nat.le_zero.mp hk]
  | succ i ih =>
    have hj : dist (i + 1) % (i + 1) < i + 1 := Nat.mod_lt _ (Nat.succ_pos i)
    rw [shuffleFrom] at hself
    generalize dist (i + 1) % (i + 1) = j at hj hself
    have hlast : dataset[i + 1]? = dataset[j]? := by
      calc dataset[i + 1]? = (shuffleFrom dist i (dataset.swap (i + 1) j))[i + 1]? := by rw [hself]
        _ = (dataset.swap (i + 1) j)[i + 1]? := shuffleFrom_getElem? dist (Nat.lt_succ_self i) _
        _ = dataset[j]? := by
          rw [List.getElem?_eq_getElem (by simpa using hi), List.getElem?_eq_getElem (by omega),
            List.getElem_swap_left_of_lt (by omega)]
    rw [swap_eq_self hlast] at hself
    have hbelow := ih (by omega) hself
    intro k hk
    rcases Nat.lt_or_eq_of_le hk with hlt | rfl
    · exact hbelow k (by omega)
    · exact hlast.trans (hbelow j (by omega))

theorem shuffle_eq_shuffleFrom (dist : ℕ → ℕ) (dataset : List (BitVec 64)) :
    shuffle dist dataset = shuffleFrom dist (dataset.length - 1) dataset := by
  unfold shuffle
  split_ifs with hnil
  · rw [hnil]
    rfl
  · rfl

/-! ### Which orderings are reached -/

section
variable {n : ℕ}

/-- Some numbers of the engine put the values into the order `σ`. -/
def Reached (v : Fin n → BitVec 64) (σ : Equiv.Perm (Fin n)) : Prop :=
  ∃ draws, shuffled draws (List.ofFn v) = List.ofFn (v ∘ σ)

theorem eq_of_reached_refl {v : Fin n → BitVec 64} (h : Reached v (Equiv.refl _)) (i j : Fin n) : v i = v j := by
  obtain ⟨draws, hself⟩ := h
  rw [shuffled, shuffle_eq_shuffleFrom] at hself
  have hlast : (List.ofFn v).length - 1 < (List.ofFn v).length := by
    have hi := i.isLt
    rw [List.length_ofFn]
    omega
  have hall := shuffleFrom_eq_self _ hlast hself
  have hfirst : ∀ k : Fin n, some (v k) = (List.ofFn v)[0]? := by
    intro k
    rw [← hall k (by simp; omega)]
    simp
  exact Option.some.inj ((hfirst i).trans (hfirst j).symm)

/-- Equal values have one order. -/
theorem shuffled_of_eq {v : Fin n → BitVec 64} (heq : ∀ i j, v i = v j) (draws : ℕ → BitVec 64)
    (σ : Equiv.Perm (Fin n)) : shuffled draws (List.ofFn v) = List.ofFn (v ∘ σ) := by
  have hsame : v ∘ σ = v := funext fun i => heq _ _
  rcases n with - | n
  · exact (shuffled_perm draws (List.ofFn v)).eq_nil
  · have hconst : List.ofFn v = List.replicate (n + 1) (v 0) := by
      rw [← List.ofFn_const]
      exact congrArg List.ofFn (funext fun i => heq _ _)
    rw [hsame, hconst]
    exact List.perm_replicate.mp (shuffled_perm draws _)

end

/-- **The shuffle reaches every ordering** of at most one position, and of a single list exactly if its values are all
equal. -/
theorem shuffle_reaches_iff (n : ℕ) :
    (((∀ draws, ∀ v : Fin n → BitVec 64, (shuffled draws (List.ofFn v)).Perm (List.ofFn v)) ∧
        ∀ σ : Equiv.Perm (Fin n), ∃ draws, ∀ v : Fin n → BitVec 64,
          shuffled draws (List.ofFn v) = List.ofFn (v ∘ σ)) ↔ n ≤ 1) ∧
      ∀ v : Fin n → BitVec 64,
        ((∀ draws, (shuffled draws (List.ofFn v)).Perm (List.ofFn v)) ∧ ∀ σ, Reached v σ) ↔ ∀ i j, v i = v j := by
  refine ⟨⟨?_, fun hn => ?_⟩, fun v => ⟨fun h => eq_of_reached_refl (h.2 _), fun heq => ?_⟩⟩
  · rintro ⟨-, hreach⟩
    by_contra! hn
    -- the positions as values cannot all be equal
    obtain ⟨draws, hdraws⟩ := hreach (Equiv.refl _)
    have heq := eq_of_reached_refl ⟨draws, hdraws fun i => if i.val = 0 then 0 else 1⟩ ⟨0, by omega⟩ ⟨1, hn⟩
    simp at heq
  · have hsub : Subsingleton (Fin n) := Fin.subsingleton_iff_le_one.mpr hn
    refine ⟨fun draws v => shuffled_perm draws _, fun σ => ⟨0, fun v => ?_⟩⟩
    exact shuffled_of_eq (fun i j => congrArg v (Subsingleton.elim i j)) 0 σ
  · exact ⟨fun draws => shuffled_perm draws _, fun σ => ⟨0, shuffled_of_eq heq 0 σ⟩⟩

/-- Two values always change places. -/
theorem shuffle_never_keeps_two : ¬∀ σ : Equiv.Perm (Fin 2), Reached ![1, 2] σ := by
  intro h
  have heq := eq_of_reached_refl (h _) 0 1
  exact absurd heq (by decide)

/-! ### All orderings that are reached -/

section
variable {n : ℕ} [NeZero n]

theorem shuffleFrom_ofFn (dist : ℕ → ℕ) {i : ℕ} (hi : i < n) (v : Fin n → BitVec 64) :
    shuffleFrom dist i (List.ofFn v) =
      List.ofFn (v ∘ Library.earlierSwaps (Fin.ofNat n) (fun k => dist k % k) i) := by
  induction i generalizing v with
  | zero => rfl
  | succ i ih =>
    have hj : dist (i + 1) % (i + 1) < i + 1 := Nat.mod_lt _ (Nat.succ_pos i)
    rw [shuffleFrom, Library.ofFn_swap v hi (by omega), ih (by omega), Library.earlierSwaps, Equiv.Perm.coe_mul,
      Function.comp_assoc]

theorem shuffled_ofFn (draws : ℕ → BitVec 64) (v : Fin n → BitVec 64) : shuffled draws (List.ofFn v) =
    List.ofFn (v ∘ Library.earlierSwaps (Fin.ofNat n) (fun k => (draws (n - 1 - k)).toNat % k) (n - 1)) := by
  have hpos := NeZero.pos n
  rw [shuffled, shuffle_eq_shuffleFrom, List.length_ofFn]
  exact shuffleFrom_ofFn _ (by omega) v

end

/-- An ordering is known by what it does to all values. -/
theorem comp_inj_of_values {n : ℕ} {σ τ : Equiv.Perm (Fin n)} (h : ∀ v : Fin n → BitVec 64, v ∘ σ = v ∘ τ) : σ = τ := by
  ext a
  have hvalue := congrFun (h fun b => if b = τ a then 1 else 0) a
  simp only [Function.comp_apply, if_true] at hvalue
  split_ifs at hvalue with heq
  · rw [heq]
  · exact absurd hvalue (by decide)

/-- **The shuffle reaches the orderings with a single cycle**, and no others. -/
theorem shuffle_reaches_cycles {n : ℕ} (hn : n ≤ 2 ^ 64) (σ : Equiv.Perm (Fin n)) :
    (∃ draws, ∀ v : Fin n → BitVec 64, shuffled draws (List.ofFn v) = List.ofFn (v ∘ σ)) ↔
      ∀ a b, σ.SameCycle a b := by
  rcases Nat.eq_zero_or_pos n with rfl | hpos
  · exact iff_of_true ⟨0, fun v => by simp [shuffled, shuffle]⟩ fun a => a.elim0
  have : NeZero n := ⟨hpos.ne'⟩
  rw [← Library.earlierSwaps_reach_iff]
  constructor
  · rintro ⟨draws, hreach⟩
    refine ⟨fun k => (draws (n - 1 - k)).toNat % k, fun k hk => Nat.mod_lt _ hk, comp_inj_of_values fun v => ?_⟩
    rw [← List.ofFn_inj, ← hreach, shuffled_ofFn]
  · rintro ⟨j, hj, rfl⟩
    refine ⟨fun m => BitVec.ofNat 64 (j (n - 1 - m)), fun v => ?_⟩
    -- The numbers drawn are below the place already, and the division leaves them as they are.
    have hswaps : Library.earlierSwaps (Fin.ofNat n)
        (fun k => (BitVec.ofNat 64 (j (n - 1 - (n - 1 - k)))).toNat % k) (n - 1) =
          Library.earlierSwaps (Fin.ofNat n) j (n - 1) := by
      refine Library.earlierSwaps_congr _ fun k hpos hk => ?_
      have hlt := hj k hpos
      rw [Nat.sub_sub_self hk, BitVec.toNat_ofNat, Nat.mod_eq_of_lt (by omega : j k < 2 ^ 64), Nat.mod_eq_of_lt hlt]
    rw [shuffled_ofFn, hswaps]

/-- Three values are rotated. -/
theorem shuffle_reaches_cycles_three : 3 ≤ 2 ^ 64 ∧ ∃ draws, ∀ v : Fin 3 → BitVec 64,
    shuffled draws (List.ofFn v) = List.ofFn (v ∘ finRotate 3) :=
  ⟨by norm_num, (shuffle_reaches_cycles (by norm_num) (finRotate 3)).mpr (by decide)⟩

end HashingArchive.Benchmark
